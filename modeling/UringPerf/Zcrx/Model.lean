import UringPerf.Base.Table
import UringPerf.Config.Args
import UringPerf.Engine.Context
import UringPerf.Stats.Counters

/-!
# The zero-copy receive loops

`Worker::run_server_zcrx` and `Worker::run_client_reverse_recv_zcrx` of `src/worker.cpp`.  They have a
ring of their own, whose entries are an accept or a multishot zero-copy receive of one connection, and a
refill queue through which the consumed buffers go back to the kernel.

* `RefillQueue`, `returnBuffer`   the queue as the 32-bit indices and slots in shared memory;
* `onAccept`, `onRx`              the branches of the server's loop;
* `onClientRx`                    the body of the client's loop;
* `step`, `clientStep`            one action of each loop.

The result of `io_uring_get_sqe` is not checked here: a refused entry (`IoRing.nulls`) stands for a write
through a null pointer.  The `buffer` of a completion is the offset in the second half of its entry.
-/

namespace UringPerf
namespace Zcrx
open Uring

/-! ## the refill queue -/

structure Rqe where
  off : UInt64
  len : Int
deriving DecidableEq, Repr

structure RefillQueue where
  khead : UInt32
  ktail : UInt32
  rqTail : UInt32
  ringEntries : UInt32
  areaToken : UInt64
  rqes : UInt32 → Rqe

/-- the low bits of an offset, below the number of the area -/
def areaOffset (off : UInt64) : UInt64 := off &&& 0xFFFFFFFFFFFF

namespace RefillQueue

/-- `zcrx_rq_nr_queued` -/
def nrQueued (q : RefillQueue) : UInt32 := q.rqTail - q.khead

/-- `zcrx_return_buffer`: a full queue drops the buffer -/
def returnBuffer (q : RefillQueue) (off : UInt64) (len : Int) : RefillQueue :=
  if q.nrQueued = q.ringEntries then q
  else
    { q with
      rqes := Function.update q.rqes (q.rqTail &&& (q.ringEntries - 1))
        ⟨areaOffset off ||| q.areaToken, len⟩
      rqTail := q.rqTail + 1
      ktail := q.rqTail + 1 }

end RefillQueue

/-! ## the server -/

/-- an entry; a receive carries the address of its connection -/
inductive Op where
  | accept
  | recv (conn : Conn)
deriving DecidableEq, Repr

/-- `io_uring_prep_accept`, or `io_uring_prep_rw` with `IORING_OP_RECV_ZC` -/
def Op.opcode : Op → Opcode
  | .accept => .accept
  | .recv _ => .recvZc

def Op.kind (o : Op) : Kind := o.opcode.kind

/-- the connection an entry was submitted for -/
def Op.conn : Op → Option Conn
  | .accept => none
  | .recv conn => some conn

inductive Pc where
  | head
  | batch
  | exit
  | done
deriving DecidableEq, Repr

structure St where
  ring : IoRing Op
  conns : AList fun _ : Int => Conn
  stats : ThreadStats
  rq : RefillQueue
  closed : List Conn
  stop : Bool
  pc : Pc
  gen : Int → Nat
  isOpen : Int → Bool

def St.queue (s : St) (o : Op) : St := { s with ring := (s.ring.push o).2 }

/-- the termination is recoverable -/
def isStarved (res : Int) : Bool := res == -ENOSPC || res == -ENOMEM

def errorIfNeg (stats : ThreadStats) (res : Int) : ThreadStats :=
  if res < 0 then stats.addError else stats

/-- count a chunk as data and as a zero-copy operation -/
def countChunk (stats : ThreadStats) (res : Int) : ThreadStats :=
  (stats.addBytes res.toNat 1).addZcNotification

def offset (c : Completion) : UInt64 := UInt64.ofNat (c.buffer.getD 0)

/-- every accepted connection is received from; nothing is read from it before -/
def St.openConn (s : St) (fd : Int) : St :=
  let conn : Conn := ⟨fd, s.gen fd⟩
  { s.queue (.recv conn) with conns := s.conns.insert fd conn }

def onAccept (s : St) (res : Int) : St :=
  let s := if 0 ≤ res then s.openConn res else s
  if s.stop then s else s.queue .accept

def St.closeFd (s : St) (fd : Int) : St :=
  { s with isOpen := Function.update s.isOpen fd false, closed := s.closed ++ [⟨fd, s.gen fd⟩] }

def onRx (s : St) (conn : Conn) (c : Completion) : St :=
  if c.more = false then
    if isStarved c.res then s.queue (.recv conn)
    else
      let s := { s with stats := errorIfNeg s.stats c.res }
      match s.conns.lookup conn.fd with
      | none => s
      | some _ => { s.closeFd conn.fd with conns := s.conns.erase conn.fd }
  else if 0 < c.res then
    { s with stats := countChunk s.stats c.res, rq := s.rq.returnBuffer (offset c) c.res }
  else s

def onCqe (s : St) (c : Cqe Op) : St :=
  match c.op with
  | .accept => onAccept s c.res
  | .recv conn => onRx s conn c.toCompletion

inductive Act where
  | wait
  | abort
  | cqe
  | advance
  | finish
  | signal
  | post (i : Nat) (c : Completion)
  | refill
deriving DecidableEq, Repr

/-- the kernel completes its `i`-th operation; a successful accept opens a number that is not open -/
def kernelPost (listenFd : Int) (s : St) (i : Nat) (c : Completion) : Option St :=
  match s.ring.kern[i]?, s.ring.post Op.kind i c with
  | some p, some r =>
    if p.op = .accept ∧ 0 ≤ c.res then
      if s.isOpen c.res = false ∧ c.res ≠ listenFd then
        some { s with
          ring := r
          gen := Function.update s.gen c.res (s.gen c.res + 1)
          isOpen := Function.update s.isOpen c.res true }
      else none
    else some { s with ring := r }
  | _, _ => none

/-- the loop over the completions goes on until none is left, also over those posted meanwhile; `abort`
is a failed wait, `refill` the kernel taking an entry of the refill queue -/
def step (listenFd : Int) (s : St) : Act → Option St
  | .wait =>
    if s.pc = .head ∧ s.stop = false then some { s with ring := s.ring.submit, pc := .batch } else none
  | .abort => if s.pc = .head ∧ s.stop = false then some { s with pc := .exit } else none
  | .cqe =>
    match s.pc, s.ring.cq with
    | .batch, c :: _ =>
      let t := onCqe s c
      some { t with ring := t.ring.seen }
    | _, _ => none
  | .advance => if s.pc = .batch ∧ s.ring.cq = [] then some { s with pc := .head } else none
  | .finish =>
    if (s.pc = .head ∧ s.stop = true) ∨ s.pc = .exit then
      some { s.conns.entries.foldl (fun s e => s.closeFd e.1) s with pc := .done }
    else none
  | .signal => if s.pc = .done then none else some { s with stop := true }
  | .post i c => if s.pc = .done then none else kernelPost listenFd s i c
  | .refill =>
    if s.pc = .done ∨ s.rq.khead = s.rq.ktail then none
    else some { s with rq := { s.rq with khead := s.rq.khead + 1 } }

def blank (cap : Nat) (rq : RefillQueue) : St where
  ring := IoRing.init cap false
  conns := ∅
  stats := ThreadStats.zero
  rq := rq
  closed := []
  stop := false
  pc := .head
  gen := fun _ => 0
  isOpen := fun _ => false

/-- one accept, submitted -/
def start (cap : Nat) (rq : RefillQueue) : St :=
  let s := (blank cap rq).queue .accept
  { s with ring := s.ring.submit }

/-! ## the client -/

structure ClientSt where
  ring : IoRing Op
  stats : ThreadStats
  rq : RefillQueue
  peerClosed : Bool
  stop : Bool
  pc : Pc

def onClientRx (s : ClientSt) (conn : Conn) (c : Completion) : ClientSt :=
  if c.more = false then
    if isStarved c.res then { s with ring := (s.ring.push (.recv conn)).2 }
    else { s with stats := errorIfNeg s.stats c.res, peerClosed := true }
  else if 0 < c.res then
    { s with stats := countChunk s.stats c.res, rq := s.rq.returnBuffer (offset c) c.res }
  else s

/-- all completions of the client's ring are of its one connection -/
def clientStep (conn : Conn) (s : ClientSt) : Act → Option ClientSt
  | .wait =>
    if s.pc = .head ∧ s.stop = false ∧ s.peerClosed = false then
      some { s with ring := s.ring.submit, pc := .batch }
    else none
  | .abort =>
    if s.pc = .head ∧ s.stop = false ∧ s.peerClosed = false then some { s with pc := .exit } else none
  | .cqe =>
    match s.pc, s.ring.cq with
    | .batch, c :: _ =>
      let t := onClientRx s conn c.toCompletion
      some { t with ring := t.ring.seen }
    | _, _ => none
  | .advance => if s.pc = .batch ∧ s.ring.cq = [] then some { s with pc := .head } else none
  | .finish =>
    if (s.pc = .head ∧ (s.stop = true ∨ s.peerClosed = true)) ∨ s.pc = .exit then
      some { s with pc := .done }
    else none
  | .signal => if s.pc = .done then none else some { s with stop := true }
  | .post i c =>
    if s.pc = .done then none else (s.ring.post Op.kind i c).map fun r => { s with ring := r }
  | .refill =>
    if s.pc = .done ∨ s.rq.khead = s.rq.ktail then none
    else some { s with rq := { s.rq with khead := s.rq.khead + 1 } }

def clientStart (cap : Nat) (rq : RefillQueue) (conn : Conn) : ClientSt where
  ring := ((IoRing.init cap false).push (.recv conn)).2.submit
  stats := ThreadStats.zero
  rq := rq
  peerClosed := false
  stop := false
  pc := .head

end Zcrx
end UringPerf
