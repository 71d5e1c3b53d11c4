import UringPerf.Base.Ledger
import UringPerf.Base.Relabel
import UringPerf.Base.Run
import UringPerf.Zcrx.Model

/-!
# The zero-copy server with its packed pointers

`run_server_zcrx` again, with the `user_data` of every entry: the tag of an accept, or the address of a `ZcrxConn`
with the tag of a receive in its low bits.  A completion is dispatched on the tag, and the address is
dereferenced.

* `Sqe`, `ZcrxConn`, `St`   an entry with its `user_data`, an object on the heap, the state;
* `deref`                   the live objects are those that the table owns;
* `onAccept`, `onRx`        the branches of the loop as they decode `user_data`;
* `step`                    one action, given the address that an allocation returns;
* `tag_rx`, `addr_rx`       an aligned address is recovered from its packed form.
-/

namespace UringPerf
namespace Zcrx
namespace Packed
open Uring

def kZcrxReqTypeMask : UInt64 := 0x7
def kZcrxReqAccept : UInt64 := 1
def kZcrxReqRx : UInt64 := 2

/-- `op` is what the kernel does with the entry -/
structure Sqe where
  op : Op
  userData : UInt64
deriving DecidableEq, Repr

def Sqe.kind (o : Sqe) : Kind := o.op.kind

/-- a `ZcrxConn` and its address -/
structure ZcrxConn where
  addr : UInt64
  fd : Int
deriving DecidableEq, Repr

/-- `accepted` and `closed` record what has been accepted and closed; `fault`: an address was dereferenced that
is not the address of a live object -/
structure St where
  ring : IoRing Sqe
  conns : AList fun _ : Int => ZcrxConn
  stats : ThreadStats
  rq : RefillQueue
  accepted : List Conn
  closed : List Conn
  fault : Bool
  stop : Bool
  pc : Pc
  gen : Int → Nat
  isOpen : Int → Bool

/-- the objects are owned by the table -/
def St.deref (p : St) (addr : UInt64) : Option ZcrxConn :=
  (p.conns.entries.find? fun e => e.2.addr == addr).map (·.2)

def acceptSqe : Sqe := ⟨.accept, kZcrxReqAccept⟩

/-- the receive is on the connection that has the descriptor now -/
def rxSqe (gen : Int → Nat) (conn : ZcrxConn) : Sqe :=
  ⟨.recv ⟨conn.fd, gen conn.fd⟩, conn.addr ||| kZcrxReqRx⟩

/-- `zcrx_submit_accept` -/
def submitAccept (p : St) : St := { p with ring := (p.ring.push acceptSqe).2 }

/-- `zcrx_submit_recv` -/
def submitRecv (p : St) (conn : ZcrxConn) : St := { p with ring := (p.ring.push (rxSqe p.gen conn)).2 }

def openConn (p : St) (conn : ZcrxConn) : St :=
  { submitRecv p conn with
    conns := p.conns.insert conn.fd conn
    accepted := p.accepted ++ [⟨conn.fd, p.gen conn.fd⟩] }

def onAccept (p : St) (addr : UInt64) (clientFd : Int) : St :=
  let p := if 0 ≤ clientFd then openConn p ⟨addr, clientFd⟩ else p
  if p.stop then p else submitAccept p

def St.closeFd (p : St) (fd : Int) : St :=
  { p with isOpen := Function.update p.isOpen fd false, closed := p.closed ++ [⟨fd, p.gen fd⟩] }

/-- both terminations read `conn->fd` -/
def onRx (p : St) (userData : UInt64) (c : Completion) : St :=
  if c.more = false then
    match p.deref (userData &&& ~~~kZcrxReqTypeMask) with
    | none => { p with fault := true }
    | some conn =>
      if isStarved c.res then submitRecv p conn
      else
        let p := { p with stats := errorIfNeg p.stats c.res }
        match p.conns.lookup conn.fd with
        | none => p
        | some _ => { p.closeFd conn.fd with conns := p.conns.erase conn.fd }
  else if 0 < c.res then
    { p with stats := countChunk p.stats c.res, rq := p.rq.returnBuffer (offset c) c.res }
  else p

def onCqe (p : St) (addr : UInt64) (c : Cqe Sqe) : St :=
  let tag := c.op.userData &&& kZcrxReqTypeMask
  if tag = kZcrxReqAccept then onAccept p addr c.res
  else if tag = kZcrxReqRx then onRx p c.op.userData c.toCompletion
  else p

def kernelPost (listenFd : Int) (p : St) (i : Nat) (c : Completion) : Option St :=
  match p.ring.kern[i]?, p.ring.post Sqe.kind i c with
  | some q, some r =>
    if q.op.op = .accept ∧ 0 ≤ c.res then
      if p.isOpen c.res = false ∧ c.res ≠ listenFd then
        some { p with
          ring := r
          gen := Function.update p.gen c.res (p.gen c.res + 1)
          isOpen := Function.update p.isOpen c.res true }
      else none
    else some { p with ring := r }
  | _, _ => none

/-- an allocation returns an aligned address that no live object has -/
def fresh (p : St) (addr : UInt64) : Prop :=
  addr &&& kZcrxReqTypeMask = 0 ∧ p.conns.entries.all (fun e => e.2.addr != addr) = true

instance (p : St) (addr : UInt64) : Decidable (fresh p addr) :=
  inferInstanceAs (Decidable (_ ∧ _))

/-- the completion for which the loop allocates a `ZcrxConn` -/
def allocates (c : Cqe Sqe) : Bool :=
  c.op.userData &&& kZcrxReqTypeMask == kZcrxReqAccept && decide (0 ≤ c.res)

/-- one action of the loop or of the kernel; `addr` is returned by the allocation, if there is one -/
def step (listenFd : Int) (p : St) : Act × UInt64 → Option St
  | (.wait, _) =>
    if p.pc = .head ∧ p.stop = false then some { p with ring := p.ring.submit, pc := .batch } else none
  | (.abort, _) => if p.pc = .head ∧ p.stop = false then some { p with pc := .exit } else none
  | (.cqe, addr) =>
    match p.pc, p.ring.cq with
    | .batch, c :: _ =>
      if allocates c = true → fresh p addr then
        let t := onCqe p addr c
        some { t with ring := t.ring.seen }
      else none
    | _, _ => none
  | (.advance, _) => if p.pc = .batch ∧ p.ring.cq = [] then some { p with pc := .head } else none
  | (.finish, _) =>
    if (p.pc = .head ∧ p.stop = true) ∨ p.pc = .exit then
      some { p.conns.entries.foldl (fun p e => p.closeFd e.1) p with pc := .done }
    else none
  | (.signal, _) => if p.pc = .done then none else some { p with stop := true }
  | (.post i c, _) => if p.pc = .done then none else kernelPost listenFd p i c
  | (.refill, _) =>
    if p.pc = .done ∨ p.rq.khead = p.rq.ktail then none
    else some { p with rq := { p.rq with khead := p.rq.khead + 1 } }

def blank (cap : Nat) (rq : RefillQueue) : St where
  ring := IoRing.init cap false
  conns := ∅
  stats := ThreadStats.zero
  rq := rq
  accepted := []
  closed := []
  fault := false
  stop := false
  pc := .head
  gen := fun _ => 0
  isOpen := fun _ => false

def start (cap : Nat) (rq : RefillQueue) : St :=
  let p := submitAccept (blank cap rq)
  { p with ring := p.ring.submit }

/-! ## packing -/

theorem or_and (a b c : UInt64) : (a ||| b) &&& c = (a &&& c) ||| (b &&& c) := by
  apply UInt64.toNat_inj.mp
  rw [UInt64.toNat_and, UInt64.toNat_or, UInt64.toNat_or, UInt64.toNat_and, UInt64.toNat_and,
    Nat.and_or_distrib_right]

theorem tag_rx {addr : UInt64} (h : addr &&& kZcrxReqTypeMask = 0) :
    (addr ||| kZcrxReqRx) &&& kZcrxReqTypeMask = kZcrxReqRx := by
  rw [or_and, h]
  decide

theorem addr_rx {addr : UInt64} (h : addr &&& kZcrxReqTypeMask = 0) :
    (addr ||| kZcrxReqRx) &&& ~~~kZcrxReqTypeMask = addr := by
  have h2 : kZcrxReqRx &&& ~~~kZcrxReqTypeMask = 0 := by decide
  have h1 : addr &&& ~~~kZcrxReqTypeMask = addr := by
    have e : (kZcrxReqTypeMask ||| ~~~kZcrxReqTypeMask) &&& addr = addr := by
      have hall : kZcrxReqTypeMask ||| ~~~kZcrxReqTypeMask = -1 := by decide
      rw [hall, UInt64.and_comm, UInt64.and_neg_one]
    rwa [or_and, UInt64.and_comm, h, UInt64.zero_or, UInt64.and_comm] at e
  rw [or_and, h1, h2, UInt64.or_zero]

theorem tag_accept : acceptSqe.userData &&& kZcrxReqTypeMask = kZcrxReqAccept := by decide

theorem rx_ne_accept : kZcrxReqRx ≠ kZcrxReqAccept := by decide

end Packed
end Zcrx
end UringPerf
