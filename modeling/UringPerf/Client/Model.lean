import UringPerf.Config.Args
import UringPerf.Engine.Prep
import UringPerf.Stats.Counters

/-!
# The loops of a client worker

`Worker::run_client` (the send loop) and `Worker::run_client_reverse_recv` of `src/worker.cpp`.  Both
are `while` loops over batches of completions on one connected socket, so they share the state and
the step function; they differ in how the ring is filled before the loop and in what a completion
does.

* `Setup`                       what is fixed before the loop;
* `sendCtx`, `recvCtx`, `msCtx` the contexts of the pools;
* `onSend`                      a completion of the send loop;
* `onRecvMultishot`, `onRecv`   a completion of the receive loop;
* `step handle`                 one action of a loop whose completions are processed by `handle`.
-/

namespace UringPerf
namespace Client
open Uring

structure Setup where
  config : Config
  threadId : Nat
  sockfd : Int
  filesOk : Bool
  buffersOk : Bool
  zcSupported : Bool
  pool : RecvPool
  bufRingOk : Bool
  sqpollOk : Bool

inductive Pc where
  | head
  | batch (left : Nat)
  | done
deriving DecidableEq, Repr

structure St where
  engine : UringEngine
  stats : ThreadStats
  peerClosed : Bool
  freed : List Ptr
  stop : Bool
  pc : Pc

def St.ring (s : St) : IoRing Sqe := s.engine.ring

def St.addBytes (s : St) (bytes : Int) (packets : Nat) : St :=
  { s with stats := s.stats.addBytes bytes.toNat packets }

def St.addError (s : St) : St := { s with stats := s.stats.addError }

/-- `if (cqe->res < 0) stats_.add_error(..)` -/
def St.errorIfNeg (s : St) (res : Int) : St := if res < 0 then s.addError else s

section
variable (L : Setup)

def Setup.sqpoll : Bool := L.config.sqpoll && L.sqpollOk

/-! ## the send loop -/

def Setup.useFixedFile : Bool := L.config.fixedFiles && L.filesOk

/-- with a registered file the sends name its index -/
def Setup.sendFd : Int := if L.useFixedFile then 0 else L.sockfd

/-- `register_buffers` refuses an empty pool -/
def Setup.sendReg : Registered :=
  ⟨L.config.fixedBuffers && decide (0 < L.config.inFlight) && L.buffersOk, L.useFixedFile,
    L.zcSupported⟩

def Setup.sendCtx (i : Nat) : IOContext :=
  ⟨⟨.pool, i⟩, .send, L.sendFd, i, some ⟨.pool, i⟩, L.config.bufSize, L.threadId⟩

def Setup.sendCtxs : List IOContext := (List.range L.config.inFlight).map L.sendCtx

def St.prepSend (s : St) (ctx : IOContext) : St :=
  { s with engine := (s.engine.prepSend L.config.zeroCopy ctx L.useFixedFile).2 }

/-- GSO may have sent several datagrams with one completion -/
def sendPackets (res : Int) : Nat :=
  if L.config.protocol = .udp then max 1 (res.toNat / L.config.udpGsoSize) else 1

def onSend (s : St) (ctx : IOContext) (c : Completion) : St :=
  if c.notif then { s with stats := s.stats.addZcNotification }
  else if 0 < c.res then
    if s.stop then s.addBytes c.res (sendPackets L c.res)
    else (s.addBytes c.res (sendPackets L c.res)).prepSend L ctx
  else if isAgain c.res then
    if s.stop then s else s.prepSend L ctx
  else s.errorIfNeg c.res

/-! ## the receive loop -/

def Setup.useMultishot : Bool := L.config.multishotRecv && L.bufRingOk

def Setup.recvReg : Registered := ⟨false, false, L.zcSupported⟩

def Setup.msCtx : IOContext := ⟨⟨.msCtx, 0⟩, .recv, L.sockfd, 0, none, 0, L.threadId⟩

def Setup.recvCtx (i : Nat) : IOContext :=
  ⟨⟨.pool, i⟩, .recv, L.sockfd, i, some ⟨.pool, i⟩, L.config.bufSize, L.threadId⟩

def Setup.recvCtxs : List IOContext := (List.range L.config.inFlight).map L.recvCtx

def St.rearm (s : St) (ctx : IOContext) : St :=
  { s with engine := (s.engine.prepRecvMultishot L.sockfd ctx false).2 }

/-- count a received chunk and give its buffer back to the ring -/
def St.takeBuffer (s : St) (c : Completion) : St :=
  match c.buffer with
  | none => s
  | some id =>
    if 0 < c.res then
      let s := s.addBytes c.res 1
      { s with engine := s.engine.returnRecvBuffer (id % 2^16) }
    else s

def onRecvMultishot (s : St) (ctx : IOContext) (c : Completion) : St :=
  let s := s.takeBuffer c
  if c.more then s
  else if c.res = -ENOBUFS then s.rearm L ctx
  else { s.errorIfNeg c.res with peerClosed := true }

def St.rerecv (s : St) (ctx : IOContext) : St :=
  { s with
    engine := (s.engine.prepRecv L.sockfd ctx.bufPtr ctx.length ctx.bufIdx ctx false).2 }

def onRecv (s : St) (ctx : IOContext) (c : Completion) : St :=
  if 0 < c.res then
    if s.stop then s.addBytes c.res 1 else (s.addBytes c.res 1).rerecv L ctx
  else if isAgain c.res then
    if s.stop then s else s.rerecv L ctx
  else { s.errorIfNeg c.res with peerClosed := true }

/-! ## the loops -/

def sendCqe (s : St) (c : Cqe Sqe) : St := onSend L s c.op.userData c.toCompletion

def recvCqe (s : St) (c : Cqe Sqe) : St :=
  if L.useMultishot then onRecvMultishot L s c.op.userData c.toCompletion
  else onRecv L s c.op.userData c.toCompletion

inductive Act where
  | reap
  | cqe
  | submit
  | finish
  | signal
  | post (i : Nat) (c : Completion)
  | consume
deriving DecidableEq, Repr

def St.withRing (s : St) (r : IoRing Sqe) : St := { s with engine := { s.engine with ring := r } }

/-- how many completions `reap_completions` hands out -/
def reaped (s : St) : Nat := min L.config.inFlight s.ring.cq.length

/-- `while (!stop_signal_ && !peer_closed)`; the send loop never sets `peer_closed` -/
def St.running (s : St) : Bool := !s.stop && !s.peerClosed

/-- `bufs` are the buffers released after the loop -/
def step (bufs : List Ptr) (handle : St → Cqe Sqe → St) (s : St) : Act → Option St
  | .reap =>
    if s.pc = .head ∧ s.running = true then
      if reaped L s = 0 then some { s with engine := s.engine.submit }
      else some { s with pc := .batch (reaped L s) }
    else none
  | .cqe =>
    match s.pc, s.ring.cq with
    | .batch (n+1), c :: _ =>
      let t := handle s c
      some { t with engine := t.engine.cqeSeen, pc := .batch n }
    | _, _ => none
  | .submit =>
    if s.pc = .batch 0 then some { s with engine := s.engine.submit, pc := .head } else none
  | .finish =>
    if s.pc = .head ∧ s.running = false then some { s with freed := s.freed ++ bufs, pc := .done }
    else none
  | .signal => if s.pc = .done then none else some { s with stop := true }
  | .post i c => if s.pc = .done then none else (s.ring.post Sqe.kind i c).map s.withRing
  | .consume => if s.pc = .done then none else s.ring.consume.map s.withRing

def blank (reg : Registered) (cap : Nat) : St where
  engine := ⟨IoRing.init cap L.sqpoll, reg, L.pool⟩
  stats := ThreadStats.zero
  peerClosed := false
  freed := []
  stop := false
  pc := .head

def poolBuffers : List Ptr := (List.range L.config.inFlight).map (⟨.pool, ·⟩)

def sendStep : St → Act → Option St := step L (poolBuffers L) (sendCqe L)

/-- one send for each context of the pool, then the first submit -/
def sendStart (cap : Nat) : St :=
  let s := L.sendCtxs.foldl (fun s ctx => s.prepSend L ctx) (blank L L.sendReg cap)
  { s with engine := s.engine.submit }

/-- the multishot receive has no buffers of its own -/
def recvStep : St → Act → Option St :=
  step L (if L.useMultishot then [] else poolBuffers L) (recvCqe L)

def recvStart (cap : Nat) : St :=
  let s := if L.useMultishot then (blank L L.recvReg cap).rearm L L.msCtx
    else L.recvCtxs.foldl (fun s ctx => s.rerecv L ctx) (blank L L.recvReg cap)
  { s with engine := s.engine.submit }

/-- a client worker on the connected descriptor 5, where the kernel grants every feature the
configuration asks for -/
def worker (config : Config) : Setup where
  config := config
  threadId := 0
  sockfd := 5
  filesOk := true
  buffersOk := true
  zcSupported := true
  pool := setupMultishotRecv 0 (UInt32.ofNat config.inFlight) config.bufSize 0
  bufRingOk := true
  sqpollOk := true

def defaultSetup : Setup := worker {}

def reverseSetup : Setup := worker { reverse := true }

end
end Client
end UringPerf
