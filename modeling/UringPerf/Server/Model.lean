import UringPerf.Base.Table
import UringPerf.Config.Args
import UringPerf.Engine.Prep
import UringPerf.Stats.Counters

/-!
# The server loop

`Worker::run_server` of `src/worker.cpp` as a step function on an explicit state.  The worker's
actions are the pieces of its loop: the deadline sweep, reaping a batch, one completion of the
batch, the submit after it, and the cleanup after the loop.  Between any two of them the kernel may
complete any operation it holds (`post`), a polling kernel may take a queued entry (`consume`), and
the stop signal may be set (`signal`).

* `Setup`        what is fixed before the loop: the configuration, the listening socket, and the
                 kernel's answers to the optional features;
* `St`           the state; `gen`, `isOpen` are the kernel's side of the accepted descriptors,
                 `closed`, `accepted`, `freed` record what has been closed, accepted and released;
* `onAccept`, `onSend`, `onRecvMultishot`, `onRecv`   the branches of the completion dispatch;
* `step`         one action; the clock readings and the handshake result are part of the action.
-/

namespace UringPerf
namespace Server
open Uring

/-- nanoseconds of the monotonic clock in one second -/
def second : Nat := 10^9

/-! ## the state -/

structure ClientSession where
  clientFd : Int
  isReverse : Bool
  deadline : Nat
  buffers : List Ptr
  contexts : List IOContext
  msCtx : Option IOContext
  conn : Conn
deriving DecidableEq

abbrev Sessions := AList fun _ : Int => ClientSession

structure Setup where
  config : Config
  threadId : Nat
  listenFd : Int
  reg : Registered
  pool : RecvPool
  bufRingOk : Bool
  filesOk : Bool
  sqpollOk : Bool

namespace Setup
variable (L : Setup)

def useMultishot : Bool := L.config.multishotRecv && L.bufRingOk

def udpFixedFile : Bool := L.config.protocol == .udp && L.config.fixedFiles && L.filesOk

def udpRecvFd : Int := if L.udpFixedFile then 0 else L.listenFd

def sqpoll : Bool := L.config.sqpoll && L.sqpollOk

def acceptCtx : IOContext := ⟨⟨.acceptCtx, 0⟩, .accept, L.listenFd, 0, none, 0, 0⟩

def udpMsCtx : IOContext := ⟨⟨.msCtx, 0⟩, .recv, L.udpRecvFd, 0, none, 0, L.threadId⟩

/-- the `i`-th context of the UDP receiver pool -/
def poolCtx (i : Nat) : IOContext :=
  ⟨⟨.pool, i⟩, .recv, L.udpRecvFd, i, some ⟨.pool, i⟩, L.config.bufSize, L.threadId⟩

/-- the `b`-th send or receive context of a session -/
def sessionCtx (type : IOType) (conn : Conn) (b : Nat) : IOContext :=
  ⟨⟨.session conn, b⟩, type, conn.fd, b, some ⟨.session conn, b⟩, L.config.bufSize, L.threadId⟩

def msCtx (conn : Conn) : IOContext := ⟨⟨.session conn, 0⟩, .recv, conn.fd, 0, none, 0, L.threadId⟩

def sessionBuffers (conn : Conn) : List Ptr := (List.range L.config.inFlight).map (⟨.session conn, ·⟩)

def sessionCtxs (type : IOType) (conn : Conn) : List IOContext :=
  (List.range L.config.inFlight).map (L.sessionCtx type conn)

end Setup

/-- where the worker is; `batch n`: `n` reaped completions are still to be processed -/
inductive Pc where
  | head
  | reap
  | batch (left : Nat)
  | done
deriving DecidableEq, Repr

structure St where
  engine : UringEngine
  sessions : Sessions
  stats : ThreadStats
  freed : List Ptr
  closed : List Conn
  accepted : List Conn
  stop : Bool
  pc : Pc
  gen : Int → Nat
  isOpen : Int → Bool

def St.ring (s : St) : IoRing Sqe := s.engine.ring

/-! ## the branches of the dispatch -/

section
variable (L : Setup)

/-- `close(fd)` of an accepted descriptor -/
def St.closeFd (s : St) (fd : Int) : St :=
  { s with isOpen := Function.update s.isOpen fd false, closed := s.closed ++ [Conn.mk fd (s.gen fd)] }

def St.freeBuffers (s : St) (bufs : List Ptr) : St := { s with freed := s.freed ++ bufs }

def St.erase (s : St) (fd : Int) : St := { s with sessions := s.sessions.erase fd }

def St.addBytes (s : St) (bytes : Int) (packets : Nat) : St :=
  { s with stats := s.stats.addBytes bytes.toNat packets }

def St.addError (s : St) : St := { s with stats := s.stats.addError }

/-- `if (cqe->res < 0) stats_.add_error(..)` -/
def St.errorIfNeg (s : St) (res : Int) : St := if res < 0 then s.addError else s

/-- the session of a connection that has passed the handshake: its operations are queued and it is
entered under its descriptor -/
def St.openSession (s : St) (now : Nat) (fd : Int) (reverse : Bool) (peerDuration : Nat) : St :=
  let conn : Conn := ⟨fd, s.gen fd⟩
  if reverse then
    let ctxs := L.sessionCtxs .send conn
    { s with
      engine := ctxs.foldl (fun e ctx => (e.prepSend L.config.zeroCopy ctx false).2) s.engine
      sessions := s.sessions.insert fd
        ⟨fd, true, now + peerDuration * second, L.sessionBuffers conn, ctxs, none, conn⟩ }
  else if L.useMultishot then
    let ctx := L.msCtx conn
    { s with
      engine := (s.engine.prepRecvMultishot fd ctx false).2
      sessions := s.sessions.insert fd ⟨fd, false, 0, [], [], some ctx, conn⟩ }
  else
    let ctxs := L.sessionCtxs .recv conn
    { s with
      engine := ctxs.foldl
        (fun e ctx => (e.prepRecv fd ctx.bufPtr ctx.length ctx.bufIdx ctx false).2) s.engine
      sessions := s.sessions.insert fd ⟨fd, false, 0, L.sessionBuffers conn, ctxs, none, conn⟩ }

/-- the outcome of the handshake, `hs` being what `recv_handshake` returned: nothing, or the direction
and the peer's duration; without TCP there is no handshake and the connection receives -/
def handshake (hs : Option (Bool × Nat)) : Option (Bool × Nat) :=
  if L.config.protocol = .tcp then hs else some (false, L.config.durationSec)

def St.noteAccepted (s : St) (fd : Int) : St :=
  { s with accepted := s.accepted ++ [Conn.mk fd (s.gen fd)] }

/-- a descriptor returned by accept gets a session, or is closed if the handshake failed -/
def onConnect (now : Nat) (hs : Option (Bool × Nat)) (s : St) (fd : Int) : St :=
  match handshake L hs with
  | none => (s.noteAccepted fd).closeFd fd
  | some h => (s.noteAccepted fd).openSession L now fd h.1 h.2

def St.prepAccept (s : St) : St :=
  { s with engine := (s.engine.prepAccept L.listenFd L.acceptCtx).2 }

def onAccept (now : Nat) (hs : Option (Bool × Nat)) (s : St) (res : Int) : St :=
  if 0 ≤ res then (onConnect L now hs s res).prepAccept L else s.prepAccept L

def keepSending (now : Nat) (s : St) (ctx : IOContext) : Bool :=
  match s.sessions.lookup ctx.fd with
  | none => false
  | some ss => decide (now < ss.deadline) && !s.stop

def St.resend (s : St) (ctx : IOContext) : St :=
  { s with engine := (s.engine.prepSend L.config.zeroCopy ctx false).2 }

def onSend (now : Nat) (s : St) (ctx : IOContext) (c : Completion) : St :=
  if c.notif then { s with stats := s.stats.addZcNotification }
  else if 0 < c.res then
    if keepSending now s ctx then (s.addBytes c.res 1).resend L ctx else s.addBytes c.res 1
  else if isAgain c.res then
    if keepSending now s ctx then s.resend L ctx else s
  else s.errorIfNeg c.res

/-- GRO may have merged several datagrams into one completion -/
def recvPackets (res : Int) : Nat :=
  if L.config.protocol = .udp then max 1 (res.toNat / L.config.udpGsoSize) else 1

def St.rearm (s : St) (ctx : IOContext) : St :=
  { s with engine := (s.engine.prepRecvMultishot ctx.fd ctx L.udpFixedFile).2 }

/-- count a received chunk and give its buffer back to the ring -/
def St.takeBuffer (s : St) (c : Completion) : St :=
  match c.buffer with
  | none => s
  | some id =>
    if 0 < c.res then
      let s := s.addBytes c.res (recvPackets L c.res)
      { s with engine := s.engine.returnRecvBuffer (id % 2^16) }
    else s

def onRecvMultishot (s : St) (ctx : IOContext) (c : Completion) : St :=
  let s := s.takeBuffer L c
  if c.more then s
  else if c.res = -ENOBUFS then s.rearm L ctx
  else if L.config.protocol = .udp then
    if s.stop then s.errorIfNeg c.res else (s.errorIfNeg c.res).rearm L ctx
  else
    match s.sessions.lookup ctx.fd with
    | none => s.errorIfNeg c.res
    | some _ => ((s.errorIfNeg c.res).closeFd ctx.fd).erase ctx.fd

def St.rerecv (s : St) (ctx : IOContext) : St :=
  { s with
    engine := (s.engine.prepRecv ctx.fd ctx.bufPtr ctx.length ctx.bufIdx ctx L.udpFixedFile).2 }

def onRecv (s : St) (ctx : IOContext) (c : Completion) : St :=
  if 0 < c.res then (s.addBytes c.res (recvPackets L c.res)).rerecv L ctx
  else if isAgain c.res then s.rerecv L ctx
  else
    match s.sessions.lookup ctx.fd with
    | none => s.errorIfNeg c.res
    | some ss =>
      (((s.errorIfNeg c.res).closeFd ctx.fd).freeBuffers ss.buffers).erase ctx.fd

/-- the body of the batch loop, before `cqe_seen` -/
def onCqe (now : Nat) (hs : Option (Bool × Nat)) (s : St) (c : Cqe Sqe) : St :=
  match c.op.userData.type with
  | .accept => onAccept L now hs s c.res
  | .send => onSend L now s c.op.userData c.toCompletion
  | .recv =>
    if L.useMultishot then onRecvMultishot L s c.op.userData c.toCompletion
    else onRecv L s c.op.userData c.toCompletion
  | .timer => s

/-! ## the loop -/

def expired (now : Nat) (ss : ClientSession) : Bool := ss.isReverse && decide (ss.deadline ≤ now)

def sweepOne (now : Nat) (s : St) (fd : Int) (ss : ClientSession) : St :=
  if expired now ss then ((s.closeFd fd).freeBuffers ss.buffers).erase fd else s

/-- the deadline sweep: the loop over the table erases while it iterates -/
def sweep (now : Nat) (s : St) : St :=
  s.sessions.entries.foldl (fun s e => sweepOne now s e.1 e.2) s

/-- after the loop: every session's descriptor is closed and its buffers are released -/
def cleanup (s : St) : St :=
  s.sessions.entries.foldl (fun s e => (s.closeFd e.1).freeBuffers e.2.buffers) s

inductive Act where
  | sweep (now : Nat)
  | reap
  | cqe (now : Nat) (hs : Option (Bool × Nat))
  | submit
  | finish
  | signal
  | post (i : Nat) (c : Completion)
  | consume
deriving DecidableEq, Repr

def St.withRing (s : St) (r : IoRing Sqe) : St := { s with engine := { s.engine with ring := r } }

/-- the kernel completes its `i`-th operation; an accept that succeeds opens a descriptor number that
is not open -/
def kernelPost (s : St) (i : Nat) (c : Completion) : Option St :=
  match s.ring.kern[i]?, s.ring.post Sqe.kind i c with
  | some p, some r =>
    if p.op.opcode = .accept ∧ 0 ≤ c.res then
      if s.isOpen c.res = false ∧ c.res ≠ L.listenFd then
        some { s.withRing r with
          gen := Function.update s.gen c.res (s.gen c.res + 1)
          isOpen := Function.update s.isOpen c.res true }
      else none
    else some (s.withRing r)
  | _, _ => none

/-- how many completions `reap_completions` hands out -/
def reaped (s : St) : Nat := min L.config.inFlight s.ring.cq.length

def step (s : St) : Act → Option St
  | .sweep now =>
    if s.pc = .head ∧ s.stop = false then some { sweep now s with pc := .reap } else none
  | .reap =>
    if s.pc = .reap then
      if reaped L s = 0 then some { s with engine := s.engine.submit, pc := .head }
      else some { s with pc := .batch (reaped L s) }
    else none
  | .cqe now hs =>
    match s.pc, s.ring.cq with
    | .batch (n+1), c :: _ =>
      let t := onCqe L now hs s c
      some { t with engine := t.engine.cqeSeen, pc := .batch n }
    | _, _ => none
  | .submit =>
    if s.pc = .batch 0 then some { s with engine := s.engine.submit, pc := .head } else none
  | .finish => if s.pc = .head ∧ s.stop = true then some { cleanup s with pc := .done } else none
  | .signal => if s.pc = .done then none else some { s with stop := true }
  | .post i c => if s.pc = .done then none else kernelPost L s i c
  | .consume => if s.pc = .done then none else s.ring.consume.map s.withRing

/-! ## the state before the loop -/

def emptyEngine (cap : Nat) : UringEngine := ⟨IoRing.init cap L.sqpoll, L.reg, L.pool⟩

def blank (cap : Nat) : St where
  engine := emptyEngine L cap
  sessions := ∅
  stats := ThreadStats.zero
  freed := []
  closed := []
  accepted := []
  stop := false
  pc := .head
  gen := fun _ => 0
  isOpen := fun _ => false

/-- the engine before the first submit: one accept, or the receives of the UDP socket -/
def primed (cap : Nat) : UringEngine :=
  let e := emptyEngine L cap
  match L.config.protocol with
  | .tcp => (e.prepAccept L.listenFd L.acceptCtx).2
  | .udp =>
    if L.useMultishot then (e.prepRecvMultishot L.udpRecvFd L.udpMsCtx L.udpFixedFile).2
    else (List.range L.config.inFlight).foldl (fun e i => (e.prepRecv L.udpRecvFd (some ⟨.pool, i⟩)
      L.config.bufSize i (L.poolCtx i) L.udpFixedFile).2) e

/-- the loop is entered with a submission queue of `cap` entries -/
def start (cap : Nat) : St := { blank L cap with engine := (primed L cap).submit }

/-- a worker on the listening descriptor 3, where the kernel grants every feature the configuration
asks for -/
def worker (config : Config) : Setup where
  config := config
  threadId := 0
  listenFd := 3
  reg := ⟨false, config.fixedFiles && config.protocol == .udp, true⟩
  pool := setupMultishotRecv 0 (UInt32.ofNat config.inFlight) config.bufSize 0
  bufRingOk := true
  filesOk := true
  sqpollOk := true

def defaultSetup : Setup := worker { mode := .server }

end
end Server
end UringPerf
