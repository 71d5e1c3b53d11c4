import UringPerf.Client.Model
import UringPerf.Engine.Consume
import UringPerf.Server.Model
import UringPerf.Zcrx.Packed

/-!
# The five completion loops of a worker

The loops of `src/worker.cpp` over the ring in shared memory.  Every branch of a body is listed with its `cqe_seen`;
what the branches do to the worker's state is in `Client.onSend`, `Server.onAccept` and so on.

* `sendLoop`, `recvLoop`, `serverLoop`      `run_client`, `run_client_reverse_recv` and `run_server`;
* `zcrxLoop`, `zcrxClientLoop`              `run_server_zcrx` and `run_client_reverse_recv_zcrx`;
* `completions_once`                        each of them consumes the completions once and in order.
-/

namespace UringPerf
namespace Worker
open Uring Trans Circular

/-- a slot of the ring; `userData` is null or points to a context -/
structure Entry extends Completion where
  userData : Option IOContext
deriving DecidableEq, Repr

/-! ## loops over batches -/

def sendBody (L : Client.Setup) (c : Entry) : List (Stmt Client.St Entry) :=
  match c.userData with
  | none => [.seen]
  | some ctx =>
    if c.notif then [.use fun s _ => { s with stats := s.stats.addZcNotification }, .seen]
    else [.use fun s c => Client.onSend L s ctx c.toCompletion, .seen]

def sendLoop (L : Client.Setup) : Loop Client.St Entry Unit where
  maxReap := UInt32.ofNat L.config.inFlight
  running s := !s.stop
  prelude _ s := s
  idle s := { s with engine := s.engine.submit }
  body _ _ c := sendBody L c
  flush s := { s with engine := s.engine.submit }

def recvBody (L : Client.Setup) (c : Entry) : List (Stmt Client.St Entry) :=
  match c.userData with
  | none => [.seen]
  | some ctx =>
    if L.useMultishot then [.use fun s c => Client.onRecvMultishot L s ctx c.toCompletion, .seen]
    else [.use fun s c => Client.onRecv L s ctx c.toCompletion, .seen]

def recvLoop (L : Client.Setup) : Loop Client.St Entry Unit where
  maxReap := UInt32.ofNat L.config.inFlight
  running s := s.running
  prelude _ s := s
  idle s := { s with engine := s.engine.submit }
  body _ _ c := recvBody L c
  flush s := { s with engine := s.engine.submit }

/-- `x`: the time, and the outcome of the handshake of an accepted connection -/
def serverBody (L : Server.Setup) (x : Nat × Option (Bool × Nat)) (c : Entry) : List (Stmt Server.St Entry) :=
  match c.userData with
  | none => [.seen]
  | some ctx =>
    match ctx.type with
    | .accept => [.use fun s c => Server.onAccept L x.1 x.2 s c.res, .seen]
    | .send => [.use fun s c => Server.onSend L x.1 s ctx c.toCompletion, .seen]
    | .recv =>
      if L.useMultishot then [.use fun s c => Server.onRecvMultishot L s ctx c.toCompletion, .seen]
      else [.use fun s c => Server.onRecv L s ctx c.toCompletion, .seen]
    | .timer => [.seen]

def serverLoop (L : Server.Setup) : Loop Server.St Entry (Nat × Option (Bool × Nat)) where
  maxReap := UInt32.ofNat L.config.inFlight
  running s := !s.stop
  prelude x s := Server.sweep x.1 s
  idle s := { s with engine := s.engine.submit }
  body x _ c := serverBody L x c
  flush s := { s with engine := s.engine.submit }

theorem sendLoop_releases (L : Client.Setup) : (sendLoop L).Releases := by
  intro _ _ c
  show EndsSeen (sendBody L c)
  unfold sendBody
  split
  · exact ⟨[], rfl⟩
  · split
    · exact ⟨[_], rfl⟩
    · exact ⟨[_], rfl⟩

theorem recvLoop_releases (L : Client.Setup) : (recvLoop L).Releases := by
  intro _ _ c
  show EndsSeen (recvBody L c)
  unfold recvBody
  split
  · exact ⟨[], rfl⟩
  · split
    · exact ⟨[_], rfl⟩
    · exact ⟨[_], rfl⟩

theorem serverLoop_releases (L : Server.Setup) : (serverLoop L).Releases := by
  intro x _ c
  show EndsSeen (serverBody L x c)
  unfold serverBody
  split
  · exact ⟨[], rfl⟩
  · split
    · exact ⟨[_], rfl⟩
    · exact ⟨[_], rfl⟩
    · split
      · exact ⟨[_], rfl⟩
      · exact ⟨[_], rfl⟩
    · exact ⟨[], rfl⟩

/-! ## loops over the ring -/

/-- `x`: whether the wait succeeds, and the address of a new `ZcrxConn` -/
def zcrxLoop : ForEach Zcrx.Packed.St (Cqe Zcrx.Packed.Sqe) (Bool × UInt64) where
  running p := !p.stop
  wait x p := if x.1 then some { p with ring := p.ring.submit } else none
  body x _ _ := [fun p c => Zcrx.Packed.onCqe p x.2 c]

def zcrxClientLoop (conn : Conn) : ForEach Zcrx.ClientSt Completion Bool where
  running s := !s.stop && !s.peerClosed
  wait x s := if x then some { s with ring := s.ring.submit } else none
  body _ _ _ := [fun s c => Zcrx.onClientRx s conn c]

/-- **Completions are consumed exactly once and in order**, by each of the five loops: whatever the size of the ring,
the batch limit, the initial value of the counters and of the slots, and whatever happens between the steps of the
loop. -/
theorem completions_once (mask base : UInt32) (hm : IsMask mask) :
    (∀ (L : Client.Setup) (κ : Type) (outside : κ → Client.St → Option (Client.St × Option Entry)) cqes app s,
      Reach (Batch.step (sendLoop L) outside) (Batch.start mask base cqes app) s → Batch.Once s) ∧
    (∀ (L : Client.Setup) (κ : Type) (outside : κ → Client.St → Option (Client.St × Option Entry)) cqes app s,
      Reach (Batch.step (recvLoop L) outside) (Batch.start mask base cqes app) s → Batch.Once s) ∧
    (∀ (L : Server.Setup) (κ : Type) (outside : κ → Server.St → Option (Server.St × Option Entry)) cqes app s,
      Reach (Batch.step (serverLoop L) outside) (Batch.start mask base cqes app) s → Batch.Once s) ∧
    (∀ (κ : Type) (outside : κ → Zcrx.Packed.St → Option (Zcrx.Packed.St × Option (Cqe Zcrx.Packed.Sqe))) cqes app s,
      Reach (Each.step zcrxLoop outside) (Each.start mask base cqes app) s → Each.Once s) ∧
    ∀ (conn : Conn) (κ : Type) (outside : κ → Zcrx.ClientSt → Option (Zcrx.ClientSt × Option Completion)) cqes app s,
      Reach (Each.step (zcrxClientLoop conn) outside) (Each.start mask base cqes app) s → Each.Once s :=
  ⟨fun L _ outside _ _ _ h => Batch.reach_once (sendLoop_releases L) hm outside h,
    fun L _ outside _ _ _ h => Batch.reach_once (recvLoop_releases L) hm outside h,
    fun L _ outside _ _ _ h => Batch.reach_once (serverLoop_releases L) hm outside h,
    fun _ outside _ _ _ h => Each.reach_once hm outside h,
    fun _ _ outside _ _ _ h => Each.reach_once hm outside h⟩

/-- a completion without a context -/
def nullEntry (res : Int) : Entry := ⟨.plain res, none⟩

/-- an accept on descriptor 7 and two chunks of the connection -/
def served : List Entry :=
  [⟨.plain 7, some Server.defaultSetup.acceptCtx⟩,
    ⟨⟨100, true, false, some 0⟩, some (Server.defaultSetup.msCtx ⟨7, 0⟩)⟩,
    ⟨⟨50, true, false, some 1⟩, some (Server.defaultSetup.msCtx ⟨7, 0⟩)⟩]

/-- a ring of two slots whose counters are about to wrap: two completions are reaped, the third is posted while the
second of them is being processed -/
def wrapping : List (Batch.Act (Nat × Option (Bool × Nat)) Entry) := List.flatten
  [(served.take 2).map .outside, List.replicate 9 (.worker (0, some (false, 10))), (served.drop 2).map .outside,
    List.replicate 5 (.worker (0, none))]

/-- the same for the zero-copy client, which releases what it has processed at the end -/
def chunks : List Completion := [⟨100, true, false, some 0⟩, ⟨50, true, false, some 4096⟩]

def wrappingEach : List (Batch.Act Bool Completion) := List.flatten
  [chunks.map .outside, List.replicate 8 (.worker true)]

/-- the server opens the connection and counts its first chunk, the client counts both -/
theorem completions_once_wrap : IsMask 1 ∧ (∃ s : Batch.St Server.St Entry,
    Reach (Batch.step (serverLoop Server.defaultSetup) fun (c : Entry) s => some (s, some c))
      (Batch.start 1 4294967295 (fun _ => nullEntry 0) (Server.start Server.defaultSetup 256)) s ∧
    s.log.processed = served.take 2 ∧ s.log.posted = served ∧ s.log.cq.khead = 1 ∧
    s.app.stats.bytesTransferred = 100 ∧ Batch.Once s) ∧
    ∃ s : Each.St Zcrx.ClientSt Completion,
    Reach (Each.step (zcrxClientLoop ⟨5, 0⟩) fun (c : Completion) s => some (s, some c))
      (Each.start 1 4294967295 (fun _ => .plain 0)
        (Zcrx.clientStart 8 ⟨0, 0, 0, 8, 0, fun _ => ⟨0, 0⟩⟩ ⟨5, 0⟩)) s ∧
    s.log.processed = chunks ∧ s.log.cq.khead = 1 ∧ s.app.stats.bytesTransferred = 150 ∧ Each.Once s := by
  have hm : IsMask 1 := ⟨1, by decide, rfl⟩
  obtain ⟨-, -, hserver, -, hclient⟩ := completions_once 1 4294967295 hm
  obtain ⟨s, hs, hproc, hposted, hhead, hbytes⟩ : ∃ s : Batch.St Server.St Entry,
      Reach (Batch.step (serverLoop Server.defaultSetup) fun (c : Entry) s => some (s, some c))
        (Batch.start 1 4294967295 (fun _ => nullEntry 0) (Server.start Server.defaultSetup 256)) s ∧
      s.log.processed = served.take 2 ∧ s.log.posted = served ∧ s.log.cq.khead = 1 ∧
      s.app.stats.bytesTransferred = 100 := exists_reach wrapping (by decide +kernel)
  obtain ⟨t, ht, htproc, hthead, htbytes⟩ : ∃ t : Each.St Zcrx.ClientSt Completion,
      Reach (Each.step (zcrxClientLoop ⟨5, 0⟩) fun (c : Completion) s => some (s, some c))
        (Each.start 1 4294967295 (fun _ => .plain 0)
          (Zcrx.clientStart 8 ⟨0, 0, 0, 8, 0, fun _ => ⟨0, 0⟩⟩ ⟨5, 0⟩)) t ∧
      t.log.processed = chunks ∧ t.log.cq.khead = 1 ∧ t.app.stats.bytesTransferred = 150 :=
    exists_reach wrappingEach (by decide +kernel)
  exact ⟨hm, ⟨s, hs, hproc, hposted, hhead, hbytes, hserver _ _ _ _ _ s hs⟩,
    t, ht, htproc, hthead, htbytes, hclient _ _ _ _ _ t ht⟩

end Worker
end UringPerf
