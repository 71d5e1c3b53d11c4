import UringPerf.Engine.Stops
import UringPerf.Worker.RefineZcrx

/-!
# The workers stop

Neither a completion nor anything outside clears the stop signal or `peer_closed`, so each of the five loops is left
after a bounded number of steps once one of them is set (`loops_stop`).
-/

namespace UringPerf
namespace Worker
open Uring Trans Circular

/-! ## the clients -/

theorem clientOutside_stop {e : Event} {s : Client.St} {r : Client.St × Option Entry} (h : clientOutside e s = some r) :
    (s.stop = true → r.1.stop = true) ∧ r.1.peerClosed = s.peerClosed := by
  cases e with
  | signal =>
    cases h
    exact ⟨fun _ => rfl, rfl⟩
  | consume =>
    obtain ⟨r1, -, rfl⟩ := Option.map_eq_some_iff.mp h
    exact ⟨id, rfl⟩
  | post i c =>
    simp only [clientOutside] at h
    split at h
    · cases h
      exact ⟨id, rfl⟩
    · cases h

theorem onSend_stop (L : Client.Setup) (s : Client.St) (ctx : IOContext) (c : Completion) :
    (Client.onSend L s ctx c).stop = s.stop := by
  unfold Client.onSend Client.St.errorIfNeg
  repeat' split
  all_goals rfl

theorem sendLoop_halts (L : Client.Setup) : (sendLoop L).Halts clientOutside fun s => s.stop = true where
  running := fun s hs => congrArg (!·) hs
  idle := fun _ hs => hs
  flush := fun _ hs => hs
  handle := fun x s c hs => by
    show ((sendBody L c).foldl _ s).stop = true
    unfold sendBody
    split
    · exact hs
    · split
      · exact hs
      · exact (onSend_stop L s _ _).trans hs
  outside := fun e s r hr hs => (clientOutside_stop hr).1 hs

theorem takeBuffer_ends (s : Client.St) (c : Completion) :
    (s.takeBuffer c).stop = s.stop ∧ (s.takeBuffer c).peerClosed = s.peerClosed := by
  unfold Client.St.takeBuffer
  split
  · exact ⟨rfl, rfl⟩
  · split <;> exact ⟨rfl, rfl⟩

theorem onRecvMultishot_ends (L : Client.Setup) (s : Client.St) (ctx : IOContext) (c : Completion)
    (h : s.stop = true ∨ s.peerClosed = true) :
    (Client.onRecvMultishot L s ctx c).stop = true ∨ (Client.onRecvMultishot L s ctx c).peerClosed = true := by
  obtain ⟨hstop, hpeer⟩ := takeBuffer_ends s c
  rw [← hstop, ← hpeer] at h
  unfold Client.onRecvMultishot
  dsimp only
  split
  · exact h
  · split
    · exact h
    · exact Or.inr rfl

theorem onRecv_ends (L : Client.Setup) (s : Client.St) (ctx : IOContext) (c : Completion)
    (h : s.stop = true ∨ s.peerClosed = true) :
    (Client.onRecv L s ctx c).stop = true ∨ (Client.onRecv L s ctx c).peerClosed = true := by
  unfold Client.onRecv
  split
  · split <;> exact h
  · split
    · split <;> exact h
    · exact Or.inr rfl

theorem recvLoop_halts (L : Client.Setup) :
    (recvLoop L).Halts clientOutside fun s => s.stop = true ∨ s.peerClosed = true where
  running := fun s hs => by
    show (!s.stop && !s.peerClosed) = false
    rcases hs with hs | hs <;> rw [hs]
    · rfl
    · exact Bool.and_false _
  idle := fun _ hs => hs
  flush := fun _ hs => hs
  handle := fun x s c hs => by
    show ((recvBody L c).foldl _ s).stop = true ∨ ((recvBody L c).foldl _ s).peerClosed = true
    unfold recvBody
    split
    · exact hs
    · split
      · exact onRecvMultishot_ends L s _ _ hs
      · exact onRecv_ends L s _ _ hs
  outside := fun e s r hr hs => by
    obtain ⟨hstop, hpeer⟩ := clientOutside_stop hr
    exact hs.imp hstop hpeer.trans

/-! ## the server -/

theorem kernelPost_stop {L : Server.Setup} {s t : Server.St} {i : Nat} {c : Completion}
    (h : Server.kernelPost L s i c = some t) : t.stop = s.stop := by
  unfold Server.kernelPost at h
  split at h
  · split at h
    · split at h
      · cases h
        rfl
      · cases h
    · cases h
      rfl
  · cases h

theorem onAccept_stop (L : Server.Setup) (now : Nat) (hs : Option (Bool × Nat)) (s : Server.St) (res : Int) :
    (Server.onAccept L now hs s res).stop = s.stop := by
  unfold Server.onAccept Server.onConnect Server.St.openSession
  repeat' split
  all_goals rfl

theorem server_onSend_stop (L : Server.Setup) (now : Nat) (s : Server.St) (ctx : IOContext) (c : Completion) :
    (Server.onSend L now s ctx c).stop = s.stop := by
  unfold Server.onSend Server.St.errorIfNeg
  repeat' split
  all_goals rfl

theorem server_errorIfNeg_stop (s : Server.St) (res : Int) : (s.errorIfNeg res).stop = s.stop := by
  unfold Server.St.errorIfNeg
  split <;> rfl

theorem server_takeBuffer_stop (L : Server.Setup) (s : Server.St) (c : Completion) :
    (s.takeBuffer L c).stop = s.stop := by
  unfold Server.St.takeBuffer
  split
  · rfl
  · split <;> rfl

theorem server_onRecvMultishot_stop (L : Server.Setup) (s : Server.St) (ctx : IOContext) (c : Completion) :
    (Server.onRecvMultishot L s ctx c).stop = s.stop := by
  rw [← server_takeBuffer_stop L s c]
  unfold Server.onRecvMultishot
  dsimp only
  generalize s.takeBuffer L c = s
  have herr := server_errorIfNeg_stop s c.res
  split
  · rfl
  · split
    · rfl
    · split
      · split <;> exact herr
      · split <;> exact herr

theorem server_onRecv_stop (L : Server.Setup) (s : Server.St) (ctx : IOContext) (c : Completion) :
    (Server.onRecv L s ctx c).stop = s.stop := by
  unfold Server.onRecv Server.St.errorIfNeg
  repeat' split
  all_goals rfl

theorem serverLoop_halts (L : Server.Setup) : (serverLoop L).Halts (serverOutside L) fun s => s.stop = true where
  running := fun s hs => congrArg (!·) hs
  idle := fun _ hs => hs
  flush := fun _ hs => hs
  handle := fun x s c hs => by
    show ((serverBody L x c).foldl _ s).stop = true
    unfold serverBody
    split
    · exact hs
    · split
      · exact (onAccept_stop L x.1 x.2 s _).trans hs
      · exact (server_onSend_stop L x.1 s _ _).trans hs
      · split
        · exact (server_onRecvMultishot_stop L s _ _).trans hs
        · exact (server_onRecv_stop L s _ _).trans hs
      · exact hs
  outside := fun e s r hr hs => by
    cases e with
    | signal =>
      cases hr
      rfl
    | consume =>
      obtain ⟨r1, -, rfl⟩ := Option.map_eq_some_iff.mp hr
      exact hs
    | post i c =>
      simp only [serverOutside] at hr
      split at hr
      next q t hq ht =>
        cases hr
        exact (kernelPost_stop ht).trans hs
      · cases hr

/-! ## the zero-copy loops -/

theorem packed_onCqe_stop (p : Zcrx.Packed.St) (addr : UInt64) (c : Cqe Zcrx.Packed.Sqe) :
    (Zcrx.Packed.onCqe p addr c).stop = p.stop := by
  unfold Zcrx.Packed.onCqe Zcrx.Packed.onAccept Zcrx.Packed.onRx
  dsimp only
  repeat' split
  all_goals rfl

theorem zcrxLoop_halts (listenFd : Int) : zcrxLoop.Halts (zcrxOutside listenFd) fun p => p.stop = true where
  running := fun p hp => congrArg (!·) hp
  handle := fun x p c hp => (packed_onCqe_stop p x.2 c).trans hp
  outside := fun e p r hr hp => by
    cases e with
    | signal =>
      cases hr
      rfl
    | post i c =>
      simp only [zcrxOutside] at hr
      split at hr
      next q t hq ht =>
        cases hr
        have hstop : t.stop = p.stop := by
          unfold Zcrx.Packed.kernelPost at ht
          split at ht
          · split at ht
            · split at ht
              · cases ht
                rfl
              · cases ht
            · cases ht
              rfl
          · cases ht
        exact hstop.trans hp
      · cases hr
    | refill =>
      simp only [zcrxOutside] at hr
      split at hr
      · cases hr
      · cases hr
        exact hp

theorem zcrxClientLoop_halts (conn : Conn) :
    (zcrxClientLoop conn).Halts zcrxClientOutside fun s => s.stop = true ∨ s.peerClosed = true where
  running := fun s hs => by
    show (!s.stop && !s.peerClosed) = false
    rcases hs with hs | hs <;> rw [hs]
    · rfl
    · exact Bool.and_false _
  handle := fun x s c hs => by
    show (Zcrx.onClientRx s conn c).stop = true ∨ (Zcrx.onClientRx s conn c).peerClosed = true
    unfold Zcrx.onClientRx
    split
    · split
      · exact hs
      · exact Or.inr rfl
    · split <;> exact hs
  outside := fun e s r hr hs => by
    cases e with
    | signal =>
      cases hr
      exact Or.inl rfl
    | post i c =>
      obtain ⟨r1, -, rfl⟩ := Option.map_eq_some_iff.mp hr
      exact hs
    | refill =>
      simp only [zcrxClientOutside] at hr
      split at hr
      · cases hr
      · cases hr
        exact hs

/-! ## all of them -/

/-- **Every worker stops.**  Once the stop signal is set (or, where a client receives, the peer has closed), the loop is
left after at most `5 * in_flight + 4` steps of the worker, or three steps for each slot of the completion ring and two
more for the zero-copy loops: wherever the loop is, whatever it has collected, and however many completions the kernel
posts meanwhile.  Until then each of its steps is possible, whatever the outcome of a wait or of a handshake (that a
handshake has an outcome at all is up to the peer). -/
theorem loops_stop (mask base : UInt32) (hm : IsMask mask) :
    (∀ L : Client.Setup, L.config.inFlight < 2^31 → ∀ cqes app s,
      Reach (Batch.step (sendLoop L) clientOutside) (Batch.start mask base cqes app) s → s.app.stop = true →
      Finishes (Batch.step (sendLoop L) clientOutside) Batch.Act.isWorker (fun t => t.phase = .exited) s
        (5 * L.config.inFlight + 4)) ∧
    (∀ L : Client.Setup, L.config.inFlight < 2^31 → ∀ cqes app s,
      Reach (Batch.step (recvLoop L) clientOutside) (Batch.start mask base cqes app) s →
      (s.app.stop = true ∨ s.app.peerClosed = true) →
      Finishes (Batch.step (recvLoop L) clientOutside) Batch.Act.isWorker (fun t => t.phase = .exited) s
        (5 * L.config.inFlight + 4)) ∧
    (∀ L : Server.Setup, L.config.inFlight < 2^31 → ∀ cqes app s,
      Reach (Batch.step (serverLoop L) (serverOutside L)) (Batch.start mask base cqes app) s → s.app.stop = true →
      Finishes (Batch.step (serverLoop L) (serverOutside L)) Batch.Act.isWorker (fun t => t.phase = .exited) s
        (5 * L.config.inFlight + 4)) ∧
    (∀ listenFd cqes app s,
      Reach (Each.step zcrxLoop (zcrxOutside listenFd)) (Each.start mask base cqes app) s → s.app.stop = true →
      Finishes (Each.step zcrxLoop (zcrxOutside listenFd)) Batch.Act.isWorker (fun t => t.phase = .exited) s
        (3 * (mask.toNat + 1) + 2)) ∧
    ∀ conn cqes app s,
      Reach (Each.step (zcrxClientLoop conn) zcrxClientOutside) (Each.start mask base cqes app) s →
      (s.app.stop = true ∨ s.app.peerClosed = true) →
      Finishes (Each.step (zcrxClientLoop conn) zcrxClientOutside) Batch.Act.isWorker (fun t => t.phase = .exited) s
        (3 * (mask.toNat + 1) + 2) := by
  refine ⟨fun L hn cqes app s h hs => ?_, fun L hn cqes app s h hs => ?_, fun L hn cqes app s h hs => ?_,
    fun listenFd cqes app s h hs => Each.finishes (zcrxLoop_halts listenFd) zcrxLoop_atomic hm h hs,
    fun conn cqes app s h hs => Each.finishes (zcrxClientLoop_halts conn) (zcrxClientLoop_atomic conn) hm h hs⟩
  · have hmax : (sendLoop L).maxReap.toNat = L.config.inFlight := toNat_inFlight hn
    rw [← hmax] at hn ⊢
    exact Batch.finishes (sendLoop_halts L) (sendLoop_atomic L) hn hm h hs
  · have hmax : (recvLoop L).maxReap.toNat = L.config.inFlight := toNat_inFlight hn
    rw [← hmax] at hn ⊢
    exact Batch.finishes (recvLoop_halts L) (recvLoop_atomic L) hn hm h hs
  · have hmax : (serverLoop L).maxReap.toNat = L.config.inFlight := toNat_inFlight hn
    rw [← hmax] at hn ⊢
    exact Batch.finishes (serverLoop_halts L) (serverLoop_atomic L) hn hm h hs

/-- the signal arrives while the pointers of a batch are collected -/
theorem loops_stop_collecting : IsMask 1 ∧ Client.defaultSetup.config.inFlight < 2^31 ∧ ∃ s,
    Reach (Batch.step (sendLoop Client.defaultSetup) clientOutside)
      (Batch.start 1 4294967295 (fun _ => nullEntry 0) (Client.sendStart Client.defaultSetup 4)) s ∧
    s.app.stop = true ∧ s.phase.plain = .reap ∧
    Finishes (Batch.step (sendLoop Client.defaultSetup) clientOutside) Batch.Act.isWorker (fun t => t.phase = .exited) s
      (5 * Client.defaultSetup.config.inFlight + 4) := by
  have hn : Client.defaultSetup.config.inFlight < 2^31 := by decide
  have hm : IsMask 1 := ⟨1, by decide, rfl⟩
  have hrun : ∃ s, Reach (Batch.step (sendLoop Client.defaultSetup) clientOutside)
      (Batch.start 1 4294967295 (fun _ => nullEntry 0) (Client.sendStart Client.defaultSetup 4)) s ∧
      s.app.stop = true ∧ s.phase.plain = .reap :=
    exists_reach [.outside (.post 0 (.plain 64)), .worker (), .worker (), .outside .signal] (by decide +kernel)
  obtain ⟨s, hs, hstop, hpc⟩ := hrun
  exact ⟨hm, hn, s, hs, hstop, hpc, (loops_stop 1 4294967295 hm).1 _ hn _ _ s hs hstop⟩

end Worker
end UringPerf
