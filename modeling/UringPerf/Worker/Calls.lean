import UringPerf.Server.Effect
import UringPerf.Stats.Exact
import UringPerf.Worker.RefineZcrx

/-!
# The calls of the collector that a worker makes

The models of the workers count in a record of their own.  Here the calls behind these counts are listed, in the order
in which the branches of the loops make them, so that they can be made on the shared counters.

* `Tells a b cs`      the calls `cs` take the counts from `a` to `b`, if none of the amounts wraps;
* `sendCalls` .. `zcrxClientCalls`   the calls for one completion, for each of the five loops;
* `sendLoop_tells` .. `zcrxClientLoop_tells`   the loops count by these calls and by nothing else.
-/

namespace UringPerf

namespace Stats

/-- what calls add to a field -/
def amounts (f : Field) (cs : List Call) : Nat := (cs.map (Call.amount f)).sum

/-- an amount of 2^64 or more would wrap in the call, but not in the record -/
def Tells (a b : ThreadStats) (cs : List Call) : Prop :=
  ∀ f : Field, ∃ n, f.get b = f.get a + n ∧ (n < 2^64 → n = amounts f cs)

theorem amounts_append (f : Field) (cs ds : List Call) : amounts f (cs ++ ds) = amounts f cs + amounts f ds := by
  unfold amounts
  rw [List.map_append, List.sum_append]

theorem Tells.refl (a : ThreadStats) : Tells a a [] := fun _ => ⟨0, rfl, fun _ => rfl⟩

theorem Tells.trans {a b c : ThreadStats} {cs ds : List Call} (h1 : Tells a b cs) (h2 : Tells b c ds) :
    Tells a c (cs ++ ds) := by
  intro f
  obtain ⟨n, hn, hn'⟩ := h1 f
  obtain ⟨m, hm, hm'⟩ := h2 f
  refine ⟨n + m, by rw [hm, hn, Nat.add_assoc], fun hlt => ?_⟩
  rw [amounts_append, ← hn' (by omega), ← hm' (by omega)]

theorem tells_addBytes (a : ThreadStats) (bytes packets : Nat) :
    Tells a (a.addBytes bytes packets) [.addBytes (UInt64.ofNat bytes) (UInt64.ofNat packets)] := by
  intro f
  cases f with
  | bytesTransferred =>
    refine ⟨bytes, rfl, fun hlt => ?_⟩
    show bytes = (UInt64.ofNat bytes).toNat
    rw [UInt64.toNat_ofNat', Nat.mod_eq_of_lt hlt]
  | packetsCount =>
    refine ⟨packets, rfl, fun hlt => ?_⟩
    show packets = (UInt64.ofNat packets).toNat
    rw [UInt64.toNat_ofNat', Nat.mod_eq_of_lt hlt]
  | zcNotifications => exact ⟨0, rfl, fun _ => rfl⟩
  | errors => exact ⟨0, rfl, fun _ => rfl⟩

theorem tells_addZcNotification (a : ThreadStats) : Tells a a.addZcNotification [.addZcNotification] := by
  intro f
  cases f with
  | zcNotifications => exact ⟨1, rfl, fun _ => rfl⟩
  | _ => exact ⟨0, rfl, fun _ => rfl⟩

theorem tells_addError (a : ThreadStats) : Tells a a.addError [.addError] := by
  intro f
  cases f with
  | errors => exact ⟨1, rfl, fun _ => rfl⟩
  | _ => exact ⟨0, rfl, fun _ => rfl⟩

end Stats

/-! ## loops -/

section
variable {σ ε χ κ : Type}

/-- a loop counts by the calls of its handler, and by nothing else -/
structure Loop.Tells (loop : Loop σ ε χ) (outside : κ → σ → Option (σ × Option ε)) (stats : σ → ThreadStats)
    (calls : σ → ε → List Stats.Call) : Prop where
  prelude : ∀ x s, stats (loop.prelude x s) = stats s
  idle : ∀ s, stats (loop.idle s) = stats s
  flush : ∀ s, stats (loop.flush s) = stats s
  outside : ∀ e s r, outside e s = some r → stats r.1 = stats s
  handle : ∀ x s c, Stats.Tells (stats s) (stats (loop.handle x s c)) (calls s c)

structure ForEach.Tells (loop : ForEach σ ε χ) (outside : κ → σ → Option (σ × Option ε)) (stats : σ → ThreadStats)
    (calls : σ → ε → List Stats.Call) : Prop where
  wait : ∀ x s t, loop.wait x s = some t → stats t = stats s
  outside : ∀ e s r, outside e s = some r → stats r.1 = stats s
  handle : ∀ x s c, Stats.Tells (stats s) (stats (loop.handle x s c)) (calls s c)

end

namespace Worker
open Uring Stats

/-- `if (cqe->res < 0) stats_.add_error(..)` -/
def errorCalls (res : Int) : List Call := if res < 0 then [.addError] else []

def bytesCall (bytes : Int) (packets : Nat) : Call := .addBytes (UInt64.ofNat bytes.toNat) (UInt64.ofNat packets)

/-! ## the clients -/

def onSendCalls (packets : Int → Nat) (c : Completion) : List Call :=
  if c.notif then [.addZcNotification]
  else if 0 < c.res then [bytesCall c.res (packets c.res)]
  else if isAgain c.res then []
  else errorCalls c.res

def sendCalls (L : Client.Setup) (c : Entry) : List Call :=
  match c.userData with
  | none => []
  | some _ => onSendCalls (Client.sendPackets L) c.toCompletion

def takeBufferCalls (packets : Int → Nat) (c : Completion) : List Call :=
  match c.buffer with
  | none => []
  | some _ => if 0 < c.res then [bytesCall c.res (packets c.res)] else []

def onRecvMultishotCalls (packets : Int → Nat) (c : Completion) : List Call :=
  takeBufferCalls packets c ++ if c.more then [] else if c.res = -ENOBUFS then [] else errorCalls c.res

def onRecvCalls (packets : Int → Nat) (c : Completion) : List Call :=
  if 0 < c.res then [bytesCall c.res (packets c.res)] else if isAgain c.res then [] else errorCalls c.res

def recvCalls (L : Client.Setup) (c : Entry) : List Call :=
  match c.userData with
  | none => []
  | some _ =>
    if L.useMultishot then onRecvMultishotCalls (fun _ => 1) c.toCompletion
    else onRecvCalls (fun _ => 1) c.toCompletion

theorem client_errorIfNeg_tells (s : Client.St) (res : Int) :
    Tells s.stats (s.errorIfNeg res).stats (errorCalls res) := by
  unfold Client.St.errorIfNeg errorCalls
  split
  · exact tells_addError s.stats
  · exact Tells.refl s.stats

theorem onSend_tells (L : Client.Setup) (s : Client.St) (ctx : IOContext) (c : Completion) :
    Tells s.stats (Client.onSend L s ctx c).stats (onSendCalls (Client.sendPackets L) c) := by
  unfold Client.onSend onSendCalls
  split
  · exact tells_addZcNotification s.stats
  · split
    · split <;> exact tells_addBytes s.stats _ _
    · split
      · split <;> exact Tells.refl s.stats
      · exact client_errorIfNeg_tells s c.res

theorem client_takeBuffer_tells (s : Client.St) (c : Completion) :
    Tells s.stats (s.takeBuffer c).stats (takeBufferCalls (fun _ => 1) c) := by
  unfold Client.St.takeBuffer takeBufferCalls
  cases c.buffer with
  | none => exact Tells.refl s.stats
  | some id =>
    dsimp only
    split
    · exact tells_addBytes s.stats _ _
    · exact Tells.refl s.stats

theorem client_onRecvMultishot_tells (L : Client.Setup) (s : Client.St) (ctx : IOContext) (c : Completion) :
    Tells s.stats (Client.onRecvMultishot L s ctx c).stats (onRecvMultishotCalls (fun _ => 1) c) := by
  refine (client_takeBuffer_tells s c).trans ?_
  unfold Client.onRecvMultishot
  dsimp only
  generalize s.takeBuffer c = s
  split
  · exact Tells.refl s.stats
  · split
    · exact Tells.refl s.stats
    · exact client_errorIfNeg_tells s c.res

theorem client_onRecv_tells (L : Client.Setup) (s : Client.St) (ctx : IOContext) (c : Completion) :
    Tells s.stats (Client.onRecv L s ctx c).stats (onRecvCalls (fun _ => 1) c) := by
  unfold Client.onRecv onRecvCalls
  split
  · split <;> exact tells_addBytes s.stats _ _
  · split
    · split <;> exact Tells.refl s.stats
    · exact client_errorIfNeg_tells s c.res

theorem clientOutside_stats {e : Event} {s : Client.St} {r : Client.St × Option Entry} (h : clientOutside e s = some r) :
    r.1.stats = s.stats := by
  cases e with
  | signal =>
    cases h
    rfl
  | consume =>
    obtain ⟨r1, -, rfl⟩ := Option.map_eq_some_iff.mp h
    rfl
  | post i c =>
    simp only [clientOutside] at h
    split at h
    · cases h
      rfl
    · cases h

theorem sendLoop_tells (L : Client.Setup) :
    (sendLoop L).Tells clientOutside Client.St.stats fun _ c => sendCalls L c where
  prelude := fun _ _ => rfl
  idle := fun _ => rfl
  flush := fun _ => rfl
  outside := fun _ _ _ => clientOutside_stats
  handle := fun x s c => by
    show Tells s.stats ((sendBody L c).foldl _ s).stats _
    unfold sendBody sendCalls
    cases c.userData with
    | none => exact Tells.refl s.stats
    | some ctx =>
      dsimp only
      split
      next hn =>
        unfold onSendCalls
        rw [if_pos hn]
        exact tells_addZcNotification s.stats
      · exact onSend_tells L s ctx c.toCompletion

theorem recvLoop_tells (L : Client.Setup) :
    (recvLoop L).Tells clientOutside Client.St.stats fun _ c => recvCalls L c where
  prelude := fun _ _ => rfl
  idle := fun _ => rfl
  flush := fun _ => rfl
  outside := fun _ _ _ => clientOutside_stats
  handle := fun x s c => by
    show Tells s.stats ((recvBody L c).foldl _ s).stats _
    unfold recvBody recvCalls
    cases c.userData with
    | none => exact Tells.refl s.stats
    | some ctx =>
      dsimp only
      split
      · exact client_onRecvMultishot_tells L s _ _
      · exact client_onRecv_tells L s _ _

/-! ## the server -/

def serverCalls (L : Server.Setup) (c : Entry) : List Call :=
  match c.userData with
  | none => []
  | some ctx =>
    match ctx.type with
    | .accept => []
    | .send => onSendCalls (fun _ => 1) c.toCompletion
    | .recv =>
      if L.useMultishot then onRecvMultishotCalls (Server.recvPackets L) c.toCompletion
      else onRecvCalls (Server.recvPackets L) c.toCompletion
    | .timer => []

theorem server_errorIfNeg_tells (s : Server.St) (res : Int) :
    Tells s.stats (s.errorIfNeg res).stats (errorCalls res) := by
  unfold Server.St.errorIfNeg errorCalls
  split
  · exact tells_addError s.stats
  · exact Tells.refl s.stats

theorem server_onAccept_tells (L : Server.Setup) (now : Nat) (hs : Option (Bool × Nat)) (s : Server.St) (res : Int) :
    Tells s.stats (Server.onAccept L now hs s res).stats [] := by
  have hstats : (Server.onAccept L now hs s res).stats = s.stats := by
    unfold Server.onAccept Server.onConnect Server.St.openSession
    repeat' split
    all_goals rfl
  rw [hstats]
  exact Tells.refl s.stats

theorem server_onSend_tells (L : Server.Setup) (now : Nat) (s : Server.St) (ctx : IOContext) (c : Completion) :
    Tells s.stats (Server.onSend L now s ctx c).stats (onSendCalls (fun _ => 1) c) := by
  unfold Server.onSend onSendCalls
  split
  · exact tells_addZcNotification s.stats
  · split
    · split <;> exact tells_addBytes s.stats _ _
    · split
      · split <;> exact Tells.refl s.stats
      · exact server_errorIfNeg_tells s c.res

theorem server_takeBuffer_tells (L : Server.Setup) (s : Server.St) (c : Completion) :
    Tells s.stats (s.takeBuffer L c).stats (takeBufferCalls (Server.recvPackets L) c) := by
  unfold Server.St.takeBuffer takeBufferCalls
  cases c.buffer with
  | none => exact Tells.refl s.stats
  | some id =>
    dsimp only
    split
    · exact tells_addBytes s.stats _ _
    · exact Tells.refl s.stats

theorem server_onRecvMultishot_tells (L : Server.Setup) (s : Server.St) (ctx : IOContext) (c : Completion) :
    Tells s.stats (Server.onRecvMultishot L s ctx c).stats (onRecvMultishotCalls (Server.recvPackets L) c) := by
  refine (server_takeBuffer_tells L s c).trans ?_
  unfold Server.onRecvMultishot
  dsimp only
  generalize s.takeBuffer L c = s
  have herr := server_errorIfNeg_tells s c.res
  split
  · exact Tells.refl s.stats
  · split
    · exact Tells.refl s.stats
    · split
      · split <;> exact herr
      · split <;> exact herr

theorem server_onRecv_tells (L : Server.Setup) (s : Server.St) (ctx : IOContext) (c : Completion) :
    Tells s.stats (Server.onRecv L s ctx c).stats (onRecvCalls (Server.recvPackets L) c) := by
  have herr := server_errorIfNeg_tells s c.res
  unfold Server.onRecv onRecvCalls
  split
  · exact tells_addBytes s.stats _ _
  · split
    · exact Tells.refl s.stats
    · split <;> exact herr

theorem kernelPost_stats {L : Server.Setup} {s t : Server.St} {i : Nat} {c : Completion}
    (h : Server.kernelPost L s i c = some t) : t.stats = s.stats := by
  unfold Server.kernelPost at h
  split at h
  · split at h
    · split at h
      · cases h
        rfl
      · cases h
    · cases h
      rfl
  · cases h

theorem serverOutside_stats {L : Server.Setup} {e : Event} {s : Server.St} {r : Server.St × Option Entry}
    (h : serverOutside L e s = some r) : r.1.stats = s.stats := by
  cases e with
  | signal =>
    cases h
    rfl
  | consume =>
    obtain ⟨r1, -, rfl⟩ := Option.map_eq_some_iff.mp h
    rfl
  | post i c =>
    simp only [serverOutside] at h
    split at h
    next q t hq ht =>
      cases h
      have hstats := kernelPost_stats ht
      exact hstats
    · cases h

theorem serverLoop_tells (L : Server.Setup) :
    (serverLoop L).Tells (serverOutside L) Server.St.stats fun _ c => serverCalls L c where
  prelude := fun x s => by
    show (Server.sweep x.1 s).stats = s.stats
    rw [Server.sweep_eq]
  idle := fun _ => rfl
  flush := fun _ => rfl
  outside := fun _ _ _ => serverOutside_stats
  handle := fun x s c => by
    show Tells s.stats ((serverBody L x c).foldl _ s).stats _
    unfold serverBody serverCalls
    cases c.userData with
    | none => exact Tells.refl s.stats
    | some ctx =>
      dsimp only
      cases ctx.type with
      | accept => exact server_onAccept_tells L x.1 x.2 s _
      | send => exact server_onSend_tells L x.1 s _ _
      | recv =>
        dsimp only
        split
        · exact server_onRecvMultishot_tells L s _ _
        · exact server_onRecv_tells L s _ _
      | timer => exact Tells.refl s.stats

/-! ## the zero-copy loops -/

def chunkCalls (res : Int) : List Call := [bytesCall res 1, .addZcNotification]

/-- a terminated receive is counted only if its connection is there -/
def zcrxCalls (p : Zcrx.Packed.St) (c : Cqe Zcrx.Packed.Sqe) : List Call :=
  if c.op.userData &&& Zcrx.Packed.kZcrxReqTypeMask = Zcrx.Packed.kZcrxReqAccept then []
  else if c.op.userData &&& Zcrx.Packed.kZcrxReqTypeMask = Zcrx.Packed.kZcrxReqRx then
    if c.more = false then
      match p.deref (c.op.userData &&& ~~~Zcrx.Packed.kZcrxReqTypeMask) with
      | none => []
      | some _ => if Zcrx.isStarved c.res then [] else errorCalls c.res
    else if 0 < c.res then chunkCalls c.res
    else []
  else []

def zcrxClientCalls (c : Completion) : List Call :=
  if c.more = false then if Zcrx.isStarved c.res then [] else errorCalls c.res
  else if 0 < c.res then chunkCalls c.res
  else []

theorem zcrx_errorIfNeg_tells (stats : ThreadStats) (res : Int) :
    Tells stats (Zcrx.errorIfNeg stats res) (errorCalls res) := by
  unfold Zcrx.errorIfNeg errorCalls
  split
  · exact tells_addError stats
  · exact Tells.refl stats

theorem countChunk_tells (stats : ThreadStats) (res : Int) : Tells stats (Zcrx.countChunk stats res) (chunkCalls res) :=
  (tells_addBytes stats _ _).trans (tells_addZcNotification _)

theorem packed_onCqe_tells (p : Zcrx.Packed.St) (addr : UInt64) (c : Cqe Zcrx.Packed.Sqe) :
    Tells p.stats (Zcrx.Packed.onCqe p addr c).stats (zcrxCalls p c) := by
  unfold Zcrx.Packed.onCqe zcrxCalls
  dsimp only
  split
  · have hstats : (Zcrx.Packed.onAccept p addr c.res).stats = p.stats := by
      unfold Zcrx.Packed.onAccept
      dsimp only
      repeat' split
      all_goals rfl
    rw [hstats]
    exact Tells.refl p.stats
  · split
    · unfold Zcrx.Packed.onRx
      split
      · cases p.deref (c.op.userData &&& ~~~Zcrx.Packed.kZcrxReqTypeMask) with
        | none => exact Tells.refl p.stats
        | some conn =>
          dsimp only
          split
          · exact Tells.refl p.stats
          · split <;> exact zcrx_errorIfNeg_tells p.stats c.res
      · split
        · exact countChunk_tells p.stats c.res
        · exact Tells.refl p.stats
    · exact Tells.refl p.stats

theorem zcrxOutside_stats {listenFd : Int} {e : ZcrxEvent} {p : Zcrx.Packed.St}
    {r : Zcrx.Packed.St × Option (Cqe Zcrx.Packed.Sqe)} (h : zcrxOutside listenFd e p = some r) :
    r.1.stats = p.stats := by
  cases e with
  | signal =>
    cases h
    rfl
  | post i c =>
    simp only [zcrxOutside] at h
    split at h
    next q t hq ht =>
      cases h
      show t.stats = p.stats
      unfold Zcrx.Packed.kernelPost at ht
      split at ht
      · split at ht
        · split at ht
          · cases ht
            rfl
          · cases ht
        · cases ht
          rfl
      · cases ht
    · cases h
  | refill =>
    simp only [zcrxOutside] at h
    split at h
    · cases h
    · cases h
      rfl

theorem zcrxLoop_tells (listenFd : Int) :
    zcrxLoop.Tells (zcrxOutside listenFd) Zcrx.Packed.St.stats zcrxCalls where
  wait := fun x p t ht => by
    replace ht : (if x.1 then some { p with ring := p.ring.submit } else none) = some t := ht
    split at ht
    · cases ht
      rfl
    · cases ht
  outside := fun _ _ _ => zcrxOutside_stats
  handle := fun x p c => packed_onCqe_tells p x.2 c

theorem zcrxClientOutside_stats {e : ZcrxEvent} {s : Zcrx.ClientSt} {r : Zcrx.ClientSt × Option Completion}
    (h : zcrxClientOutside e s = some r) : r.1.stats = s.stats := by
  cases e with
  | signal =>
    cases h
    rfl
  | post i c =>
    obtain ⟨r1, -, rfl⟩ := Option.map_eq_some_iff.mp h
    rfl
  | refill =>
    simp only [zcrxClientOutside] at h
    split at h
    · cases h
    · cases h
      rfl

theorem zcrxClientLoop_tells (conn : Conn) :
    (zcrxClientLoop conn).Tells zcrxClientOutside Zcrx.ClientSt.stats fun _ c => zcrxClientCalls c where
  wait := fun x s t ht => by
    replace ht : (if x then some { s with ring := s.ring.submit } else none) = some t := ht
    split at ht
    · cases ht
      rfl
    · cases ht
  outside := fun _ _ _ => zcrxClientOutside_stats
  handle := fun x s c => by
    show Tells s.stats (Zcrx.onClientRx s conn c).stats _
    unfold Zcrx.onClientRx zcrxClientCalls
    split
    · split
      · exact Tells.refl s.stats
      · exact zcrx_errorIfNeg_tells s.stats c.res
    · split
      · exact countChunk_tells s.stats c.res
      · exact Tells.refl s.stats

end Worker
end UringPerf
