import UringPerf.Client.Effect
import UringPerf.Client.Send

/-!
# The teardown of a client

After its loop a client releases the buffers of its pool, while the ring is still open.  It does not wait for the
operations that are outstanding then.

* `inUse`           the buffers that the kernel may still read or write;
* `Clean`           no released buffer is one of them;
* `sendOp`, `recvOp`   the operations of the two pools, `send_rotates` and `recv_rotates` their rotation;
* `Primed.clean_iff`   the teardown is clean exactly if the kernel has nothing left;
* `teardown_iff`    which clients are clean in every run.
-/

namespace UringPerf
namespace Client
open Uring

/-- the buffers named by an entry that is queued, that is in the kernel, or that owes its notification -/
def inUse (r : IoRing Sqe) : List Ptr := (r.sq ++ r.kern.map (·.op)).filterMap (·.buf)

def Clean (s : St) : Prop := ∀ p ∈ s.freed, p ∉ inUse s.ring

/-- nothing is queued or in the kernel -/
def Drained (r : IoRing Sqe) : Prop := r.sq = [] ∧ r.kern = []

/-! ## any loop over a pool -/

section
variable {L : Setup} {cap : Nat} {handle : St → Cqe Sqe → St} {reg : Registered} {op : Nat → Sqe} {s t : St}

/-- **A teardown is clean exactly if the kernel has nothing left**: every entry names a buffer of the pool. -/
theorem Primed.clean_iff (h : Primed L cap reg op s) (hrot : Rotates handle reg op)
    (hbuf : ∀ i, (op i).buf = some ⟨.pool, i⟩) (hr : Trans.Reach (step L (poolBuffers L) handle) s t)
    (hpc : t.pc = .done) : Clean t ↔ Drained t.ring := by
  have hi : PoolInv _ (poolBuffers L) reg op t := h.reach hrot hr
  have hfreed : t.freed = poolBuffers L := by rw [hi.freed, if_pos hpc]
  unfold Clean Drained inUse
  constructor
  · intro hc
    have hnone : ∀ o ∈ t.ring.sq ++ t.ring.kern.map (·.op), False := by
      intro o ho
      obtain ⟨i, hlt, rfl⟩ := hi.ops o (List.mem_append_left _ ho)
      have hmem : (⟨.pool, i⟩ : Ptr) ∈ t.freed := by
        rw [hfreed]
        exact List.mem_map.mpr ⟨i, List.mem_range.mpr (by omega), rfl⟩
      exact hc _ hmem (List.mem_filterMap.mpr ⟨op i, ho, hbuf i⟩)
    have hnil := List.eq_nil_iff_forall_not_mem.mpr hnone
    rw [List.append_eq_nil_iff, List.map_eq_nil_iff] at hnil
    exact hnil
  · rintro ⟨hsq, hkern⟩ p -
    rw [hsq, hkern]
    exact List.not_mem_nil

/-- the stop signal may come before the first completion -/
theorem Primed.stopped (h : Primed L cap reg op s) (handle : St → Cqe Sqe → St) :
    ∃ t, Trans.Reach (step L (poolBuffers L) handle) s t ∧ t.pc = .done ∧ t.ring = s.ring := by
  have h1 : step L (poolBuffers L) handle s .signal = some { s with stop := true } := by
    refine if_neg ?_
    rw [h.pc]
    exact Pc.noConfusion
  have h2 : step L (poolBuffers L) handle { s with stop := true } .finish =
      some { s with stop := true, freed := s.freed ++ poolBuffers L, pc := .done } := if_pos ⟨h.pc, rfl⟩
  exact ⟨_, (Trans.Reach.refl.tail h1).tail h2, rfl, rfl⟩

theorem Primed.drained_iff (h : Primed L cap reg op s) : Drained s.ring ↔ min cap L.config.inFlight = 0 := by
  have hcq : s.ring.cq = [] := by
    rw [h.ring, IoRing.submit_cq, IoRing.pushAll_cq]
    rfl
  have hout : Drained s.ring ↔ s.ring.outstanding = [] := by
    unfold Drained IoRing.outstanding
    rw [hcq, List.map_nil, List.append_nil, List.append_eq_nil_iff, List.map_eq_nil_iff]
  rw [hout, List.eq_nil_iff_forall_not_mem]
  constructor
  · intro hnone
    by_contra hpos
    exact hnone (op 0) (h.ops.mpr ⟨0, Nat.pos_of_ne_zero hpos, rfl⟩)
  · intro hzero o ho
    obtain ⟨i, hi, -⟩ := h.ops.mp ho
    omega

theorem Primed.always_clean_iff (h : Primed L cap reg op s) (hrot : Rotates handle reg op)
    (hbuf : ∀ i, (op i).buf = some ⟨.pool, i⟩) :
    (∀ t, Trans.Reach (step L (poolBuffers L) handle) s t → Clean t) ↔ min cap L.config.inFlight = 0 := by
  constructor
  · intro hall
    obtain ⟨t, hr, hpc, hring⟩ := h.stopped handle
    have hd := (h.clean_iff hrot hbuf hr hpc).mp (hall t hr)
    rw [hring] at hd
    exact h.drained_iff.mp hd
  · intro hzero t hr
    have hi : PoolInv _ (poolBuffers L) reg op t := h.reach hrot hr
    intro p _ hp
    obtain ⟨o, ho, -⟩ := List.mem_filterMap.mp hp
    obtain ⟨i, hlt, -⟩ := hi.ops o (List.mem_append_left _ ho)
    omega

end

/-! ## the send loop -/

section
variable (L : Setup)

/-- the send of the `i`-th buffer -/
def sendOp (i : Nat) : Sqe := sendSqe L.sendReg L.config.zeroCopy (L.sendCtx i) L.useFixedFile

theorem prepSend_frame (s : St) (ctx : IOContext) :
    (s.prepSend L ctx).engine.reg = s.engine.reg ∧ (s.prepSend L ctx).freed = s.freed := by
  refine ⟨?_, rfl⟩
  show (s.engine.prepSend L.config.zeroCopy ctx L.useFixedFile).2.reg = _
  rw [UringEngine.prepSend_eq, UringEngine.queue_reg]

theorem errorIfNeg_frame (s : St) (res : Int) :
    (s.errorIfNeg res).engine = s.engine ∧ (s.errorIfNeg res).freed = s.freed := by
  unfold St.errorIfNeg
  split <;> exact ⟨rfl, rfl⟩

theorem onSend_frame (s : St) (ctx : IOContext) (c : Completion) :
    (onSend L s ctx c).engine.reg = s.engine.reg ∧ (onSend L s ctx c).freed = s.freed := by
  unfold onSend
  split
  · exact ⟨rfl, rfl⟩
  · split
    · split
      · exact ⟨rfl, rfl⟩
      · exact prepSend_frame L _ ctx
    · split
      · split
        · exact ⟨rfl, rfl⟩
        · exact prepSend_frame L s ctx
      · obtain ⟨h1, h2⟩ := errorIfNeg_frame s c.res
        exact ⟨congrArg UringEngine.reg h1, h2⟩

theorem send_rotates : Rotates (sendCqe L) L.sendReg (sendOp L) := by
  intro s c i hreg hop
  obtain ⟨h1, h2⟩ := onSend_frame L s c.op.userData c.toCompletion
  refine ⟨resend L s c, fun o ho => ?_, (sendCqe_effect s c).1, h1.trans hreg, h2⟩
  rcases resend_cases (L := L) s c with hr | ⟨hr, -⟩
  · rw [hr] at ho
    exact absurd ho List.not_mem_nil
  · rw [hr, List.mem_singleton] at ho
    rw [ho, hreg, hop]
    unfold sendOp
    rw [sendSqe_userData]

theorem sendOp_buf (i : Nat) : (sendOp L i).buf = some ⟨.pool, i⟩ := sendSqe_buf _ _ _ _

theorem send_primed (cap : Nat) : Primed L cap L.sendReg (sendOp L) (sendStart L cap) := by
  have hops : primeOps L = (List.range L.config.inFlight).map (sendOp L) := List.map_map ..
  have hframe : ∀ (ctxs : List IOContext) (s : St),
      (ctxs.foldl (fun s ctx => s.prepSend L ctx) s).engine.reg = s.engine.reg ∧
      (ctxs.foldl (fun s ctx => s.prepSend L ctx) s).freed = s.freed ∧
      (ctxs.foldl (fun s ctx => s.prepSend L ctx) s).pc = s.pc := by
    intro ctxs
    induction ctxs with
    | nil => exact fun s => ⟨rfl, rfl, rfl⟩
    | cons ctx ctxs ih =>
      intro s
      obtain ⟨h1, h2, h3⟩ := ih (s.prepSend L ctx)
      exact ⟨h1.trans (prepSend_frame L s ctx).1, h2, h3⟩
  obtain ⟨h1, h2, h3⟩ := hframe L.sendCtxs (blank L L.sendReg cap)
  exact ⟨hops ▸ start_ring cap, h1, h2, h3⟩

/-! ## the single-shot receive loop -/

/-- the receive into the `i`-th buffer -/
def recvOp (i : Nat) : Sqe :=
  recvSqe L.recvReg L.sockfd (some ⟨.pool, i⟩) L.config.bufSize i (L.recvCtx i) false

theorem rerecv_ring (s : St) (ctx : IOContext) : (s.rerecv L ctx).ring =
    s.ring.pushAll [recvSqe s.engine.reg L.sockfd ctx.bufPtr ctx.length ctx.bufIdx ctx false] := rfl

theorem recv_rotates (hm : L.useMultishot = false) : Rotates (recvCqe L) L.recvReg (recvOp L) := by
  intro s c i hreg hop
  have e : recvCqe L s c = onRecv L s (L.recvCtx i) c.toCompletion := by
    unfold recvCqe
    rw [if_neg (by rw [hm]; exact Bool.false_ne_true), hop]
    rfl
  have hagain : ∀ s' : St, s'.engine = s.engine → s'.freed = s.freed → ∃ q : List Sqe, (∀ o ∈ q, o = recvOp L i) ∧
      (s'.rerecv L (L.recvCtx i)).ring = s.ring.pushAll q ∧ (s'.rerecv L (L.recvCtx i)).engine.reg = L.recvReg ∧
      (s'.rerecv L (L.recvCtx i)).freed = s.freed := by
    intro s' he hf
    refine ⟨[recvOp L i], fun o ho => List.mem_singleton.mp ho, ?_, ?_, hf⟩
    · rw [rerecv_ring, he, hreg]
      show s'.engine.ring.pushAll _ = _
      rw [he]
      rfl
    · show s'.engine.reg = _
      rw [he, hreg]
  have hidle : ∀ s' : St, s'.engine = s.engine → s'.freed = s.freed → ∃ q : List Sqe, (∀ o ∈ q, o = recvOp L i) ∧
      s'.ring = s.ring.pushAll q ∧ s'.engine.reg = L.recvReg ∧ s'.freed = s.freed := by
    intro s' he hf
    exact ⟨[], fun o ho => absurd ho List.not_mem_nil, congrArg UringEngine.ring he, by rw [he, hreg], hf⟩
  rw [e]
  unfold onRecv
  split
  · split
    · exact hidle _ rfl rfl
    · exact hagain _ rfl rfl
  · split
    · split
      · exact hidle _ rfl rfl
      · exact hagain _ rfl rfl
    · obtain ⟨h1, h2⟩ := errorIfNeg_frame s c.res
      exact hidle _ h1 h2

theorem recv_primed (hm : L.useMultishot = false) (cap : Nat) :
    Primed L cap L.recvReg (recvOp L) (recvStart L cap) := by
  have hframe : ∀ (is : List Nat) (s : St), s.engine.reg = L.recvReg →
      ((is.map L.recvCtx).foldl (fun s ctx => s.rerecv L ctx) s).ring = s.ring.pushAll (is.map (recvOp L)) ∧
      ((is.map L.recvCtx).foldl (fun s ctx => s.rerecv L ctx) s).engine.reg = s.engine.reg ∧
      ((is.map L.recvCtx).foldl (fun s ctx => s.rerecv L ctx) s).freed = s.freed ∧
      ((is.map L.recvCtx).foldl (fun s ctx => s.rerecv L ctx) s).pc = s.pc := by
    intro is
    induction is with
    | nil => exact fun s _ => ⟨rfl, rfl, rfl, rfl⟩
    | cons i is ih =>
      intro s hreg
      obtain ⟨h1, h2, h3, h4⟩ := ih (s.rerecv L (L.recvCtx i)) hreg
      refine ⟨?_, h2, h3, h4⟩
      rw [List.map_cons, List.foldl_cons, h1, rerecv_ring, hreg]
      rfl
  obtain ⟨h1, h2, h3, h4⟩ := hframe (List.range L.config.inFlight) (blank L L.recvReg cap) rfl
  unfold recvStart
  rw [if_neg (by rw [hm]; exact Bool.false_ne_true)]
  exact ⟨congrArg IoRing.submit h1, h2, h3, h4⟩

/-! ## both -/

/-- **A client releases no buffer in use exactly if it never had one in use**: as soon as one operation of the pool has
been queued, some run releases its buffer too early.  The teardown of a single run is clean exactly if the kernel has
nothing left when the loop ends: every operation has posted its last completion and none has been queued again. -/
theorem teardown_iff (cap : Nat) :
    ((∀ s, Trans.Reach (sendStep L) (sendStart L cap) s → Clean s) ↔ min cap L.config.inFlight = 0) ∧
    (∀ s, Trans.Reach (sendStep L) (sendStart L cap) s → s.pc = .done → (Clean s ↔ Drained s.ring)) ∧
    (L.useMultishot = false →
      ((∀ s, Trans.Reach (recvStep L) (recvStart L cap) s → Clean s) ↔ min cap L.config.inFlight = 0) ∧
      ∀ s, Trans.Reach (recvStep L) (recvStart L cap) s → s.pc = .done → (Clean s ↔ Drained s.ring)) := by
  have hsend := send_primed L cap
  refine ⟨hsend.always_clean_iff (send_rotates L) (sendOp_buf L),
    fun s hr hpc => hsend.clean_iff (send_rotates L) (sendOp_buf L) hr hpc, fun hm => ?_⟩
  have hrecv := recv_primed L hm cap
  have hstep : recvStep L = step L (poolBuffers L) (recvCqe L) := by
    unfold recvStep
    rw [if_neg (by rw [hm]; exact Bool.false_ne_true)]
  rw [hstep]
  exact ⟨hrecv.always_clean_iff (recv_rotates L hm) fun _ => rfl,
    fun s hr hpc => hrecv.clean_iff (recv_rotates L hm) (fun _ => rfl) hr hpc⟩

end

/-- a reverse client without multishot receives -/
def singleShotSetup : Setup := worker { reverse := true, multishotRecv := false }

/-- one send, whose result arrives before the signal -/
def oneSendSetup : Setup := worker { inFlight := 1 }

theorem teardown_iff_drained : ∃ s, Trans.Reach (sendStep oneSendSetup) (sendStart oneSendSetup 16) s ∧ s.pc = .done ∧
    s.freed = [⟨.pool, 0⟩] ∧ Clean s := by
  have h : ∃ s, Trans.Reach (sendStep oneSendSetup) (sendStart oneSendSetup 16) s ∧
      s.pc = .done ∧ s.freed = [⟨.pool, 0⟩] ∧ s.ring.sq = [] ∧ s.ring.kern = [] :=
    Trans.exists_reach [.post 0 (.plain 100), .reap, .signal, .cqe, .submit, .finish] (by decide +kernel)
  obtain ⟨s, hreach, hpc, hfreed, hdrained⟩ := h
  exact ⟨s, hreach, hpc, hfreed, ((teardown_iff oneSendSetup 16).2.1 s hreach hpc).mpr hdrained⟩

/-- a zero-copy client -/
def zcSetup : Setup := worker { zeroCopy := true }

/-- every result has been processed after the signal, every notification is still to come -/
def notifiedLate : List Act :=
  (List.range 32).map (fun i => Act.post i ⟨100, true, false, none⟩) ++ [Act.reap, .signal] ++
    List.replicate 32 Act.cqe ++ [Act.submit, .finish]

/-- the first buffer of the pool is released in use -/
def ReleasedInUse (s : St) : Prop :=
  s.pc = .done ∧ (⟨.pool, 0⟩ : Ptr) ∈ s.freed ∧ (⟨.pool, 0⟩ : Ptr) ∈ inUse s.ring

instance (s : St) : Decidable (ReleasedInUse s) := inferInstanceAs (Decidable (_ ∧ _ ∧ _))

/-- **Buffers are released in use**: by a default client that is stopped at once, by a zero-copy client that has
processed all its results, and by a reverse client with single-shot receives. -/
theorem teardown_unclean :
    (∃ s, Trans.Reach (sendStep defaultSetup) (sendStart defaultSetup 256) s ∧ ReleasedInUse s) ∧
    (∃ s, Trans.Reach (sendStep zcSetup) (sendStart zcSetup 256) s ∧ ReleasedInUse s ∧ s.ring.armed Sqe.kind = []) ∧
    ∃ s, Trans.Reach (recvStep singleShotSetup) (recvStart singleShotSetup 256) s ∧ ReleasedInUse s :=
  ⟨Trans.exists_reach [.signal, .finish] (by decide +kernel), Trans.exists_reach notifiedLate (by decide +kernel),
    Trans.exists_reach [.signal, .finish] (by decide +kernel)⟩

end Client
end UringPerf
