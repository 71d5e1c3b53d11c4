import UringPerf.Client.Effect
import UringPerf.Base.Run
import UringPerf.Base.Single
import Mathlib.Data.List.Nodup

/-!
# The send rotation

The send loop of a client keeps every buffer in rotation: a send is queued again when its result has been
processed, once, and leaves the rotation only with an error that is counted.

* `resend`         the entry a completion queues again;
* `SendStep`       what the processing of one completion changes;
* `SendInv`        outstanding sends and errors add up, and no context is used twice;
* `send_rotation`  the invariant in every reachable state.
-/

namespace UringPerf
namespace Client
open Uring

section
variable (L : Setup)

/-! ## one completion -/

def resend (s : St) (c : Cqe Sqe) : List Sqe :=
  if !c.notif && isRepeat c.res && !s.stop then
    [sendSqe s.engine.reg L.config.zeroCopy c.op.userData L.useFixedFile]
  else []

/-- the completion is counted as an error -/
def failed (c : Completion) : Bool := !c.notif && decide (c.res < 0) && !isAgain c.res

structure SendStep (s t : St) (c : Cqe Sqe) (cs : List (Cqe Sqe)) : Prop where
  cq : s.ring.cq = c :: cs
  ring : t.ring = s.ring.seen.pushAll (resend L s c)
  errors : t.stats.errors = s.stats.errors + if failed c.toCompletion then 1 else 0
  stop : t.stop = s.stop

variable {L}

theorem prepSend_ring (s : St) (ctx : IOContext) : (s.prepSend L ctx).ring =
    (s.ring.push (sendSqe s.engine.reg L.config.zeroCopy ctx L.useFixedFile)).2 := by
  show (s.engine.prepSend L.config.zeroCopy ctx L.useFixedFile).2.ring = _
  rw [UringEngine.prepSend_eq, UringEngine.queue_ring]
  rfl

/-- the part that a positive result and a transient error share -/
def St.sendAgain (L : Setup) (s : St) (ctx : IOContext) : St :=
  if s.stop then s else s.prepSend L ctx

theorem onSend_repeat {s : St} {ctx : IOContext} {c : Completion} (hn : c.notif = false)
    (h : isRepeat c.res = true) : ∃ s' : St, onSend L s ctx c = s'.sendAgain L ctx ∧
      s'.engine = s.engine ∧ s'.stats.errors = s.stats.errors ∧ s'.stop = s.stop := by
  unfold onSend
  rw [hn, if_neg Bool.false_ne_true]
  by_cases hpos : 0 < c.res
  · rw [if_pos hpos]
    exact ⟨s.addBytes c.res (sendPackets L c.res), rfl, rfl, rfl, rfl⟩
  · have ha : isAgain c.res = true := by
      unfold isRepeat at h
      rw [decide_eq_false hpos, Bool.false_or] at h
      exact h
    rw [if_neg hpos, if_pos ha]
    exact ⟨s, rfl, rfl, rfl, rfl⟩

theorem onSend_other {s : St} {ctx : IOContext} {c : Completion} (hn : c.notif = false)
    (h : isRepeat c.res = false) : onSend L s ctx c = s.errorIfNeg c.res := by
  obtain ⟨h1, h2⟩ := Bool.or_eq_false_iff.mp h
  unfold onSend
  rw [hn, if_neg Bool.false_ne_true, if_neg (of_decide_eq_false h1), h2]
  rfl

theorem failed_of_repeat {c : Completion} (h : isRepeat c.res = true) : failed c = false := by
  unfold failed
  rcases (Bool.or_eq_true _ _).mp h with h | h
  · have hpos : 0 < c.res := of_decide_eq_true h
    rw [decide_eq_false (by omega : ¬ c.res < 0), Bool.and_false, Bool.false_and]
  · rw [h, Bool.not_true, Bool.and_false]

theorem sendCqe_effect (s : St) (c : Cqe Sqe) :
    (sendCqe L s c).ring = s.ring.pushAll (resend L s c) ∧
    (sendCqe L s c).stats.errors = s.stats.errors + (if failed c.toCompletion then 1 else 0) ∧
    (sendCqe L s c).stop = s.stop := by
  unfold sendCqe
  cases hn : c.notif with
  | true =>
    have hr : resend L s c = [] := by
      unfold resend
      rw [hn]
      rfl
    have hf : failed c.toCompletion = false := by
      unfold failed
      rw [hn]
      rfl
    have he : onSend L s c.op.userData c.toCompletion =
        { s with stats := s.stats.addZcNotification } := if_pos hn
    rw [hr, hf, he]
    exact ⟨rfl, rfl, rfl⟩
  | false =>
    cases hrep : isRepeat c.res with
    | true =>
      obtain ⟨s', he, heng, herr, hstop⟩ :=
        @onSend_repeat L s c.op.userData c.toCompletion hn hrep
      have hring : s'.ring = s.ring := congrArg UringEngine.ring heng
      rw [he, failed_of_repeat hrep]
      unfold St.sendAgain resend
      rw [hn, hrep]
      cases hs : s.stop with
      | true =>
        rw [if_pos (hstop.trans hs)]
        exact ⟨hring, herr, hstop.trans hs⟩
      | false =>
        have hgo : ¬ s'.stop = true := by
          rw [hstop, hs]
          exact Bool.false_ne_true
        rw [if_neg hgo]
        refine ⟨?_, herr, hstop.trans hs⟩
        rw [prepSend_ring, hring, heng]
        rfl
    | false =>
      have hr : resend L s c = [] := by
        unfold resend
        rw [hrep, Bool.and_false]
        rfl
      have hag : isAgain c.res = false := (Bool.or_eq_false_iff.mp hrep).2
      have hf : failed c.toCompletion = decide (c.res < 0) := by
        unfold failed
        rw [hn, hag, Bool.not_false, Bool.true_and, Bool.and_true]
      rw [onSend_other hn hrep, hr, hf]
      unfold St.errorIfNeg
      by_cases hneg : c.res < 0
      · rw [if_pos hneg, decide_eq_true hneg]
        exact ⟨rfl, rfl, rfl⟩
      · rw [if_neg hneg, decide_eq_false hneg]
        exact ⟨rfl, rfl, rfl⟩

theorem seen_ring (t : St) (n : Nat) :
    St.ring { t with engine := t.engine.cqeSeen, pc := .batch n } = t.ring.seen := rfl

/-! ## the actions -/

/-- a kernel that never completes a send with 0 -/
def Honest : Act → Bool
  | .post _ c => c.notif || c.res != 0
  | _ => true

/-- the send loop over such a kernel -/
def honestStep (L : Setup) (s : St) (a : Act) : Option St :=
  if Honest a then sendStep L s a else none

/-- what an action does to the ring, the error count and the signal -/
inductive Effect (L : Setup) (s t : St) : Prop where
  | cqe (c : Cqe Sqe) (cs : List (Cqe Sqe)) (h : SendStep L s t c cs)
  | submit (ring : t.ring = s.ring.submit) (errors : t.stats = s.stats) (stop : t.stop = s.stop)
  | consume (ring : s.ring.consume = some t.ring) (errors : t.stats = s.stats) (stop : t.stop = s.stop)
  | post (i : Nat) (c : Completion) (ring : s.ring.post Sqe.kind i c = some t.ring)
      (honest : c.notif = false → c.res ≠ 0) (errors : t.stats = s.stats) (stop : t.stop = s.stop)
  | idle (ring : t.ring = s.ring) (errors : t.stats = s.stats) (stop : t.stop = false → s.stop = false)

theorem step_effect {s t : St} {a : Act} (h : honestStep L s a = some t) : Effect L s t := by
  unfold honestStep at h
  split at h
  · next hh =>
    cases step_cases h with
    | idle | submit => exact .submit rfl rfl rfl
    | reap | finish => exact .idle rfl rfl id
    | signal => exact .idle rfl rfl nofun
    | cqe n c cs hpc hcq =>
      obtain ⟨h1, h2, h3⟩ := @sendCqe_effect L s c
      refine .cqe c cs ⟨hcq, ?_, h2, h3⟩
      rw [seen_ring, h1, IoRing.pushAll_seen]
    | post i c r hpc hr =>
      refine .post i c hr (fun hn => ?_) rfl rfl
      replace hh : (c.notif || c.res != 0) = true := hh
      rw [hn, Bool.false_or, bne_iff_ne] at hh
      exact hh
    | consume r hpc hr => exact .consume hr rfl rfl
  · cases h

/-! ## the invariant -/

def ctxKey (o : Sqe) : Option IOContext := some o.userData

structure SendInv (L : Setup) (cap : Nat) (s : St) : Prop where
  entries : s.ring.cap = cap
  sends : ∀ o ∈ s.ring.outstanding, o.opcode = .send ∨ o.opcode = .sendZc
  cqes : ∀ c ∈ s.ring.cq, (Sqe.kind c.op).closes c.toCompletion = !c.notif ∧
    (c.notif = false → c.res ≠ 0)
  once : ∀ ctx, s.ring.armedIn Sqe.kind ctxKey ctx ≤ 1
  count : s.stop = false →
    s.ring.armedIn Sqe.kind IoRing.allKey () + s.stats.errors = min cap L.config.inFlight
  nulls : s.ring.nulls = L.config.inFlight - min cap L.config.inFlight

/-- a send is closed by its result, not by the notification -/
theorem closes_send {o : Sqe} {w : Bool} {c : Completion} (ho : o.opcode = .send ∨ o.opcode = .sendZc)
    (ha : (Sqe.kind o).allows w c = true) : (Sqe.kind o).closes c = !c.notif := by
  rcases ho with ho | ho
  · have hk : Sqe.kind o = .once := by
      unfold Sqe.kind
      rw [ho]
      rfl
    rw [hk] at ha ⊢
    have hn : c.notif = false := by
      simp only [Kind.allows, Bool.and_eq_true, Bool.not_eq_true'] at ha
      exact ha.1.2
    rw [hn]
    rfl
  · have hk : Sqe.kind o = .zerocopy := by
      unfold Sqe.kind
      rw [ho]
      rfl
    rw [hk]
    rfl

/-- a result that is neither repeated nor counted as an error would be lost; there is none -/
theorem lost_or_failed {s : St} {c : Cqe Sqe} (hs : s.stop = false) (hn : c.notif = false)
    (h0 : c.res ≠ 0) : (resend L s c = [] ∧ failed c.toCompletion = true) ∨
      (resend L s c = [sendSqe s.engine.reg L.config.zeroCopy c.op.userData L.useFixedFile] ∧
        failed c.toCompletion = false) := by
  unfold resend
  rw [hn, hs]
  cases hrep : isRepeat c.res with
  | true => exact Or.inr ⟨rfl, failed_of_repeat hrep⟩
  | false =>
    obtain ⟨h1, h2⟩ := Bool.or_eq_false_iff.mp hrep
    have hpos : ¬ 0 < c.res := of_decide_eq_false h1
    refine Or.inl ⟨rfl, ?_⟩
    unfold failed
    rw [hn, h2, decide_eq_true (by omega : c.res < 0)]
    rfl

theorem resend_idle {s : St} {c : Cqe Sqe} (h : s.stop = true ∨ c.notif = true) :
    resend L s c = [] := by
  unfold resend
  rcases h with h | h
  · rw [h, Bool.not_true, Bool.and_false]
    rfl
  · rw [h]
    rfl

/-- a completion either queues nothing, or it is the result of a running send that is queued again -/
theorem resend_cases (s : St) (c : Cqe Sqe) : resend L s c = [] ∨
    (resend L s c = [sendSqe s.engine.reg L.config.zeroCopy c.op.userData L.useFixedFile] ∧
      s.stop = false ∧ c.notif = false) := by
  cases hs : s.stop with
  | true => exact Or.inl (resend_idle (Or.inl hs))
  | false =>
    cases hn : c.notif with
    | true => exact Or.inl (resend_idle (Or.inr hn))
    | false =>
      unfold resend
      rw [hn, hs]
      cases isRepeat c.res with
      | true => exact Or.inr ⟨rfl, rfl, rfl⟩
      | false => exact Or.inl rfl

section
variable {cap : Nat} {s t : St} {c : Cqe Sqe} {cs : List (Cqe Sqe)}

/-- **There is room for the send that is queued again**: its own result is still counted. -/
theorem resend_fits (hi : SendInv L cap s) (hcq : s.ring.cq = c :: cs) :
    s.ring.seen.sq.length + (resend L s c).length ≤ s.ring.seen.cap := by
  rcases resend_cases (L := L) s c with hr | ⟨hr, hs, hn⟩
  · rw [hr]
    exact s.ring.seen.sq_le
  · have hcl := (hi.cqes c (by rw [hcq]; exact List.mem_cons_self)).1
    rw [hn] at hcl
    have h1 : s.ring.armedIn Sqe.kind IoRing.allKey () = _ := IoRing.armedIn_seen hcq ()
    rw [if_pos ⟨rfl, hcl⟩] at h1
    have h2 : s.ring.seen.armedIn Sqe.kind IoRing.allKey () = _ := IoRing.armedIn_all s.ring.seen
    have h3 := IoRing.sq_le_armed Sqe.kind s.ring.seen
    have h4 := hi.count hs
    have h5 : s.ring.seen.cap = cap := hi.entries
    rw [hr, List.length_singleton]
    omega

theorem sendInv_cqe (hi : SendInv L cap s) (h : SendStep L s t c cs) : SendInv L cap t := by
  obtain ⟨hcl, h0⟩ := hi.cqes c (by rw [h.cq]; exact List.mem_cons_self)
  have hfit := resend_fits hi h.cq
  -- the armed entries of a group: the result leaves it, the new entry joins it
  have harm : ∀ {κ : Type} [DecidableEq κ] (key : Sqe → Option κ) (k : κ),
      t.ring.armedIn Sqe.kind key k + (if key c.op = some k ∧ (!c.notif) = true then 1 else 0) =
        (resend L s c).countP (fun o => key o = some k) + s.ring.armedIn Sqe.kind key k := by
    intro κ _ key k
    have h1 : s.ring.armedIn Sqe.kind key k = _ := IoRing.armedIn_seen h.cq k
    rw [hcl] at h1
    rw [h.ring, IoRing.armedIn_pushAll_fits _ _ _ hfit, h1]
    omega
  refine ⟨?_, ?_, ?_, ?_, ?_, ?_⟩
  · rw [h.ring, IoRing.pushAll_cap]
    exact hi.entries
  · intro o ho
    rw [h.ring] at ho
    rcases IoRing.mem_outstanding_pushAll _ ho with ho | ho
    · exact hi.sends o ((IoRing.mem_outstanding_seen h.cq).mpr (Or.inr ho))
    · rcases resend_cases (L := L) s c with hr | ⟨hr, -⟩
      · rw [hr] at ho
        exact absurd ho List.not_mem_nil
      · rw [hr, List.mem_singleton] at ho
        rw [ho]
        exact sendSqe_opcode _ _ _ _
  · intro d hd
    rw [h.ring, IoRing.pushAll_cq] at hd
    exact hi.cqes d (List.mem_of_mem_tail hd)
  · intro ctx
    have h1 := harm ctxKey ctx
    have h2 := hi.once ctx
    rcases resend_cases (L := L) s c with hr | ⟨hr, -, hn⟩
    · rw [hr, List.countP_nil] at h1
      omega
    · -- the entry that is queued again has the context of the one that is done
      have hk : ctxKey (sendSqe s.engine.reg L.config.zeroCopy c.op.userData L.useFixedFile)
          = ctxKey c.op := congrArg some (sendSqe_userData _ _ _ _)
      rw [hr, List.countP_singleton, hk, hn] at h1
      simp only [Bool.not_false, and_true, decide_eq_true_eq] at h1
      omega
  · intro hs
    rw [h.stop] at hs
    have h1 := harm IoRing.allKey ()
    have h2 := hi.count hs
    have h3 := h.errors
    cases hn : c.notif with
    | true =>
      have hf : failed c.toCompletion = false := by
        unfold failed
        rw [hn]
        rfl
      rw [resend_idle (Or.inr hn), hn, List.countP_nil, if_neg (fun h => nomatch h.2)] at h1
      rw [hf, if_neg Bool.false_ne_true] at h3
      omega
    | false =>
      rw [hn, if_pos ⟨rfl, rfl⟩] at h1
      rcases @lost_or_failed L s c hs hn (h0 hn) with ⟨hr, hf⟩ | ⟨hr, hf⟩
      · rw [hr, List.countP_nil] at h1
        rw [hf, if_pos rfl] at h3
        omega
      · have hall : IoRing.allKey (sendSqe s.engine.reg L.config.zeroCopy c.op.userData L.useFixedFile)
            = some () := rfl
        rw [hr, List.countP_singleton, hall, if_pos (decide_eq_true rfl)] at h1
        rw [hf, if_neg Bool.false_ne_true] at h3
        omega
  · rw [h.ring, (IoRing.pushAll_fits _ _ hfit).2]
    exact hi.nulls

/-- **Every action keeps the invariant.** -/
theorem sendInv_step (s : St) (a : Act) (t : St) (hi : SendInv L cap s)
    (h : honestStep L s a = some t) : SendInv L cap t := by
  cases step_effect h with
  | cqe c cs h => exact sendInv_cqe hi h
  | submit hr he hs =>
    refine ⟨?_, ?_, ?_, ?_, ?_, ?_⟩
    · rw [hr, IoRing.submit_cap]
      exact hi.entries
    · intro o ho
      rw [hr, IoRing.mem_outstanding_submit] at ho
      exact hi.sends o ho
    · rw [hr, IoRing.submit_cq]
      exact hi.cqes
    · intro ctx
      rw [hr, IoRing.armedIn_submit]
      exact hi.once ctx
    · rw [hr, IoRing.armedIn_submit, he, hs]
      exact hi.count
    · rw [hr, IoRing.submit_nulls]
      exact hi.nulls
  | consume hr he hs =>
    obtain ⟨op, -, -, hc, hcap, -, hnulls, -⟩ := IoRing.consume_some hr
    refine ⟨hcap.trans hi.entries, ?_, ?_, ?_, ?_, hnulls.trans hi.nulls⟩
    · intro o ho
      exact hi.sends o ((IoRing.mem_outstanding_consume hr).mp ho)
    · rw [hc]
      exact hi.cqes
    · intro ctx
      rw [IoRing.armedIn_consume hr]
      exact hi.once ctx
    · rw [IoRing.armedIn_consume hr, he, hs]
      exact hi.count
  | post i c hr hh he hs =>
    obtain ⟨p, rest, -, hperm, hal, -, hc, -, hcap, -, hnulls⟩ := IoRing.post_some hr
    have hp : p.op ∈ s.ring.outstanding :=
      IoRing.mem_outstanding.mpr (Or.inr (Or.inl ⟨p, hperm.mem_iff.mpr List.mem_cons_self, rfl⟩))
    refine ⟨hcap.trans hi.entries, ?_, ?_, ?_, ?_, hnulls.trans hi.nulls⟩
    · intro o ho
      exact hi.sends o ((IoRing.mem_outstanding_post hr).mp ho)
    · intro d hd
      rw [hc] at hd
      rcases List.mem_append.mp hd with hd | hd
      · exact hi.cqes d hd
      · rw [List.mem_singleton.mp hd]
        exact ⟨closes_send (hi.sends _ hp) hal, hh⟩
    · intro ctx
      rw [IoRing.armedIn_post hr]
      exact hi.once ctx
    · rw [IoRing.armedIn_post hr, he, hs]
      exact hi.count
  | idle hr he hs =>
    refine ⟨?_, ?_, ?_, ?_, ?_, ?_⟩
    · rw [hr]
      exact hi.entries
    · rw [hr]
      exact hi.sends
    · rw [hr]
      exact hi.cqes
    · rw [hr]
      exact hi.once
    · intro h
      rw [hr, he]
      exact hi.count (hs h)
    · rw [hr]
      exact hi.nulls

end

/-! ## the state before the loop -/

def primeOps (L : Setup) : List Sqe :=
  L.sendCtxs.map (sendSqe L.sendReg L.config.zeroCopy · L.useFixedFile)

/-- the priming loop, from any state with the registrations of the send loop -/
theorem prime_effect (ctxs : List IOContext) : ∀ s : St, s.engine.reg = L.sendReg →
    (ctxs.foldl (fun s ctx => s.prepSend L ctx) s).ring =
        s.ring.pushAll (ctxs.map (sendSqe L.sendReg L.config.zeroCopy · L.useFixedFile)) ∧
      (ctxs.foldl (fun s ctx => s.prepSend L ctx) s).stats = s.stats := by
  induction ctxs with
  | nil => intro s _; exact ⟨rfl, rfl⟩
  | cons ctx ctxs ih =>
    intro s hreg
    have hreg' : (s.prepSend L ctx).engine.reg = L.sendReg := by
      show (s.engine.prepSend L.config.zeroCopy ctx L.useFixedFile).2.reg = _
      rw [UringEngine.prepSend_eq, UringEngine.queue_reg, hreg]
    obtain ⟨h1, h2⟩ := ih (s.prepSend L ctx) hreg'
    refine ⟨?_, h2⟩
    rw [List.foldl_cons, h1, prepSend_ring, hreg, List.map_cons, IoRing.pushAll_cons]

theorem start_ring (cap : Nat) : (sendStart L cap).ring =
    ((IoRing.init cap L.sqpoll).pushAll (primeOps L)).submit :=
  congrArg IoRing.submit (prime_effect L.sendCtxs (blank L L.sendReg cap) rfl).1

theorem start_errors (cap : Nat) : (sendStart L cap).stats.errors = 0 :=
  congrArg ThreadStats.errors (prime_effect L.sendCtxs (blank L L.sendReg cap) rfl).2

theorem length_primeOps : (primeOps L).length = L.config.inFlight := by
  unfold primeOps Setup.sendCtxs
  rw [List.length_map, List.length_map, List.length_range]

theorem sendCtxs_nodup : L.sendCtxs.Nodup := by
  refine List.Nodup.map (fun i j h => ?_) List.nodup_range
  exact congrArg (fun ctx : IOContext => ctx.addr.idx) h

/-- the priming loop uses every context once -/
theorem primeOps_once (ctx : IOContext) : (primeOps L).countP (fun o => ctxKey o = some ctx) ≤ 1 := by
  have h : (primeOps L).countP (fun o => ctxKey o = some ctx) = L.sendCtxs.count ctx := by
    unfold primeOps List.count
    rw [List.countP_map]
    congr 1
    funext ctx'
    show decide (some (sendSqe _ _ ctx' _).userData = some ctx) = (ctx' == ctx)
    rw [sendSqe_userData, Bool.beq_eq_decide_eq]
    exact decide_eq_decide.mpr Option.some_inj
  rw [h]
  exact List.nodup_iff_count_le_one.mp sendCtxs_nodup ctx

theorem sendInv_start (cap : Nat) : SendInv L cap (sendStart L cap) := by
  have hring := start_ring (L := L) cap
  have hlen := length_primeOps (L := L)
  have hq := IoRing.pushAll_sq (IoRing.init cap L.sqpoll) (primeOps L)
  have hcq : (sendStart L cap).ring.cq = [] := by
    rw [hring, IoRing.submit_cq, IoRing.pushAll_cq]
    rfl
  refine ⟨?_, ?_, ?_, ?_, ?_, ?_⟩
  · rw [hring, IoRing.submit_cap, IoRing.pushAll_cap]
    rfl
  · intro o ho
    rw [hring, IoRing.mem_outstanding_submit] at ho
    rcases IoRing.mem_outstanding_pushAll _ ho with ho | ho
    · exact absurd ho List.not_mem_nil
    · obtain ⟨ctx, -, rfl⟩ := List.mem_map.mp ho
      exact sendSqe_opcode _ _ _ _
  · intro c hc
    rw [hcq] at hc
    exact absurd hc List.not_mem_nil
  · intro ctx
    rw [hring, IoRing.armedIn_submit]
    exact le_trans (IoRing.armedIn_pushAll_le _ _ _) (primeOps_once ctx)
  · intro _
    have h1 : ((IoRing.init cap L.sqpoll).pushAll (primeOps L)).armedIn Sqe.kind IoRing.allKey () = _ :=
      IoRing.armedIn_all _
    have h2 := (IoRing.armed_pushAll Sqe.kind (IoRing.init cap L.sqpoll) (primeOps L)).length_eq
    rw [hring, IoRing.armedIn_submit, start_errors, h1, h2, List.length_append, List.length_take, hlen]
    rfl
  · rw [hring, IoRing.submit_nulls, hq.2, hlen]
    show 0 + (L.config.inFlight - (cap - 0)) = _
    omega

/-- **The rotation is conserved**: for every queue size, with or without polling, each context has at most
one outstanding send, before the signal the outstanding sends and the errors add up to what the priming
loop could queue, and no later send is refused. -/
theorem send_rotation (L : Setup) (cap : Nat) (s : St)
    (h : Trans.Reach (honestStep L) (sendStart L cap) s) :
    (∀ ctx, s.ring.armedIn Sqe.kind ctxKey ctx ≤ 1) ∧
    (s.stop = false →
      (s.ring.armed Sqe.kind).length + s.stats.errors = min cap L.config.inFlight) ∧
    s.ring.nulls = (sendStart L cap).ring.nulls := by
  have hi := h.inv (sendInv_start cap) sendInv_step
  refine ⟨hi.once, fun hs => ?_, hi.nulls.trans (sendInv_start cap).nulls.symm⟩
  have h1 : s.ring.armedIn Sqe.kind IoRing.allKey () = _ := IoRing.armedIn_all s.ring
  rw [← h1]
  exact hi.count hs

/-- a zero-copy client with a polling kernel -/
def zeroCopySetup : Setup := worker { zeroCopy := true, sqpoll := true }

/-- a send with its notification, and one that fails -/
def zeroCopyRun : List Act :=
  [.consume, .consume, .post 0 ⟨100, true, false, none⟩, .post 1 (.plain (-32)), .reap, .cqe, .cqe, .submit,
    .post 0 ⟨0, false, true, none⟩, .reap, .cqe, .submit]

theorem send_rotation_zeroCopy : ∃ s, Trans.Reach (honestStep zeroCopySetup) (sendStart zeroCopySetup 16) s ∧
    s.stop = false ∧ s.stats.errors = 1 ∧ (s.ring.armed Sqe.kind).length = 15 := by
  have h : ∃ s, Trans.Reach (honestStep zeroCopySetup) (sendStart zeroCopySetup 16) s ∧ s.stop = false ∧
      s.stats.errors = 1 := Trans.exists_reach zeroCopyRun (by decide +kernel)
  obtain ⟨s, hreach, hstop, herr⟩ := h
  have hcount := (send_rotation zeroCopySetup 16 s hreach).2.1 hstop
  rw [herr] at hcount
  exact ⟨s, hreach, hstop, herr, Nat.succ.inj hcount⟩

end
end Client
end UringPerf
