import UringPerf.Base.Run
import UringPerf.Base.Single
import UringPerf.Client.Model

/-!
# What one action of a client loop can do

The send loop and the single-shot receive loop keep a fixed pool of operations in rotation: a completion queues
the operation it belongs to again, or nothing.

* `LoopStep`, `step_cases`   the actions of a client loop, for any body;
* `Rotates`                  the body queues only the operation that has been completed;
* `PoolInv`                  every outstanding entry is one of the pool, and the buffers are released at the end;
* `poolInv_step`             a rotating loop keeps this.
-/

namespace UringPerf
namespace Client
open Uring

/-! ## the actions -/

inductive LoopStep (L : Setup) (bufs : List Ptr) (handle : St → Cqe Sqe → St) (s : St) : Act → St → Prop where
  | idle (hpc : s.pc = .head) (hrun : s.running = true) (hn : reaped L s = 0) :
    LoopStep L bufs handle s .reap { s with engine := s.engine.submit }
  | reap (hpc : s.pc = .head) (hrun : s.running = true) (hn : reaped L s ≠ 0) :
    LoopStep L bufs handle s .reap { s with pc := .batch (reaped L s) }
  | cqe (n : Nat) (c : Cqe Sqe) (cs : List (Cqe Sqe)) (hpc : s.pc = .batch (n + 1)) (hcq : s.ring.cq = c :: cs) :
    LoopStep L bufs handle s .cqe { handle s c with engine := (handle s c).engine.cqeSeen, pc := .batch n }
  | submit (hpc : s.pc = .batch 0) :
    LoopStep L bufs handle s .submit { s with engine := s.engine.submit, pc := .head }
  | finish (hpc : s.pc = .head) (hrun : s.running = false) :
    LoopStep L bufs handle s .finish { s with freed := s.freed ++ bufs, pc := .done }
  | signal (hpc : s.pc ≠ .done) : LoopStep L bufs handle s .signal { s with stop := true }
  | post (i : Nat) (c : Completion) (r : IoRing Sqe) (hpc : s.pc ≠ .done) (hr : s.ring.post Sqe.kind i c = some r) :
    LoopStep L bufs handle s (.post i c) (s.withRing r)
  | consume (r : IoRing Sqe) (hpc : s.pc ≠ .done) (hr : s.ring.consume = some r) :
    LoopStep L bufs handle s .consume (s.withRing r)

theorem step_cases {L : Setup} {bufs : List Ptr} {handle : St → Cqe Sqe → St} {s t : St} {a : Act}
    (h : step L bufs handle s a = some t) : LoopStep L bufs handle s a t := by
  cases a with
  | reap =>
    simp only [step] at h
    split at h
    · next hc =>
      split at h
      · next hn =>
        cases h
        exact .idle hc.1 hc.2 hn
      · next hn =>
        cases h
        exact .reap hc.1 hc.2 hn
    · cases h
  | cqe =>
    simp only [step] at h
    split at h
    · next n c cs hpc hcq =>
      cases h
      exact .cqe n c cs hpc hcq
    · cases h
  | submit =>
    simp only [step] at h
    split at h
    · next hpc =>
      cases h
      exact .submit hpc
    · cases h
  | finish =>
    simp only [step] at h
    split at h
    · next hc =>
      cases h
      exact .finish hc.1 hc.2
    · cases h
  | signal =>
    simp only [step] at h
    split at h
    · cases h
    · next hpc =>
      cases h
      exact .signal hpc
  | post i c =>
    simp only [step] at h
    split at h
    · cases h
    · next hpc =>
      obtain ⟨r, hr, rfl⟩ := Option.map_eq_some_iff.mp h
      exact .post i c r hpc hr
  | consume =>
    simp only [step] at h
    split at h
    · cases h
    · next hpc =>
      obtain ⟨r, hr, rfl⟩ := Option.map_eq_some_iff.mp h
      exact .consume r hpc hr

/-! ## loops over a pool of operations -/

/-- with the registrations `reg`, a completion of the operation `op i` queues that operation or nothing -/
def Rotates (handle : St → Cqe Sqe → St) (reg : Registered) (op : Nat → Sqe) : Prop :=
  ∀ s c i, s.engine.reg = reg → c.op = op i → ∃ q : List Sqe, (∀ o ∈ q, o = op i) ∧
    (handle s c).ring = s.ring.pushAll q ∧ (handle s c).engine.reg = reg ∧ (handle s c).freed = s.freed

/-- the state before the loop: the first operations of the pool are queued, as many as there is room for -/
structure Primed (L : Setup) (cap : Nat) (reg : Registered) (op : Nat → Sqe) (s : St) : Prop where
  ring : s.ring = ((IoRing.init cap L.sqpoll).pushAll ((List.range L.config.inFlight).map op)).submit
  reg : s.engine.reg = reg
  freed : s.freed = []
  pc : s.pc = .head

structure PoolInv (n : Nat) (bufs : List Ptr) (reg : Registered) (op : Nat → Sqe) (s : St) : Prop where
  reg : s.engine.reg = reg
  ops : ∀ o ∈ s.ring.outstanding, ∃ i < n, o = op i
  freed : s.freed = if s.pc = .done then bufs else []

section
variable {L : Setup} {n cap : Nat} {bufs : List Ptr} {handle : St → Cqe Sqe → St} {reg : Registered}
  {op : Nat → Sqe} {s t : St} {a : Act}

/-- what the loop does outside its completions -/
theorem PoolInv.quiet (h : PoolInv n bufs reg op s) (hpc : s.pc ≠ .done) (hreg : t.engine.reg = s.engine.reg)
    (hops : ∀ o ∈ t.ring.outstanding, o ∈ s.ring.outstanding) (hfreed : t.freed = s.freed) (hpc' : t.pc ≠ .done) :
    PoolInv n bufs reg op t where
  reg := hreg.trans h.reg
  ops := fun o ho => h.ops o (hops o ho)
  freed := by
    rw [hfreed, h.freed, if_neg hpc, if_neg hpc']

theorem poolInv_step (hrot : Rotates handle reg op) (s : St) (a : Act) (t : St) (h : PoolInv n bufs reg op s)
    (hst : step L bufs handle s a = some t) : PoolInv n bufs reg op t := by
  have hhead : s.pc = .head → s.pc ≠ .done := fun e => by rw [e]; exact Pc.noConfusion
  have hbatch : ∀ k, s.pc = .batch k → s.pc ≠ .done := fun k e => by rw [e]; exact Pc.noConfusion
  cases step_cases hst with
  | idle hpc hrun hn => exact h.quiet (hhead hpc) rfl (fun o => IoRing.mem_outstanding_submit.mp) rfl (hhead hpc)
  | reap hpc hrun hn => exact h.quiet (hhead hpc) rfl (fun o => id) rfl Pc.noConfusion
  | submit hpc => exact h.quiet (hbatch 0 hpc) rfl (fun o => IoRing.mem_outstanding_submit.mp) rfl Pc.noConfusion
  | signal hpc => exact h.quiet hpc rfl (fun o => id) rfl hpc
  | post i c r hpc hr => exact h.quiet hpc rfl (fun o => (IoRing.mem_outstanding_post hr).mp) rfl hpc
  | consume r hpc hr => exact h.quiet hpc rfl (fun o => (IoRing.mem_outstanding_consume hr).mp) rfl hpc
  | finish hpc hrun =>
    refine ⟨h.reg, h.ops, ?_⟩
    show s.freed ++ bufs = bufs
    rw [h.freed, if_neg (hhead hpc), List.nil_append]
  | cqe k c cs hpc hcq =>
    obtain ⟨i, hi, hop⟩ := h.ops c.op ((IoRing.mem_outstanding_seen hcq).mpr (Or.inl rfl))
    obtain ⟨q, hq, hring, hreg, hfreed⟩ := hrot s c i h.reg hop
    refine ⟨hreg, fun o ho => ?_, ?_⟩
    · replace ho : o ∈ (handle s c).ring.seen.outstanding := ho
      rw [hring, IoRing.pushAll_seen] at ho
      rcases IoRing.mem_outstanding_pushAll q ho with ho | ho
      · exact h.ops o ((IoRing.mem_outstanding_seen hcq).mpr (Or.inr ho))
      · exact ⟨i, hi, hq o ho⟩
    · show (handle s c).freed = []
      rw [hfreed, h.freed, if_neg (hbatch _ hpc)]

/-- the operations that fit are the first ones of the pool -/
theorem Primed.ops (h : Primed L cap reg op s) {o : Sqe} :
    o ∈ s.ring.outstanding ↔ ∃ i < min cap L.config.inFlight, o = op i := by
  have hq := (IoRing.pushAll_sq (IoRing.init cap L.sqpoll) ((List.range L.config.inFlight).map op)).1
  replace hq : _ = [] ++ ((List.range L.config.inFlight).map op).take (cap - 0) := hq
  rw [List.nil_append, Nat.sub_zero, ← List.map_take, List.take_range] at hq
  rw [h.ring, IoRing.mem_outstanding_submit, IoRing.mem_outstanding, hq, IoRing.pushAll_kern, IoRing.pushAll_cq]
  show o ∈ _ ∨ (∃ p ∈ [], _) ∨ (∃ c ∈ [], _) ↔ _
  simp only [List.not_mem_nil, false_and, exists_false, or_false, List.mem_map, List.mem_range]
  exact exists_congr fun i => and_congr_right fun _ => eq_comm

theorem Primed.inv (h : Primed L cap reg op s) : PoolInv (min cap L.config.inFlight) bufs reg op s where
  reg := h.reg
  ops := fun o ho => h.ops.mp ho
  freed := by
    rw [h.freed, h.pc]
    rfl

theorem Primed.reach (h : Primed L cap reg op s) (hrot : Rotates handle reg op)
    (hr : Trans.Reach (step L bufs handle) s t) : PoolInv (min cap L.config.inFlight) bufs reg op t :=
  hr.inv h.inv (poolInv_step hrot)

end
end Client
end UringPerf
