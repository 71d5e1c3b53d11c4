import UringPerf.Engine.Plain

/-!
# The completion loops stop

Once the condition of its `while` no longer holds, a loop is left after a bounded number of its own steps, whatever
the kernel and the other threads do meanwhile: no more pointers are collected than a batch may have, and a loop over the
ring cannot meet more completions than the ring has slots, since it releases none of them before its end.

* `Loop.Halts`, `ForEach.Halts`   a condition that ends the loop and that nothing undoes;
* `Batch.rank`, `Each.rank`       how many steps of the worker are left (`Batch.ranked`, `Each.ranked`);
* `Batch.finishes`, `Each.finishes`   the loop is left after that many.
-/

namespace UringPerf
open Trans Circular

section
variable {σ ε χ κ : Type} {base : UInt32}

def Batch.Act.isWorker : Batch.Act χ κ → Bool
  | .worker _ => true
  | .outside _ => false

/-! ## loops over batches -/

/-- `P` ends the loop, and neither the loop nor anything outside undoes it -/
structure Loop.Halts (loop : Loop σ ε χ) (outside : κ → σ → Option (σ × Option ε)) (P : σ → Prop) : Prop where
  running : ∀ s, P s → loop.running s = false
  idle : ∀ s, P s → P (loop.idle s)
  flush : ∀ s, P s → P (loop.flush s)
  handle : ∀ x s c, P s → P (loop.handle x s c)
  outside : ∀ e s r, outside e s = some r → P s → P r.1

namespace Batch

/-- the steps of the worker that are left, if the loop is not entered again -/
def rank (loop : Loop σ ε χ) : Phase σ ε → Nat
  | .exited => 0
  | .top => 1
  | .flush => 2
  | .batch cqes => 3 + 4 * cqes.length
  | .run _ todo cqes => 4 + 4 * cqes.length + todo.length
  | .reap _ cqesOut => 4 + 4 * cqesOut.length + 5 * (loop.maxReap.toNat - cqesOut.length)

variable {loop : Loop σ ε χ} {outside : κ → σ → Option (σ × Option ε)} {s t : St σ ε}

theorem length_body (ha : loop.Atomic) (x : χ) (app : σ) (c : ε) : (loop.body x app c).length ≤ 2 := by
  obtain ⟨f, hf⟩ | hf := ha x c
  · rw [hf]
    exact le_rfl
  · rw [hf]
    exact Nat.le_succ _

theorem rank_reaped (loop : Loop σ ε χ) (s : St σ ε) (cqesOut : List UInt32) :
    rank loop (reaped loop s cqesOut).phase ≤ 3 + 4 * cqesOut.length := by
  unfold reaped
  split
  · show 1 ≤ _
    omega
  · exact le_rfl

/-- every step of the worker lowers the rank, but the one that enters the loop -/
theorem rank_worker (ha : loop.Atomic) {x : χ} (hst : workerStep loop s x = some t) :
    rank loop t.phase + 1 ≤ rank loop s.phase ∨
    (s.phase = .top ∧ loop.running s.app = true ∧ rank loop t.phase = 4 + 5 * loop.maxReap.toNat) := by
  unfold workerStep at hst
  split at hst
  next hph =>
    split at hst
    next hrun =>
      cases hst
      exact Or.inr ⟨hph, hrun, by show 4 + 4 * 0 + 5 * (_ - 0) = _; omega⟩
    next hrun =>
      cases hst
      rw [hph]
      exact Or.inl le_rfl
  next head cqesOut hph =>
    have hreaped := rank_reaped loop s cqesOut
    have hrank : rank loop s.phase = 4 + 4 * cqesOut.length + 5 * (loop.maxReap.toNat - cqesOut.length) := by
      rw [hph]
      rfl
    left
    split at hst
    · cases hst
      omega
    · split at hst
      · cases hst
        omega
      · cases hst
        show 4 + 4 * (cqesOut ++ [_]).length + 5 * (_ - (cqesOut ++ [_]).length) + 1 ≤ _
        rw [hrank, List.length_append, List.length_singleton]
        omega
  next hph =>
    cases hst
    rw [hph]
    exact Or.inl le_rfl
  next cqe cqes hph =>
    cases hst
    rw [hph]
    have hbody := length_body ha x s.app (s.log.cq.cqes cqe)
    left
    show 4 + 4 * cqes.length + (loop.body x s.app _).length + 1 ≤ 3 + 4 * (cqes.length + 1)
    omega
  next cqe f todo cqes hph =>
    cases hst
    rw [hph]
    exact Or.inl le_rfl
  next cqe todo cqes hph =>
    cases hst
    rw [hph]
    exact Or.inl le_rfl
  next cqe cqes hph =>
    cases hst
    rw [hph]
    left
    show 3 + 4 * cqes.length + 1 ≤ 4 + 4 * cqes.length + 0
    omega
  next hph =>
    cases hst
    rw [hph]
    exact Or.inl le_rfl
  next => cases hst

theorem worker_live (x : χ) : s.phase = .exited ∨ (workerStep loop s x).isSome = true := by
  unfold workerStep
  split
  · split <;> exact Or.inr rfl
  · split
    · exact Or.inr rfl
    · split <;> exact Or.inr rfl
  · exact Or.inr rfl
  · exact Or.inr rfl
  · exact Or.inr rfl
  · exact Or.inr rfl
  · exact Or.inr rfl
  · exact Or.inr rfl
  next hph => exact Or.inl hph

theorem worker_exited {x : χ} (h : s.phase = .exited) : workerStep loop s x = none := by
  unfold workerStep
  rw [h]

theorem plain_halts {P : σ → Prop} (hP : loop.Halts outside P) (p : Plain.St σ ε) (a : Plain.Act χ κ)
    (p' : Plain.St σ ε) (h : P p.app) (hst : Plain.step loop outside p a = some p') : P p'.app := by
  cases a with
  | test x =>
    simp only [Plain.step] at hst
    rw [hP.running p.app h] at hst
    split at hst
    · cases hst
      exact h
    · cases hst
  | reap =>
    simp only [Plain.step] at hst
    split at hst
    · split at hst
      · cases hst
        exact hP.idle _ h
      · cases hst
        exact h
    · cases hst
  | cqe x =>
    simp only [Plain.step] at hst
    split at hst
    · cases hst
      exact hP.handle x _ _ h
    · cases hst
  | flush =>
    simp only [Plain.step] at hst
    split at hst
    · cases hst
      exact hP.flush _ h
    · cases hst
  | outside e =>
    obtain ⟨r, hr, rfl⟩ := Option.map_eq_some_iff.mp hst
    exact hP.outside e _ r hr h

/-- what holds in every run from the start of the loop -/
structure Counted (loop : Loop σ ε χ) (base : UInt32) (s : St σ ε) : Prop where
  inv : Inv base s
  fits : Fits loop s.log s.phase
  le : rank loop s.phase ≤ 5 * loop.maxReap.toNat + 4

theorem counted_start {mask : UInt32} (hm : IsMask mask) (cqes : UInt32 → ε) (app : σ) :
    Counted loop base (start mask base cqes app) :=
  ⟨inv_start hm cqes app, trivial, by show 1 ≤ _; omega⟩

theorem counted_step (ha : loop.Atomic) (hmax : loop.maxReap.toNat < 2^31) (s : St σ ε) (a : Act χ κ) (t : St σ ε)
    (h : Counted loop base s) (hst : step loop outside s a = some t) : Counted loop base t := by
  obtain ⟨hi, hf, hrank⟩ := h
  cases a with
  | worker x =>
    refine ⟨inv_worker ha.releases hi hst, (plain_worker ha hmax outside hi hf hst).1, ?_⟩
    rcases rank_worker ha hst with hlt | ⟨-, -, he⟩
    · omega
    · omega
  | outside e =>
    refine ⟨inv_outside hi hst, (plain_outside hi hf hst).1, ?_⟩
    obtain ⟨r, -, hm⟩ := Option.bind_eq_some_iff.mp hst
    obtain ⟨l, -, rfl⟩ := Option.map_eq_some_iff.mp hm
    exact hrank

/-- when the condition of the loop has ended, or the loop has been left, its steps lower the rank -/
theorem ranked {P : σ → Prop} (hP : loop.Halts outside P) (ha : loop.Atomic) (hmax : loop.maxReap.toNat < 2^31) :
    Ranked (step loop outside) Act.isWorker (fun t => t.phase = .exited)
      (fun s => Counted loop base s ∧ (s.phase = .exited ∨ P s.app)) (fun s => rank loop s.phase) where
  inv := by
    rintro s a t ⟨hc, hs⟩ hst
    refine ⟨counted_step ha hmax s a t hc hst, ?_⟩
    cases a with
    | worker x =>
      rcases hs with hph | hs
      · rw [show step loop outside s (.worker x) = none from worker_exited hph] at hst
        cases hst
      · have hr := (plain_worker ha hmax outside hc.inv hc.fits hst).2
        exact Or.inr (hr.inv (I := fun p => P p.app) hs (plain_halts hP))
    | outside e =>
      have hr := (plain_outside hc.inv hc.fits hst).2
      obtain ⟨r, -, hm⟩ := Option.bind_eq_some_iff.mp hst
      obtain ⟨l, -, rfl⟩ := Option.map_eq_some_iff.mp hm
      exact hs.imp id fun hs => plain_halts hP _ _ _ hs hr
  lowers := by
    rintro s a t ⟨-, hs⟩ hst
    cases a with
    | worker x =>
      rcases rank_worker ha hst with hlt | ⟨htop, hrun, -⟩
      · exact hlt
      · rcases hs with hph | hs
        · rw [hph] at htop
          cases htop
        · rw [hP.running s.app hs] at hrun
          cases hrun
    | outside e =>
      obtain ⟨r, -, hm⟩ := Option.bind_eq_some_iff.mp hst
      obtain ⟨l, -, rfl⟩ := Option.map_eq_some_iff.mp hm
      exact le_rfl
  live := by
    rintro s -
    by_cases hph : s.phase = .exited
    · exact Or.inl hph
    · refine Or.inr fun a ha => ?_
      cases a with
      | worker x => exact (worker_live x).resolve_left hph
      | outside e => cases ha

/-- **A loop over batches stops**: from any state it can be in when its condition has ended, after at most
`5 * max_reap + 4` of its own steps. -/
theorem finishes {P : σ → Prop} (hP : loop.Halts outside P) (ha : loop.Atomic) (hmax : loop.maxReap.toNat < 2^31)
    {mask : UInt32} (hm : IsMask mask) {cqes : UInt32 → ε} {app : σ}
    (h : Reach (step loop outside) (start mask base cqes app) s) (hs : P s.app) :
    Finishes (step loop outside) Act.isWorker (fun t => t.phase = .exited) s (5 * loop.maxReap.toNat + 4) := by
  have hcounted : Counted loop base s := h.inv (counted_start hm cqes app) (counted_step ha hmax)
  exact ((ranked hP ha hmax).finishes ⟨hcounted, Or.inr hs⟩).mono hcounted.le

end Batch

/-! ## loops over the ring -/

structure ForEach.Halts (loop : ForEach σ ε χ) (outside : κ → σ → Option (σ × Option ε)) (P : σ → Prop) : Prop where
  running : ∀ s, P s → loop.running s = false
  handle : ∀ x s c, P s → P (loop.handle x s c)
  outside : ∀ e s r, outside e s = some r → P s → P r.1

namespace Each

/-- the steps of the worker that are left, in a ring of `size` slots -/
def rank (size : Nat) : Phase σ ε → Nat
  | .exited => 0
  | .top => 1
  | .each _ count => 2 + 3 * (size - count.toNat)
  | .run _ count _ todo => 3 + 3 * (size - count.toNat - 1) + todo.length

variable {loop : ForEach σ ε χ} {outside : κ → σ → Option (σ × Option ε)} {s t : St σ ε}

/-- every step of the worker lowers the rank, but the one that enters the loop -/
theorem rank_worker (ha : loop.Atomic) {x : χ} (h : Inv base s) (hst : workerStep loop s x = some t) :
    rank (s.log.cq.ringMask.toNat + 1) t.phase + 1 ≤ rank (s.log.cq.ringMask.toNat + 1) s.phase ∨
    (s.phase = .top ∧ loop.running s.app = true ∧
      rank (s.log.cq.ringMask.toNat + 1) t.phase = 2 + 3 * (s.log.cq.ringMask.toNat + 1)) := by
  obtain ⟨-, -, hs, hp⟩ := h
  unfold workerStep at hst
  split at hst
  next hph =>
    rw [hph]
    split at hst
    next hrun =>
      split at hst
      · cases hst
        exact Or.inl le_rfl
      · cases hst
        exact Or.inr ⟨rfl, hrun, rfl⟩
    · cases hst
      exact Or.inl le_rfl
  next head count hph =>
    rw [hph] at hs hp ⊢
    change s.log.Sound base count.toNat at hs
    obtain rfl : head = s.log.cq.khead + count := hp
    left
    split at hst
    · cases hst
      show 1 + 1 ≤ 2 + 3 * (s.log.cq.ringMask.toNat + 1 - count.toNat)
      omega
    next cqe hnext =>
      cases hst
      rw [next_eq hs] at hnext
      split at hnext
      next hlt =>
        have hfits := hs.fits
        obtain ⟨f, hb⟩ := ha x (s.log.cq.cqes cqe)
        show 3 + 3 * (s.log.cq.ringMask.toNat + 1 - count.toNat - 1) + (loop.body x s.app _).length + 1 ≤
          2 + 3 * (s.log.cq.ringMask.toNat + 1 - count.toNat)
        rw [hb, List.length_singleton]
        omega
      · cases hnext
  next head count cqe f todo hph =>
    cases hst
    rw [hph]
    exact Or.inl le_rfl
  next head count cqe hph =>
    cases hst
    rw [hph] at hs ⊢
    change s.log.Sound base (count.toNat + 1) at hs
    have hlt : count.toNat + 1 < 2^32 := Nat.lt_of_le_of_lt hs.held_le_length hs.length_lt
    have hcount : (count + 1).toNat = count.toNat + 1 := by
      rw [UInt32.toNat_add]
      exact Nat.mod_eq_of_lt hlt
    left
    show 2 + 3 * (s.log.cq.ringMask.toNat + 1 - (count + 1).toNat) + 1 ≤
      3 + 3 * (s.log.cq.ringMask.toNat + 1 - count.toNat - 1) + 0
    rw [hcount]
    omega
  next => cases hst

theorem worker_live (x : χ) : s.phase = .exited ∨ (workerStep loop s x).isSome = true := by
  unfold workerStep
  split
  · split
    · split <;> exact Or.inr rfl
    · exact Or.inr rfl
  · split <;> exact Or.inr rfl
  · exact Or.inr rfl
  · exact Or.inr rfl
  next hph => exact Or.inl hph

theorem worker_exited {x : χ} (h : s.phase = .exited) : workerStep loop s x = none := by
  unfold workerStep
  rw [h]

theorem plain_halts {P : σ → Prop} (hP : loop.Halts outside P) (p : Whole.St σ ε) (a : Whole.Act χ κ)
    (p' : Whole.St σ ε) (h : P p.app) (hst : Whole.step loop outside p a = some p') : P p'.app := by
  cases a with
  | wait x =>
    simp only [Whole.step] at hst
    rw [hP.running p.app h] at hst
    split at hst
    · cases hst
      exact h
    · cases hst
  | cqe x =>
    simp only [Whole.step] at hst
    split at hst
    · cases hst
      exact hP.handle x _ _ h
    · cases hst
  | advance =>
    simp only [Whole.step] at hst
    split at hst
    · cases hst
      exact h
    · cases hst
  | outside e =>
    obtain ⟨r, hr, rfl⟩ := Option.map_eq_some_iff.mp hst
    exact hP.outside e _ r hr h

/-- the size of the ring does not change -/
theorem mask_step {a : Batch.Act χ κ} (h : Inv base s) (hst : step loop outside s a = some t) :
    t.log.cq.ringMask = s.log.cq.ringMask := by
  cases a with
  | worker x =>
    replace hst : workerStep loop s x = some t := hst
    unfold workerStep at hst
    split at hst
    · split at hst
      · split at hst
        · cases hst
          rfl
        · cases hst
          rfl
      · cases hst
        rfl
    · split at hst
      · cases hst
        rfl
      · cases hst
        rfl
    · cases hst
      rfl
    · cases hst
      rfl
    · cases hst
  | outside e =>
    obtain ⟨r, -, hm⟩ := Option.bind_eq_some_iff.mp hst
    obtain ⟨l, hl, rfl⟩ := Option.map_eq_some_iff.mp hm
    exact (h.sound.outside hl).2.mask

/-- what holds in every run from the start of the loop -/
structure Counted (loop : ForEach σ ε χ) (base mask : UInt32) (s : St σ ε) : Prop where
  inv : Inv base s
  fits : Fits loop (fun _ _ => True) s.app s.log s.phase
  ring : s.log.cq.ringMask = mask
  le : rank (mask.toNat + 1) s.phase ≤ 3 * (mask.toNat + 1) + 2

theorem counted_step (ha : loop.Atomic) {mask : UInt32} (s : St σ ε) (a : Batch.Act χ κ) (t : St σ ε)
    (h : Counted loop base mask s) (hst : step loop outside s a = some t) : Counted loop base mask t := by
  obtain ⟨hi, hf, rfl, hrank⟩ := h
  have hmask := mask_step hi hst
  cases a with
  | worker x =>
    refine ⟨inv_worker hi hst, (plain_worker ha outside hi hf trivial hst).1, hmask, ?_⟩
    rcases rank_worker ha hi hst with hlt | ⟨-, -, he⟩
    · omega
    · omega
  | outside e =>
    refine ⟨inv_outside hi hst, (plain_outside (fun _ _ _ _ _ _ => trivial) hi hf hst).1, hmask, ?_⟩
    obtain ⟨r, -, hm⟩ := Option.bind_eq_some_iff.mp hst
    obtain ⟨l, -, rfl⟩ := Option.map_eq_some_iff.mp hm
    exact hrank

theorem ranked {P : σ → Prop} (hP : loop.Halts outside P) (ha : loop.Atomic) {mask : UInt32} :
    Ranked (step loop outside) Batch.Act.isWorker (fun t => t.phase = .exited)
      (fun s => Counted loop base mask s ∧ (s.phase = .exited ∨ P s.app)) (fun s => rank (mask.toNat + 1) s.phase) where
  inv := by
    rintro s a t ⟨hc, hs⟩ hst
    refine ⟨counted_step ha s a t hc hst, ?_⟩
    cases a with
    | worker x =>
      rcases hs with hph | hs
      · rw [show step loop outside s (.worker x) = none from worker_exited hph] at hst
        cases hst
      · have hr := (plain_worker ha outside hc.inv hc.fits trivial hst).2
        exact Or.inr (hr.inv (I := fun p => P p.app) hs fun p a p' hp hst =>
          plain_halts hP p a p' hp (guard_some.mp hst).2)
    | outside e =>
      have hr := (plain_outside (fun _ _ _ _ _ _ => trivial) hc.inv hc.fits hst).2
      obtain ⟨r, -, hm⟩ := Option.bind_eq_some_iff.mp hst
      obtain ⟨l, -, rfl⟩ := Option.map_eq_some_iff.mp hm
      exact hs.imp id fun hs => plain_halts hP _ _ _ hs hr
  lowers := by
    rintro s a t ⟨⟨hi, -, rfl, -⟩, hs⟩ hst
    cases a with
    | worker x =>
      rcases rank_worker ha hi hst with hlt | ⟨htop, hrun, -⟩
      · exact hlt
      · rcases hs with hph | hs
        · rw [hph] at htop
          cases htop
        · rw [hP.running s.app hs] at hrun
          cases hrun
    | outside e =>
      obtain ⟨r, -, hm⟩ := Option.bind_eq_some_iff.mp hst
      obtain ⟨l, -, rfl⟩ := Option.map_eq_some_iff.mp hm
      exact le_rfl
  live := by
    rintro s -
    by_cases hph : s.phase = .exited
    · exact Or.inl hph
    · refine Or.inr fun a ha => ?_
      cases a with
      | worker x => exact (worker_live x).resolve_left hph
      | outside e => cases ha

theorem counted_start {mask : UInt32} (hm : IsMask mask) (cqes : UInt32 → ε) (app : σ) :
    Counted loop base mask (start mask base cqes app) :=
  ⟨inv_start hm cqes app, trivial, rfl, by show 1 ≤ _; omega⟩

/-- **A loop over the ring stops**: from any state it can be in when its condition has ended, after at most three steps
for each slot of the ring and two more. -/
theorem finishes {P : σ → Prop} (hP : loop.Halts outside P) (ha : loop.Atomic) {mask : UInt32} (hm : IsMask mask)
    {cqes : UInt32 → ε} {app : σ} (h : Reach (step loop outside) (start mask base cqes app) s) (hs : P s.app) :
    Finishes (step loop outside) Batch.Act.isWorker (fun t => t.phase = .exited) s (3 * (mask.toNat + 1) + 2) := by
  have hcounted : Counted loop base mask s := h.inv (counted_start hm cqes app) (counted_step ha)
  exact ((ranked hP ha).finishes ⟨hcounted, Or.inr hs⟩).mono hcounted.le

end Each
end
end UringPerf
