import Mathlib.Logic.Basic

/-!
# Runs of a partial step function

A system is a step function `step : σ → α → Option σ`: `step s a = none` says that the action
`a` is not enabled in the state `s`.  Nothing here is about a particular system.

* `runFrom step s as`    the state after the actions `as`, `none` if one of them is not enabled;
* `Reach step s₀ s`      `s` is reached from `s₀` by finitely many enabled actions;
* `Along step P s as`    every transition taken by the actions `as` from `s` satisfies `P` (the run
                         ends at the first action that is not enabled); it can be decided if `P` can;
* `Reach.inv`            an invariant of the steps holds in every reachable state;
* `exists_reach`         a run that can be evaluated shows that a state is reachable;
* `Reach.simulate`       forward simulation: a relation that the steps of one system keep while another
                         one answers them with runs of its own;
* `guard ok step`        the system without the actions that `ok` forbids;
* `Finishes`             one party of the system takes at most so many more steps, and is not blocked before it is
                         done; `Ranked.finishes`: shown by a rank that its steps decrease;
* `along_iff`            a property of all transitions of a run is equivalent to a condition on
                         all its steps, if one step transfers one into the other.
-/

namespace Trans

section
variable {σ α : Type*}

def runFrom (step : σ → α → Option σ) : σ → List α → Option σ
  | s, [] => some s
  | s, a :: as => (step s a).bind fun t => runFrom step t as

/-- every transition of the run `as` from `s` satisfies `P` -/
def Along (step : σ → α → Option σ) (P : σ → α → σ → Prop) : σ → List α → Prop
  | _, [] => True
  | s, a :: as => ∀ t, step s a = some t → P s a t ∧ Along step P t as

inductive Reach (step : σ → α → Option σ) (s₀ : σ) : σ → Prop where
  | refl : Reach step s₀ s₀
  | tail {s t : σ} {a : α} : Reach step s₀ s → step s a = some t → Reach step s₀ t

variable {step : σ → α → Option σ} {s₀ s t : σ}

theorem Reach.inv {I : σ → Prop} (h0 : I s₀) (hstep : ∀ s a t, I s → step s a = some t → I t)
    (h : Reach step s₀ s) : I s := by
  induction h with
  | refl => exact h0
  | tail _ ht ih => exact hstep _ _ _ ih ht

theorem runFrom_nil (s : σ) : runFrom step s [] = some s := rfl

theorem runFrom_cons (s : σ) (a : α) (as : List α) :
    runFrom step s (a :: as) = (step s a).bind fun t => runFrom step t as := rfl

theorem Reach.trans {u : σ} (h1 : Reach step s t) (h2 : Reach step t u) : Reach step s u := by
  induction h2 with
  | refl => exact h1
  | tail _ ht ih => exact ih.tail ht

/-- a run that does not get stuck ends in a reachable state -/
theorem Reach.of_runFrom (as : List α) (h : runFrom step s as = some t) : Reach step s t := by
  induction as generalizing s with
  | nil =>
    rw [runFrom_nil] at h
    cases h
    exact Reach.refl
  | cons a as ih =>
    rw [runFrom_cons] at h
    obtain ⟨u, hu, hr⟩ := Option.bind_eq_some_iff.mp h
    exact Reach.trans (Reach.refl.tail hu) (ih hr)

/-- a state with a decidable property is reachable, if the run that leads to it can be evaluated -/
theorem exists_reach {P : σ → Prop} [DecidablePred P] (as : List α)
    (h : ((runFrom step s as).any fun t => decide (P t)) = true) : ∃ t, Reach step s t ∧ P t := by
  obtain ⟨t, ht, hp⟩ := (Option.any_eq_true _ _).mp h
  exact ⟨t, Reach.of_runFrom as ht, of_decide_eq_true hp⟩

/-- **Forward simulation.**  If every step of one system is answered by a run of another one that keeps the
relation `R`, then every reachable state of the first is related to a reachable state of the second. -/
theorem Reach.simulate {τ β : Type*} {step' : τ → β → Option τ} {t₀ : τ} {R : σ → τ → Prop} (h0 : R s₀ t₀)
    (hstep : ∀ s a s' t, R s t → step s a = some s' → ∃ t', Reach step' t t' ∧ R s' t')
    (h : Reach step s₀ s) : ∃ t, Reach step' t₀ t ∧ R s t := by
  induction h with
  | refl => exact ⟨t₀, Reach.refl, h0⟩
  | tail _ ht ih =>
    obtain ⟨u, hu, hr⟩ := ih
    obtain ⟨u', hu', hr'⟩ := hstep _ _ _ u hr ht
    exact ⟨u', hu.trans hu', hr'⟩

theorem Reach.single {a : α} (h : step s a = some t) : Reach step s t := Reach.refl.tail h

def guard (ok : σ → α → Prop) [∀ s a, Decidable (ok s a)] (step : σ → α → Option σ) (s : σ) (a : α) : Option σ :=
  if ok s a then step s a else none

theorem guard_some {ok : σ → α → Prop} [∀ s a, Decidable (ok s a)] {a : α} :
    guard ok step s a = some t ↔ ok s a ∧ step s a = some t := by
  unfold guard
  by_cases h : ok s a
  · rw [if_pos h]
    exact ⟨fun e => ⟨h, e⟩, fun e => e.2⟩
  · rw [if_neg h]
    refine ⟨fun e => ?_, fun e => absurd e.1 h⟩
    cases e

theorem Reach.guard_of (ok : σ → α → Prop) [∀ s a, Decidable (ok s a)] (hok : ∀ s a, ok s a) (h : Reach step s₀ s) :
    Reach (guard ok step) s₀ s := by
  induction h with
  | refl => exact Reach.refl
  | tail _ ht ih => exact ih.tail (guard_some.mpr ⟨hok _ _, ht⟩)

/-- **A condition on the steps is a property of the run.**  `I` is an invariant of all steps, `G`
holds as long as the property `P` has held; under both, one step satisfies `P` exactly when it
meets the condition `C`. -/
theorem along_iff {I G : σ → Prop} {P Q : σ → α → σ → Prop}
    (hI : ∀ s a t, I s → step s a = some t → I t)
    (hG : ∀ s a t, P s a t → G t)
    (h : ∀ s a t, I s → G s → step s a = some t → (P s a t ↔ Q s a t))
    (as : List α) : ∀ s, I s → G s → (Along step P s as ↔ Along step Q s as) := by
  induction as with
  | nil => intro s _ _; exact Iff.rfl
  | cons a as ih =>
    intro s hi hg
    constructor
    · intro hp t ht
      obtain ⟨h1, h2⟩ := hp t ht
      exact ⟨(h s a t hi hg ht).mp h1, (ih t (hI s a t hi ht) (hG s a t h1)).mp h2⟩
    · intro hq t ht
      obtain ⟨h1, h2⟩ := hq t ht
      have hp := (h s a t hi hg ht).mpr h1
      exact ⟨hp, (ih t (hI s a t hi ht) (hG s a t hp)).mpr h2⟩

/-- a property of the transitions can be decided along a run -/
instance Along.decidable (step : σ → α → Option σ) (P : σ → α → σ → Prop) [∀ s a t, Decidable (P s a t)] :
    ∀ (s : σ) (as : List α), Decidable (Along step P s as)
  | _, [] => isTrue trivial
  | s, a :: as =>
    match h : step s a with
    | none => isTrue fun t ht => absurd (h.symm.trans ht) (Option.some_ne_none t).symm
    | some t =>
      have := Along.decidable step P t as
      decidable_of_iff (P s a t ∧ Along step P t as)
        ⟨fun hp _ ht => Option.some.inj (h.symm.trans ht) ▸ hp, fun hp => hp t h⟩

/-- an invariant holds after every transition of a run -/
theorem along_inv {I : σ → Prop} (hI : ∀ s a t, I s → step s a = some t → I t) (as : List α) :
    ∀ s, I s → Along step (fun _ _ t => I t) s as := by
  induction as with
  | nil => exact fun s _ => trivial
  | cons a as ih => exact fun s hs t ht => ⟨hI s a t hs ht, ih t (hI s a t hs ht)⟩

theorem Along.imp {P Q : σ → α → σ → Prop} (h : ∀ s a t, P s a t → Q s a t) (as : List α) :
    ∀ s, Along step P s as → Along step Q s as := by
  induction as with
  | nil => exact fun s _ => trivial
  | cons a as ih => exact fun s hs t ht => ⟨h s a t (hs t ht).1, ih t (hs t ht).2⟩

/-- `own` are the actions of one party: it takes at most `n` of them from `s` on, whatever the others do, and as long as
it is not done none of them is blocked -/
def Finishes (step : σ → α → Option σ) (own : α → Bool) (done : σ → Prop) (s : σ) (n : Nat) : Prop :=
  ∀ as t, runFrom step s as = some t → as.countP own ≤ n ∧ (done t ∨ ∀ a, own a = true → (step t a).isSome = true)

/-- `rank` counts the steps one party has left: its own steps lower it, those of the others do not raise it -/
structure Ranked (step : σ → α → Option σ) (own : α → Bool) (done I : σ → Prop) (rank : σ → Nat) : Prop where
  inv : ∀ s a t, I s → step s a = some t → I t
  lowers : ∀ s a t, I s → step s a = some t → rank t + (if own a then 1 else 0) ≤ rank s
  live : ∀ s, I s → done s ∨ ∀ a, own a = true → (step s a).isSome = true

theorem Ranked.imp {own : α → Bool} {done done' I : σ → Prop} {rank : σ → Nat} (h : Ranked step own done I rank)
    (hd : ∀ s, done s → done' s) : Ranked step own done' I rank :=
  ⟨h.inv, h.lowers, fun s hs => (h.live s hs).imp (hd s) id⟩

theorem Ranked.finishes {own : α → Bool} {done I : σ → Prop} {rank : σ → Nat} (h : Ranked step own done I rank)
    (hs : I s) : Finishes step own done s (rank s) := by
  have hrun : ∀ as s t, I s → runFrom step s as = some t → rank t + as.countP own ≤ rank s ∧ I t := by
    intro as
    induction as with
    | nil =>
      intro s t hs ht
      cases ht
      exact ⟨Nat.le_refl _, hs⟩
    | cons a as ih =>
      intro s t hs ht
      rw [runFrom_cons] at ht
      obtain ⟨u, hu, ht⟩ := Option.bind_eq_some_iff.mp ht
      obtain ⟨hle, hi⟩ := ih u t (h.inv s a u hs hu) ht
      have hone := h.lowers s a u hs hu
      rw [List.countP_cons]
      exact ⟨by omega, hi⟩
  intro as t ht
  obtain ⟨hle, hi⟩ := hrun as s t hs ht
  exact ⟨by omega, h.live t hi⟩

theorem Finishes.mono {own : α → Bool} {done : σ → Prop} {m n : Nat} (h : Finishes step own done s m) (hle : m ≤ n) :
    Finishes step own done s n :=
  fun as t ht => ⟨Nat.le_trans (h as t ht).1 hle, (h as t ht).2⟩

end
end Trans
