import Mathlib
import UringPerf.Base.Run

/-!
# What a run shows

Each transition of a system shows a list of values, and a run shows those of its transitions one after the other.
Nothing here is about a particular system.

* `observed`        the values shown by a run;
* `observed_all`    a property of what the transitions show;
* `observed_sum`    a counter that grows with each transition by the weight of what it shows counts the whole run;
* `observed_append` a record to which each transition appends what it shows is what the run shows;
* `observed_perm`   the same for a collection that each transition extends, `observed_spent`: for one from which each
                    transition takes what it shows;
* `observed_rank`   a rank that falls with what the transitions show bounds what the run shows;
* `Settles`         only so many transitions of a kind are left, and one of them is possible as long as the system is
                    not done; `Settles.of_rank`: shown by a rank that they decrease.
-/

namespace Trans

section
variable {σ α β : Type*}

def observed (step : σ → α → Option σ) (obs : σ → α → List β) : σ → List α → List β
  | _, [] => []
  | s, a :: as => (step s a).elim [] fun t => obs s a ++ observed step obs t as

variable {step : σ → α → Option σ} {obs : σ → α → List β}

theorem observed_cons {s t : σ} {a : α} (h : step s a = some t) (as : List α) :
    observed step obs s (a :: as) = obs s a ++ observed step obs t as := by
  rw [observed, h]
  rfl

theorem observed_all {P : β → Prop} (h : ∀ s a, ∀ b ∈ obs s a, P b) (as : List α) :
    ∀ s, ∀ b ∈ observed step obs s as, P b := by
  induction as with
  | nil => exact fun s b hb => absurd hb List.not_mem_nil
  | cons a as ih =>
    intro s b hb
    cases hst : step s a with
    | none =>
      rw [observed, hst] at hb
      exact absurd hb List.not_mem_nil
    | some t =>
      rw [observed_cons hst] at hb
      rcases List.mem_append.mp hb with hb | hb
      · exact h s a b hb
      · exact ih t b hb

/-- **A counter of a run**: `I` is an invariant, under which each step adds the weight of what it shows. -/
theorem observed_sum {I : σ → Prop} {f : σ → Nat} {w : β → Nat} (hI : ∀ s a t, I s → step s a = some t → I t)
    (hf : ∀ s a t, I s → step s a = some t → f t = f s + ((obs s a).map w).sum) (as : List α) :
    ∀ s t, I s → runFrom step s as = some t → f t = f s + ((observed step obs s as).map w).sum := by
  induction as with
  | nil =>
    intro s t _ h
    rw [runFrom_nil] at h
    cases h
    rfl
  | cons a as ih =>
    intro s t hi h
    rw [runFrom_cons] at h
    obtain ⟨u, hu, hr⟩ := Option.bind_eq_some_iff.mp h
    rw [observed_cons hu, List.map_append, List.sum_append, ih u t (hI s a u hi hu) hr, hf s a u hi hu, Nat.add_assoc]

/-- **A record of a run**: `I` is an invariant, under which each step appends what it shows. -/
theorem observed_append {I : σ → Prop} {f : σ → List β} (hI : ∀ s a t, I s → step s a = some t → I t)
    (hf : ∀ s a t, I s → step s a = some t → f t = f s ++ obs s a) (as : List α) :
    ∀ s t, I s → runFrom step s as = some t → f t = f s ++ observed step obs s as := by
  induction as with
  | nil =>
    intro s t _ h
    rw [runFrom_nil] at h
    cases h
    exact (List.append_nil _).symm
  | cons a as ih =>
    intro s t hi h
    rw [runFrom_cons] at h
    obtain ⟨u, hu, hr⟩ := Option.bind_eq_some_iff.mp h
    rw [observed_cons hu, ih u t (hI s a u hi hu) hr, hf s a u hi hu, List.append_assoc]

/-- **A collection of a run**: up to order, each step adds the parts of what it shows. -/
theorem observed_perm {γ : Type*} {I : σ → Prop} {f : σ → List γ} {w : β → List γ}
    (hI : ∀ s a t, I s → step s a = some t → I t)
    (hf : ∀ s a t, I s → step s a = some t → (f t).Perm (f s ++ (obs s a).flatMap w)) (as : List α) :
    ∀ s t, I s → runFrom step s as = some t → (f t).Perm (f s ++ (observed step obs s as).flatMap w) := by
  induction as with
  | nil =>
    intro s t _ h
    rw [runFrom_nil] at h
    cases h
    exact List.Perm.of_eq (List.append_nil _).symm
  | cons a as ih =>
    intro s t hi h
    rw [runFrom_cons] at h
    obtain ⟨u, hu, hr⟩ := Option.bind_eq_some_iff.mp h
    rw [observed_cons hu, List.flatMap_append, ← List.append_assoc]
    exact (ih u t (hI s a u hi hu) hr).trans ((hf s a u hi hu).append_right _)

/-- **A collection that a run uses up**: up to order, each step takes what it shows from it. -/
theorem observed_spent {I : σ → Prop} {f : σ → List β} (hI : ∀ s a t, I s → step s a = some t → I t)
    (hf : ∀ s a t, I s → step s a = some t → (f s).Perm (f t ++ obs s a)) (as : List α) :
    ∀ s t, I s → runFrom step s as = some t → (f s).Perm (f t ++ observed step obs s as) ∧ I t := by
  induction as with
  | nil =>
    intro s t hi h
    rw [runFrom_nil] at h
    cases h
    exact ⟨List.Perm.of_eq (List.append_nil _).symm, hi⟩
  | cons a as ih =>
    intro s t hi h
    rw [runFrom_cons] at h
    obtain ⟨u, hu, hr⟩ := Option.bind_eq_some_iff.mp h
    obtain ⟨hperm, ht⟩ := ih u t (hI s a u hi hu) hr
    refine ⟨?_, ht⟩
    have hrest := (hf s a u hi hu).trans (hperm.append_right _)
    rw [List.append_assoc] at hrest
    rw [observed_cons hu]
    exact hrest.trans (List.perm_append_comm.append_left _)

/-- **A rank bounds what a run shows**, if each transition lowers it by as much as it shows. -/
theorem observed_rank {I : σ → Prop} (rank : σ → Nat) (hI : ∀ s a t, I s → step s a = some t → I t)
    (hrank : ∀ s a t, I s → step s a = some t → rank t + (obs s a).length ≤ rank s) (as : List α) :
    ∀ s t, I s → runFrom step s as = some t → rank t + (observed step obs s as).length ≤ rank s ∧ I t := by
  induction as with
  | nil =>
    intro s t hs h
    rw [runFrom_nil] at h
    cases h
    exact ⟨Nat.le_refl _, hs⟩
  | cons a as ih =>
    intro s t hs h
    rw [runFrom_cons] at h
    obtain ⟨u, hu, hr⟩ := Option.bind_eq_some_iff.mp h
    obtain ⟨hle, hi⟩ := ih u t (hI s a u hs hu) hr
    have hone := hrank s a u hs hu
    rw [observed_cons hu, List.length_append]
    exact ⟨by omega, hi⟩

/-- from `s` on at most `n` transitions that count are taken, and wherever the run ends the system is done or can take
one -/
def Settles (step : σ → α → Option σ) (counts : σ → α → Bool) (done : σ → Prop) (s : σ) (n : Nat) : Prop :=
  ∀ as t, runFrom step s as = some t →
    (observed step (fun s a => if counts s a then [a] else []) s as).length ≤ n ∧
    (done t ∨ ∃ a, counts t a = true ∧ (step t a).isSome = true)

theorem Settles.of_rank {counts : σ → α → Bool} {done I : σ → Prop} {s : σ} {n : Nat} (rank : σ → Nat)
    (hI : ∀ s a t, I s → step s a = some t → I t)
    (hrank : ∀ s a t, I s → step s a = some t → rank t + (if counts s a then 1 else 0) ≤ rank s)
    (hlive : ∀ s, I s → done s ∨ ∃ a, counts s a = true ∧ (step s a).isSome = true) (hs : I s) (hn : rank s ≤ n) :
    Settles step counts done s n := by
  intro as t ht
  have hlower : ∀ s a t, I s → step s a = some t → rank t + (if counts s a then [a] else []).length ≤ rank s := by
    intro s a t hs hst
    have hlen : (if counts s a then [a] else []).length = if counts s a then 1 else 0 := by split <;> rfl
    rw [hlen]
    exact hrank s a t hs hst
  obtain ⟨hle, hi⟩ := observed_rank rank hI hlower as s t hs ht
  exact ⟨by omega, hlive t hi⟩

end
end Trans
