import Mathlib.Data.List.Nodup
import Mathlib.Data.List.Perm.Basic

/-!
# A ledger of reused names

A resource is handed out under a name `i : ι` that may be used again after it has been closed; `mk i n` is the
`n`-th resource under the name `i`.  Nothing here is about a particular kind of resource.

* `Ledger.Sound`   the names that are open are those handed out and not yet taken (`pend`) or held (`live`), and
                   everything taken has been closed or is held, once;
* `Sound.arrive`   a name that is not open is handed out;
* `Sound.take`     a name handed out is taken and held, `Sound.refuse`: taken and closed at once;
* `Sound.drop`     held names are closed;
* `Sound.settled`  when nothing is held any more, everything taken has been closed exactly once.
-/

namespace Ledger

section
variable {ι κ : Type*} (mk : ι → Nat → κ)

structure Sound (gen : ι → Nat) (isOpen : ι → Bool) (pend live : List ι) (taken closed : List κ) : Prop where
  nodup : (pend ++ live).Nodup
  isOpen : ∀ i, isOpen i = true ↔ i ∈ pend ∨ i ∈ live
  once : taken.Nodup
  split : taken.Perm (closed ++ live.map fun i => mk i (gen i))
  old : ∀ i n, mk i n ∈ taken → n ≤ gen i ∧ (i ∈ pend → n < gen i)

theorem sound_nil (gen : ι → Nat) : Sound mk gen (fun _ => false) [] [] [] [] where
  nodup := List.nodup_nil
  isOpen := fun i => by simp
  once := List.nodup_nil
  split := List.Perm.refl _
  old := fun i n h => absurd h List.not_mem_nil

variable {mk} {gen : ι → Nat} {isOpen : ι → Bool} {pend live : List ι} {taken closed : List κ}

namespace Sound

/-- the order of the names does not matter -/
theorem perm (h : Sound mk gen isOpen pend live taken closed) {pend' live' : List ι} (hp : pend'.Perm pend)
    (hl : live'.Perm live) : Sound mk gen isOpen pend' live' taken closed where
  nodup := (hp.append hl).nodup_iff.mpr h.nodup
  isOpen := fun i => by rw [h.isOpen, hp.mem_iff, hl.mem_iff]
  once := h.once
  split := h.split.trans ((hl.symm.map _).append_left closed)
  old := fun i n hn => by rw [hp.mem_iff]; exact h.old i n hn

theorem apart (h : Sound mk gen isOpen pend live taken closed) {i : ι} (hp : i ∈ pend) : i ∉ live :=
  fun hl => (List.disjoint_of_nodup_append h.nodup) hp hl

theorem arrive [DecidableEq ι] (h : Sound mk gen isOpen pend live taken closed) {i : ι} (hi : isOpen i = false) :
    Sound mk (Function.update gen i (gen i + 1)) (Function.update isOpen i true) (pend ++ [i]) live taken
      closed := by
  have hno : i ∉ pend ∧ i ∉ live := by
    rw [← not_or, ← h.isOpen, hi]
    exact Bool.false_ne_true
  refine ⟨?_, ?_, h.once, ?_, ?_⟩
  · have hp : (pend ++ [i] ++ live).Perm (i :: (pend ++ live)) := by
      rw [List.append_assoc]
      exact List.perm_middle
    rw [hp.nodup_iff, List.nodup_cons, List.mem_append]
    exact ⟨fun hm => hm.elim hno.1 hno.2, h.nodup⟩
  · intro j
    rw [Function.update_apply]
    by_cases hj : j = i
    · simp [hj]
    · rw [if_neg hj, h.isOpen]
      simp [hj]
  · have e : live.map (fun j => mk j (Function.update gen i (gen i + 1) j)) = live.map fun j => mk j (gen j) := by
      apply List.map_congr_left
      intro j hj
      have hne : j ≠ i := fun e => hno.2 (e ▸ hj)
      rw [Function.update_of_ne hne]
    rw [e]
    exact h.split
  · intro j n hn
    obtain ⟨h1, h2⟩ := h.old j n hn
    rw [Function.update_apply]
    by_cases hj : j = i
    · subst hj
      rw [if_pos rfl]
      exact ⟨Nat.le_succ_of_le h1, fun _ => Nat.lt_succ_of_le h1⟩
    · rw [if_neg hj]
      refine ⟨h1, fun hp => h2 ?_⟩
      rcases List.mem_append.mp hp with hp | hp
      · exact hp
      · exact absurd (List.mem_singleton.mp hp) hj

/-- what is taken next has not been taken before -/
theorem fresh {i : ι} (h : Sound mk gen isOpen (i :: pend) live taken closed) : mk i (gen i) ∉ taken :=
  fun hm => absurd ((h.old i (gen i) hm).2 List.mem_cons_self) (Nat.lt_irrefl _)

theorem once_take {i : ι} (h : Sound mk gen isOpen (i :: pend) live taken closed) :
    (taken ++ [mk i (gen i)]).Nodup := by
  rw [(List.perm_append_singleton _ _).nodup_iff, List.nodup_cons]
  exact ⟨h.fresh, h.once⟩

theorem old_take (hmk : ∀ i j n m, mk i n = mk j m → i = j ∧ n = m) {i : ι}
    (h : Sound mk gen isOpen (i :: pend) live taken closed) (j : ι) (n : Nat)
    (hn : mk j n ∈ taken ++ [mk i (gen i)]) : n ≤ gen j ∧ (j ∈ pend → n < gen j) := by
  rcases List.mem_append.mp hn with hn | hn
  · obtain ⟨h1, h2⟩ := h.old j n hn
    exact ⟨h1, fun hp => h2 (List.mem_cons_of_mem _ hp)⟩
  · obtain ⟨rfl, rfl⟩ := hmk _ _ _ _ (List.mem_singleton.mp hn)
    have hnd := h.nodup
    rw [List.cons_append, List.nodup_cons, List.mem_append] at hnd
    exact ⟨Nat.le_refl _, fun hp => absurd (Or.inl hp) hnd.1⟩

/-- a name handed out is now held -/
theorem take (hmk : ∀ i j n m, mk i n = mk j m → i = j ∧ n = m) {i : ι}
    (h : Sound mk gen isOpen (i :: pend) live taken closed) :
    Sound mk gen isOpen pend (i :: live) (taken ++ [mk i (gen i)]) closed where
  nodup := (List.perm_middle.nodup_iff).mpr h.nodup
  isOpen := fun j => by
    rw [h.isOpen, List.mem_cons, List.mem_cons]
    constructor
    · rintro ((rfl | hj) | hj)
      · exact Or.inr (Or.inl rfl)
      · exact Or.inl hj
      · exact Or.inr (Or.inr hj)
    · rintro (hj | rfl | hj)
      · exact Or.inl (Or.inr hj)
      · exact Or.inl (Or.inl rfl)
      · exact Or.inr hj
  once := h.once_take
  split := by
    rw [List.map_cons]
    refine (List.perm_append_singleton _ _).trans (List.Perm.trans ?_ List.perm_middle.symm)
    exact h.split.cons _
  old := h.old_take hmk

/-- a name handed out is closed at once -/
theorem refuse [DecidableEq ι] (hmk : ∀ i j n m, mk i n = mk j m → i = j ∧ n = m) {i : ι}
    (h : Sound mk gen isOpen (i :: pend) live taken closed) :
    Sound mk gen (Function.update isOpen i false) pend live (taken ++ [mk i (gen i)])
      (closed ++ [mk i (gen i)]) := by
  have hnd := h.nodup
  rw [List.cons_append, List.nodup_cons, List.mem_append] at hnd
  refine ⟨hnd.2, ?_, h.once_take, ?_, h.old_take hmk⟩
  · intro j
    rw [Function.update_apply]
    by_cases hj : j = i
    · subst hj
      rw [if_pos rfl]
      exact ⟨fun e => absurd e Bool.false_ne_true, fun hm => absurd hm hnd.1⟩
    · rw [if_neg hj, h.isOpen, List.mem_cons]
      simp [hj]
  · refine (List.perm_append_singleton _ _).trans ?_
    rw [List.append_assoc]
    exact (h.split.cons _).trans List.perm_middle.symm

/-- the held names `out` are closed, `rest` stays -/
theorem drop (h : Sound mk gen isOpen pend live taken closed) {out rest : List ι}
    (hl : live.Perm (out ++ rest)) {isOpen' : ι → Bool}
    (ho : ∀ i, isOpen' i = true ↔ isOpen i = true ∧ i ∉ out) :
    Sound mk gen isOpen' pend rest taken (closed ++ out.map fun i => mk i (gen i)) := by
  have h' := h.perm (List.Perm.refl pend) hl.symm
  have hnd := h'.nodup
  have hsub : (pend ++ rest).Sublist (pend ++ (out ++ rest)) :=
    (List.sublist_append_right out rest).append_left pend
  refine ⟨hnd.sublist hsub, ?_, h.once, ?_, h.old⟩
  · intro i
    rw [ho, h'.isOpen, List.mem_append]
    have h1 : i ∈ pend → i ∉ out := fun hp hm => h'.apart hp (List.mem_append_left _ hm)
    have h2 : i ∈ rest → i ∉ out := fun hr hm =>
      (List.disjoint_of_nodup_append (List.Nodup.of_append_right hnd)) hm hr
    constructor
    · rintro ⟨hp | hp | hp, hn⟩
      · exact Or.inl hp
      · exact absurd hp hn
      · exact Or.inr hp
    · rintro (hp | hp)
      · exact ⟨Or.inl hp, h1 hp⟩
      · exact ⟨Or.inr (Or.inr hp), h2 hp⟩
  · have hs := h'.split
    rwa [List.map_append, ← List.append_assoc] at hs

/-- **Everything taken has been closed exactly once**, when the held names have been closed too. -/
theorem settled (h : Sound mk gen isOpen pend live taken closed) :
    (closed ++ live.map fun i => mk i (gen i)).Perm taken ∧ taken.Nodup := ⟨h.split.symm, h.once⟩

/-- the names that are open and taken are those that are held -/
theorem held_iff (h : Sound mk gen isOpen pend live taken closed) (i : ι) :
    i ∈ live ↔ isOpen i = true ∧ mk i (gen i) ∈ taken := by
  constructor
  · intro hl
    refine ⟨(h.isOpen i).mpr (Or.inr hl), h.split.mem_iff.mpr ?_⟩
    exact List.mem_append_right _ (List.mem_map.mpr ⟨i, hl, rfl⟩)
  · rintro ⟨ho, ht⟩
    rcases (h.isOpen i).mp ho with hp | hl
    · exact absurd ((h.old i _ ht).2 hp) (Nat.lt_irrefl _)
    · exact hl

end Sound
end
end Ledger
