import Mathlib.Data.List.AList

/-!
# Tables: erasing in a loop

Facts about a finite table (`AList`) with values of one type.  Nothing here is about a particular
table.

* `decidableLookup`      what holds of every value of a table can be decided;
* `eraseAll l t`         a loop that erases the keys of the entries in `l`;
* `lookup_eraseAll_iff`  what is left if `l` are the entries of `t` that satisfy a test;
* `mapVal f t`           the table with every value `b` replaced by `f b`;
* `entries_erase_perm`, `entries_eraseAll_perm`   the entries that are erased and the entries that stay.
-/

namespace AList

section
variable {α β : Type*} [DecidableEq α]

theorem lookup_insert_eq (t : AList fun _ : α => β) (a a' : α) (b : β) :
    (t.insert a b).lookup a' = if a' = a then some b else t.lookup a' := by
  by_cases h : a' = a
  · subst h
    rw [if_pos rfl, lookup_insert]
  · rw [if_neg h, lookup_insert_ne h]

theorem lookup_erase_eq (t : AList fun _ : α => β) (a a' : α) :
    (t.erase a).lookup a' = if a' = a then none else t.lookup a' := by
  by_cases h : a' = a
  · subst h
    rw [if_pos rfl, lookup_erase]
  · rw [if_neg h, lookup_erase_ne h]

/-- what holds of every value of a table can be decided -/
instance decidableLookup {P : α → β → Prop} [∀ a b, Decidable (P a b)] (t : AList fun _ : α => β) :
    Decidable (∀ a b, t.lookup a = some b → P a b) :=
  decidable_of_iff (∀ e ∈ t.entries, P e.1 e.2)
    ⟨fun h a b hl => h ⟨a, b⟩ (mem_lookup_iff.mp hl), fun h e he => h e.1 e.2 (mem_lookup_iff.mpr he)⟩

def eraseAll (l : List (Sigma fun _ : α => β)) (t : AList fun _ : α => β) : AList fun _ : α => β :=
  l.foldl (fun t e => t.erase e.1) t

theorem lookup_eraseAll (l : List (Sigma fun _ : α => β)) (t : AList fun _ : α => β) (a : α) :
    (eraseAll l t).lookup a = if a ∈ l.map Sigma.fst then none else t.lookup a := by
  induction l generalizing t with
  | nil => rfl
  | cons e l ih =>
    show (eraseAll l (t.erase e.1)).lookup a = _
    rw [ih, lookup_erase_eq, List.map_cons]
    by_cases h : a ∈ l.map Sigma.fst
    · rw [if_pos h, if_pos (List.mem_cons_of_mem _ h)]
    · by_cases h' : a = e.1
      · rw [if_neg h, if_pos h', if_pos (h' ▸ List.mem_cons_self)]
      · rw [if_neg h, if_neg h', if_neg (by simp [h', h])]

/-- the keys of the entries that satisfy a test -/
theorem mem_filter_keys (p : β → Bool) (t : AList fun _ : α => β) (a : α) :
    a ∈ (t.entries.filter fun e => p e.2).map Sigma.fst ↔
      ∃ b, t.lookup a = some b ∧ p b = true := by
  rw [List.mem_map]
  constructor
  · rintro ⟨⟨a', b⟩, he, rfl⟩
    obtain ⟨h1, h2⟩ := List.mem_filter.mp he
    exact ⟨b, mem_lookup_iff.mpr h1, h2⟩
  · rintro ⟨b, h1, h2⟩
    exact ⟨⟨a, b⟩, List.mem_filter.mpr ⟨mem_lookup_iff.mp h1, h2⟩, rfl⟩

theorem lookup_eraseAll_iff (p : β → Bool) (t : AList fun _ : α => β) (a : α) (b : β) :
    (eraseAll (t.entries.filter fun e => p e.2) t).lookup a = some b ↔
      t.lookup a = some b ∧ p b = false := by
  rw [lookup_eraseAll]
  by_cases h : a ∈ (t.entries.filter fun e => p e.2).map Sigma.fst
  · rw [if_pos h]
    obtain ⟨b', h1, h2⟩ := (mem_filter_keys p t a).mp h
    refine ⟨fun h' => absurd h' (by simp), fun h' => ?_⟩
    rw [h1] at h'
    cases h'.1
    exact absurd (h2.symm.trans h'.2) Bool.noConfusion
  · rw [if_neg h]
    refine ⟨fun h' => ⟨h', ?_⟩, fun h' => h'.1⟩
    cases hb : p b with
    | false => rfl
    | true => exact absurd ((mem_filter_keys p t a).mpr ⟨b, h', hb⟩) h

theorem keys_insert_new {t : AList fun _ : α => β} {a : α} (h : a ∉ t.keys) (b : β) :
    (t.insert a b).keys = a :: t.keys := by
  rw [keys_insert, List.erase_of_not_mem h]

/-- the keys that are erased and the keys that stay -/
theorem keys_eraseAll_perm (p : β → Bool) (t : AList fun _ : α => β) :
    t.keys.Perm ((t.entries.filter fun e => p e.2).map Sigma.fst ++
      (eraseAll (t.entries.filter fun e => p e.2) t).keys) := by
  have hin : ∀ a, a ∈ (eraseAll (t.entries.filter fun e => p e.2) t).keys ↔
      a ∈ t.keys ∧ a ∉ (t.entries.filter fun e => p e.2).map Sigma.fst := by
    intro a
    rw [← mem_keys, ← mem_keys, ← lookup_isSome, ← lookup_isSome, lookup_eraseAll]
    by_cases h : a ∈ (t.entries.filter fun e => p e.2).map Sigma.fst
    · simp [h]
    · simp [h]
  have hsub : ((t.entries.filter fun e => p e.2).map Sigma.fst).Sublist t.keys :=
    List.filter_sublist.map Sigma.fst
  have hnd : t.keys.Nodup := t.nodupKeys
  refine (List.perm_ext_iff_of_nodup hnd ?_).mpr fun a => ?_
  · refine List.nodup_append.mpr ⟨List.Nodup.sublist hsub hnd, AList.nodupKeys _, ?_⟩
    rintro a ha b hb rfl
    exact ((hin a).mp hb).2 ha
  · rw [List.mem_append, hin]
    constructor
    · intro ha
      by_cases h : a ∈ (t.entries.filter fun e => p e.2).map Sigma.fst
      · exact Or.inl h
      · exact Or.inr ⟨ha, h⟩
    · rintro (ha | ha)
      · exact hsub.subset ha
      · exact ha.1

theorem mem_entries_iff (t : AList fun _ : α => β) (e : Sigma fun _ : α => β) :
    e ∈ t.entries ↔ t.lookup e.1 = some e.2 := mem_lookup_iff.symm

theorem entries_erase_perm {t : AList fun _ : α => β} {a : α} {b : β} (h : t.lookup a = some b) :
    t.entries.Perm (⟨a, b⟩ :: (t.erase a).entries) := by
  have hmem : ∀ e, e ∈ (t.erase a).entries ↔ e.1 ≠ a ∧ e ∈ t.entries := by
    intro e
    rw [mem_entries_iff, mem_entries_iff, lookup_erase_eq]
    by_cases he : e.1 = a
    · simp [he]
    · simp [he]
  refine (List.perm_ext_iff_of_nodup t.nodupKeys.nodup ?_).mpr fun e => ?_
  · refine List.nodup_cons.mpr ⟨fun hin => ?_, (AList.nodupKeys _).nodup⟩
    exact ((hmem _).mp hin).1 rfl
  · rw [List.mem_cons, hmem]
    constructor
    · intro he
      by_cases hk : e.1 = a
      · have hb := (mem_entries_iff t e).mp he
        rw [hk, h] at hb
        exact Or.inl (Sigma.ext hk (heq_of_eq (Option.some.inj hb).symm))
      · exact Or.inr ⟨hk, he⟩
    · rintro (rfl | he)
      · exact (mem_entries_iff t _).mpr h
      · exact he.2

theorem entries_eraseAll_perm (p : β → Bool) (t : AList fun _ : α => β) :
    t.entries.Perm ((t.entries.filter fun e => p e.2) ++
      (eraseAll (t.entries.filter fun e => p e.2) t).entries) := by
  have hmem : ∀ e, e ∈ (eraseAll (t.entries.filter fun e => p e.2) t).entries ↔ e ∈ t.entries ∧ p e.2 = false := by
    intro e
    rw [mem_entries_iff, mem_entries_iff]
    exact lookup_eraseAll_iff p t e.1 e.2
  refine (List.perm_ext_iff_of_nodup t.nodupKeys.nodup ?_).mpr fun e => ?_
  · refine List.nodup_append.mpr ⟨t.nodupKeys.nodup.filter _, (AList.nodupKeys _).nodup, ?_⟩
    rintro e he _ he' rfl
    have hp := (List.mem_filter.mp he).2
    rw [((hmem e).mp he').2] at hp
    exact Bool.false_ne_true hp
  · rw [List.mem_append, hmem, List.mem_filter]
    cases p e.2 <;> simp

end

section
variable {α β γ : Type*} (f : β → γ)

def mapVal (t : AList fun _ : α => β) : AList fun _ : α => γ where
  entries := t.entries.map fun e => ⟨e.1, f e.2⟩
  nodupKeys := by
    show (List.map Sigma.fst _).Nodup
    rw [List.map_map]
    exact t.nodupKeys

theorem keys_mapVal (t : AList fun _ : α => β) : (t.mapVal f).keys = t.keys := List.map_map ..

variable [DecidableEq α]

theorem mapVal_erase (t : AList fun _ : α => β) (a : α) : (t.erase a).mapVal f = (t.mapVal f).erase a := by
  apply AList.ext
  show List.map _ (List.eraseP _ t.entries) = List.eraseP _ (List.map _ t.entries)
  rw [List.eraseP_map]
  rfl

theorem mapVal_insert (t : AList fun _ : α => β) (a : α) (b : β) :
    (t.insert a b).mapVal f = (t.mapVal f).insert a (f b) := by
  have h := congrArg AList.entries (mapVal_erase f t a)
  apply AList.ext
  exact congrArg (List.cons _) h

theorem lookup_mapVal (t : AList fun _ : α => β) (a : α) : (t.mapVal f).lookup a = (t.lookup a).map f := by
  cases h : t.lookup a with
  | none =>
    rw [Option.map_none, lookup_eq_none]
    intro hm
    have hk : a ∈ t.keys := keys_mapVal f t ▸ mem_keys.mp hm
    exact lookup_eq_none.mp h (mem_keys.mpr hk)
  | some b =>
    rw [Option.map_some]
    apply mem_lookup_iff.mpr
    exact List.mem_map.mpr ⟨⟨a, b⟩, mem_lookup_iff.mp h, rfl⟩

theorem mapVal_congr {f g : β → γ} (t : AList fun _ : α => β) (h : ∀ a b, t.lookup a = some b → f b = g b) :
    t.mapVal f = t.mapVal g := by
  apply AList.ext
  apply List.map_congr_left
  rintro ⟨a, b⟩ he
  rw [h a b (mem_lookup_iff.mpr he)]

end
end AList
