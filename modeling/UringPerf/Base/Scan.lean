import Mathlib

/-!
# Reading cells that grow

A reader adds up cells one after another while others add to them, so its sum is the sum of no single instant.  It
still lies between the sums before the first and after the last cell was read.  Nothing here is about a particular
system.

* `sumOf mem cells`          what the cells hold together;
* `Between lo hi cells acc`  `acc` was read from the cells while they grew from `lo` to `hi`;
* `Between.grow`, `.read`    what others add and what the reader reads keep this.
-/

namespace Scan

section
variable {κ : Type*} {mem lo hi : κ → ℕ}

def sumOf (mem : κ → ℕ) (cells : List κ) : ℕ := (cells.map mem).sum

theorem sumOf_append (l m : List κ) : sumOf mem (l ++ m) = sumOf mem l + sumOf mem m := by
  unfold sumOf
  rw [List.map_append, List.sum_append]

theorem sumOf_singleton (k : κ) : sumOf mem [k] = mem k := List.sum_singleton

theorem sumOf_mono (h : ∀ k, lo k ≤ hi k) (l : List κ) : sumOf lo l ≤ sumOf hi l :=
  List.sum_le_sum fun k _ => h k

structure Between (lo hi : κ → ℕ) (cells : List κ) (acc : ℕ) : Prop where
  grown : ∀ k, lo k ≤ hi k
  lower : sumOf lo cells ≤ acc
  upper : acc ≤ sumOf hi cells

namespace Between
variable {hi' : κ → ℕ} {cells : List κ} {acc : ℕ}

theorem nil (mem : κ → ℕ) : Between mem mem [] 0 := ⟨fun _ => le_rfl, le_rfl, le_rfl⟩

theorem grow (h : Between lo hi cells acc) (hg : ∀ k, hi k ≤ hi' k) : Between lo hi' cells acc :=
  ⟨fun k => (h.grown k).trans (hg k), h.lower, h.upper.trans (sumOf_mono hg cells)⟩

theorem read (h : Between lo hi cells acc) (k : κ) : Between lo hi (cells ++ [k]) (acc + hi k) := by
  refine ⟨h.grown, ?_, ?_⟩
  · rw [sumOf_append, sumOf_singleton]
    exact Nat.add_le_add h.lower (h.grown k)
  · rw [sumOf_append, sumOf_singleton]
    exact Nat.add_le_add_right h.upper _

end Between
end

end Scan
