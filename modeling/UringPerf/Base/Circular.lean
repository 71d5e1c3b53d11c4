import Mathlib.Data.List.Basic
import Mathlib.Data.List.Range
import Mathlib.Logic.Function.Basic
import Mathlib.Data.Nat.ModEq

/-!
# Circular buffers with free-running counters

One side writes a slot and publishes it by counting `tail` up, the other side reads a slot and releases it
by counting `head` up.  There are `n` slots, both counters run modulo `m`, and a counter `i` stands for the
slot `i % n`.  Nothing here is about a particular buffer.

* `used m head tail`      how many entries are published and not released;
* `window`                these entries, oldest first: what the buffer means;
* `window_put`            writing the next slot appends to the window, if a slot is free;
* `window_drop`           releasing `k` entries drops them;
* `put_other`             no entry of the window is overwritten.
-/

namespace Circular

/-- the slots divide the range of the counters, so that a full buffer differs from an empty one -/
structure Size (n m : Nat) : Prop where
  pos : 0 < n
  dvd : n ∣ m
  lt : n < m

theorem Size.pow {k w : Nat} (h : k < w) : Size (2^k) (2^w) :=
  ⟨Nat.two_pow_pos k, Nat.pow_dvd_pow 2 (Nat.le_of_lt h), Nat.pow_lt_pow_right Nat.one_lt_two h⟩

section
variable {α : Type*} {n m head tail : Nat}

def used (m head tail : Nat) : Nat := (m - head + tail) % m

def window (n m : Nat) (slots : Nat → α) (head tail : Nat) : List α :=
  (List.range (used m head tail)).map fun k => slots ((head + k) % n)

/-! ## counters -/

theorem used_lt (hm : 0 < m) : used m head tail < m := Nat.mod_lt _ hm

theorem used_self (hh : head < m) : used m head head = 0 := by
  unfold used
  rw [Nat.sub_add_cancel (Nat.le_of_lt hh), Nat.mod_self]

/-- the tail is as many steps ahead of the head as entries are in use -/
theorem head_add_used (hh : head < m) (ht : tail < m) : (head + used m head tail) % m = tail := by
  unfold used
  rw [Nat.add_mod_mod, ← Nat.add_assoc, Nat.add_sub_cancel' (Nat.le_of_lt hh), Nat.add_mod_left,
    Nat.mod_eq_of_lt ht]

theorem used_add (hh : head < m) {k : Nat} (hk : k < m) : used m head ((head + k) % m) = k := by
  unfold used
  rw [Nat.add_mod_mod, ← Nat.add_assoc, Nat.sub_add_cancel (Nat.le_of_lt hh), Nat.add_mod_left,
    Nat.mod_eq_of_lt hk]

theorem used_put (hh : head < m) (ht : tail < m) (hu : used m head tail + 1 < m) :
    used m head ((tail + 1) % m) = used m head tail + 1 := by
  have h := used_add hh hu
  rwa [← Nat.add_assoc, ← Nat.mod_add_mod, head_add_used hh ht] at h

theorem used_drop (hh : head < m) (ht : tail < m) {k : Nat} (hk : k ≤ used m head tail) :
    used m ((head + k) % m) tail = used m head tail - k := by
  have hm : 0 < m := Nat.lt_of_le_of_lt (Nat.zero_le head) hh
  have hlt : used m head tail - k < m := Nat.lt_of_le_of_lt (Nat.sub_le _ k) (used_lt hm)
  have h := used_add (Nat.mod_lt (head + k) hm) hlt
  rwa [Nat.mod_add_mod, Nat.add_assoc, Nat.add_sub_cancel' hk, head_add_used hh ht] at h

/-- nothing is in use exactly if the counters agree -/
theorem used_eq_zero (hh : head < m) (ht : tail < m) : used m head tail = 0 ↔ head = tail := by
  constructor
  · intro h
    have e := head_add_used hh ht
    rwa [h, Nat.add_zero, Nat.mod_eq_of_lt hh] at e
  · rintro rfl
    exact used_self hh

/-- the slot of the tail is the one after the window -/
theorem tail_slot (hn : n ∣ m) (hh : head < m) (ht : tail < m) :
    tail % n = (head + used m head tail) % n := by
  rw [← Nat.mod_mod_of_dvd (head + used m head tail) hn, head_add_used hh ht]

/-- two entries less than one turn apart have different slots -/
theorem slot_inj {a i j : Nat} (hi : i < n) (hj : j < n) (h : (a + i) % n = (a + j) % n) : i = j := by
  have e : i % n = j % n := Nat.ModEq.add_left_cancel' a h
  rwa [Nat.mod_eq_of_lt hi, Nat.mod_eq_of_lt hj] at e

/-! ## entries -/

variable {slots : Nat → α}

theorem length_window : (window n m slots head tail).length = used m head tail := by
  unfold window
  rw [List.length_map, List.length_range]

theorem window_self (hh : head < m) : window n m slots head head = [] := by
  unfold window
  rw [used_self hh]
  rfl

theorem window_getElem? {k : Nat} (hk : k < used m head tail) :
    (window n m slots head tail)[k]? = some (slots ((head + k) % n)) := by
  unfold window
  rw [List.getElem?_map, List.getElem?_range hk]
  rfl

/-- only the `n` slots matter -/
theorem window_congr (hn : 0 < n) {slots' : Nat → α} (h : ∀ i < n, slots i = slots' i) :
    window n m slots head tail = window n m slots' head tail := by
  unfold window
  apply List.map_congr_left
  intro k _
  exact h _ (Nat.mod_lt _ hn)

/-- **No entry is overwritten**: the slot after the window is none of its slots, as long as one is free. -/
theorem put_other (hn : n ∣ m) (hh : head < m) (ht : tail < m) (hu : used m head tail < n) (a : α)
    {k : Nat} (hk : k < used m head tail) :
    Function.update slots (tail % n) a ((head + k) % n) = slots ((head + k) % n) := by
  apply Function.update_of_ne
  intro e
  rw [tail_slot hn hh ht] at e
  exact absurd (slot_inj (Nat.lt_trans hk hu) hu e) (Nat.ne_of_lt hk)

theorem window_put (hs : Size n m) (hh : head < m) (ht : tail < m) (hu : used m head tail < n) (a : α) :
    window n m (Function.update slots (tail % n) a) head ((tail + 1) % m) =
      window n m slots head tail ++ [a] := by
  unfold window
  rw [used_put hh ht (Nat.lt_of_le_of_lt hu hs.lt), List.range_succ, List.map_append]
  congr 1
  · apply List.map_congr_left
    intro k hk
    exact put_other hs.dvd hh ht hu a (List.mem_range.mp hk)
  · rw [List.map_singleton, ← tail_slot hs.dvd hh ht, Function.update_self]

theorem window_drop (hn : n ∣ m) (hh : head < m) (ht : tail < m) {k : Nat}
    (hk : k ≤ used m head tail) :
    window n m slots ((head + k) % m) tail = (window n m slots head tail).drop k := by
  unfold window
  rw [used_drop hh ht hk]
  apply List.ext_getElem?
  intro i
  rw [List.getElem?_drop, List.getElem?_map, List.getElem?_map]
  by_cases hi : i < used m head tail - k
  · have e : ((head + k) % m + i) % n = (head + (k + i)) % n := by
      rw [Nat.add_mod, Nat.mod_mod_of_dvd _ hn, ← Nat.add_mod, Nat.add_assoc]
    rw [List.getElem?_range hi, List.getElem?_range (by omega), Option.map_some, Option.map_some, e]
  · rw [List.getElem?_eq_none (by rw [List.length_range]; omega),
      List.getElem?_eq_none (by rw [List.length_range]; omega)]
    rfl

/-- the oldest entry is in the slot of the head -/
theorem window_cons (hn : n ∣ m) (hh : head < m) (ht : tail < m) (hu : 0 < used m head tail) :
    window n m slots head tail =
      slots (head % n) :: window n m slots ((head + 1) % m) tail := by
  have h0 : (window n m slots head tail)[0]? = some (slots ((head + 0) % n)) := window_getElem? hu
  rw [window_drop hn hh ht hu]
  cases hw : window n m slots head tail with
  | nil =>
    rw [hw] at h0
    cases h0
  | cons x xs =>
    rw [hw] at h0
    cases h0
    rfl

end
end Circular
