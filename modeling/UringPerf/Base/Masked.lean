import Mathlib.Data.UInt
import UringPerf.Base.Circular

/-!
# Circular buffers indexed by masked 32-bit counters

The buffers of `Circular` as C programs have them: two free-running `uint32` counters, and the slot of a counter
is `counter & mask`.

* `IsMask mask`                   `mask` is `2^k - 1`, so that there are `2^k` slots;
* `entries mask slots head tail`  the published entries, oldest first;
* `entries_put`, `entries_drop`   publishing appends an entry, releasing drops entries;
* `entries_getElem?`              where an entry is;
* `put_slot_ne`                   publishing overwrites no entry;
* `counter_eq_tail`               how a reader notices that it has seen all entries.
-/

namespace Circular

/-- at most `2^31` slots, so that a full buffer differs from an empty one -/
def IsMask (mask : UInt32) : Prop := ∃ k < 32, mask.toNat + 1 = 2^k

section
variable {α : Type*} {mask head tail : UInt32} {slots : UInt32 → α}

def entries (mask : UInt32) (slots : UInt32 → α) (head tail : UInt32) : List α :=
  window (mask.toNat + 1) (2^32) (fun i => slots (UInt32.ofNat i)) head.toNat tail.toNat

theorem IsMask.size (h : IsMask mask) : Size (mask.toNat + 1) (2^32) := by
  obtain ⟨k, hk, e⟩ := h
  rw [e]
  exact Size.pow hk

/-- the mask selects the slot of a counter -/
theorem IsMask.slot (h : IsMask mask) (i : UInt32) : (i &&& mask).toNat = i.toNat % (mask.toNat + 1) := by
  obtain ⟨k, -, e⟩ := h
  have em : mask.toNat = 2^k - 1 := by omega
  rw [UInt32.toNat_and, e, em, Nat.and_two_pow_sub_one_eq_mod]

theorem ofNat_slot (h : IsMask mask) (i : UInt32) : UInt32.ofNat (i.toNat % (mask.toNat + 1)) = i &&& mask := by
  rw [← h.slot]
  exact UInt32.ofNat_toNat

theorem used_eq_sub : used (2^32) head.toNat tail.toNat = (tail - head).toNat := (UInt32.toNat_sub _ _).symm

theorem length_entries : (entries mask slots head tail).length = (tail - head).toNat := by
  unfold entries
  rw [length_window, used_eq_sub]

theorem toNat_add_ofNat (n : Nat) : (head + UInt32.ofNat n).toNat = (head.toNat + n) % 2^32 := by
  rw [UInt32.toNat_add, UInt32.toNat_ofNat', Nat.add_mod_mod]

theorem entries_self : entries mask slots head head = [] := window_self head.toNat_lt

theorem entries_put (h : IsMask mask) (hfree : (tail - head).toNat < mask.toNat + 1) (a : α) :
    entries mask (Function.update slots (tail &&& mask) a) head (tail + 1) = entries mask slots head tail ++ [a] := by
  rw [← used_eq_sub] at hfree
  have hput : window (mask.toNat + 1) (2^32)
        (Function.update (fun i => slots (UInt32.ofNat i)) (tail.toNat % (mask.toNat + 1)) a)
        head.toNat ((tail.toNat + 1) % 2^32) =
      entries mask slots head tail ++ [a] := window_put h.size head.toNat_lt tail.toNat_lt hfree a
  have htail : (tail + 1).toNat = (tail.toNat + 1) % 2^32 := UInt32.toNat_add _ _
  rw [← hput]
  unfold entries
  rw [htail]
  apply window_congr h.size.pos
  intro i hi
  have hi' : (UInt32.ofNat i).toNat = i := by
    rw [UInt32.toNat_ofNat', Nat.mod_eq_of_lt (Nat.lt_trans hi h.size.lt)]
  rw [Function.update_apply, Function.update_apply, ← h.slot]
  by_cases e : i = (tail &&& mask).toNat
  · rw [if_pos e, if_pos (UInt32.toNat_inj.mp (hi'.trans e))]
  · rw [if_neg e, if_neg (fun e' => e (hi'.symm.trans (congrArg UInt32.toNat e')))]

theorem entries_drop (h : IsMask mask) {n : Nat} (hn : n ≤ (entries mask slots head tail).length) :
    entries mask slots (head + UInt32.ofNat n) tail = (entries mask slots head tail).drop n := by
  rw [length_entries, ← used_eq_sub] at hn
  unfold entries
  rw [toNat_add_ofNat, window_drop h.size.dvd head.toNat_lt tail.toNat_lt hn]

theorem entries_getElem? (h : IsMask mask) {n : Nat} (hn : n < (entries mask slots head tail).length) :
    (entries mask slots head tail)[n]? = some (slots ((head + UInt32.ofNat n) &&& mask)) := by
  rw [length_entries, ← used_eq_sub] at hn
  unfold entries
  rw [window_getElem? hn, ← ofNat_slot h, toNat_add_ofNat, Nat.mod_mod_of_dvd _ h.size.dvd]

/-- the oldest entries, slot by slot -/
theorem entries_take (h : IsMask mask) {n : Nat} (hn : n ≤ (entries mask slots head tail).length) :
    (entries mask slots head tail).take n = (List.range n).map fun i => slots ((head + UInt32.ofNat i) &&& mask) := by
  apply List.ext_getElem?
  intro i
  rw [List.getElem?_take, List.getElem?_map]
  by_cases hi : i < n
  · rw [if_pos hi, entries_getElem? h (Nat.lt_of_lt_of_le hi hn), List.getElem?_range hi]
    rfl
  · rw [if_neg hi, List.getElem?_eq_none (by rw [List.length_range]; omega)]
    rfl

/-- publishing writes none of the slots in use -/
theorem put_slot_ne (h : IsMask mask) (hfree : (tail - head).toNat < mask.toNat + 1) {n : Nat}
    (hn : n < (tail - head).toNat) : (head + UInt32.ofNat n) &&& mask ≠ tail &&& mask := by
  intro e
  have e' := congrArg UInt32.toNat e
  rw [← used_eq_sub] at hfree hn
  rw [h.slot, h.slot, toNat_add_ofNat, Nat.mod_mod_of_dvd _ h.size.dvd,
    tail_slot h.size.dvd head.toNat_lt tail.toNat_lt] at e'
  exact absurd (slot_inj (Nat.lt_trans hn hfree) hfree e') (Nat.ne_of_lt hn)

/-- a reader that starts at the head meets the tail after the last entry and not before -/
theorem counter_eq_tail {n : Nat} (hn : n ≤ (entries mask slots head tail).length) :
    head + UInt32.ofNat n = tail ↔ n = (entries mask slots head tail).length := by
  have hlt : (tail - head).toNat < 2^32 := (tail - head).toNat_lt
  rw [length_entries] at hn ⊢
  rw [← UInt32.toNat_inj, toNat_add_ofNat, ← used_eq_sub] at *
  constructor
  · intro e
    have hu := used_add head.toNat_lt (Nat.lt_of_le_of_lt hn hlt)
    rw [e] at hu
    exact hu.symm
  · rintro rfl
    exact head_add_used head.toNat_lt tail.toNat_lt

end
end Circular
