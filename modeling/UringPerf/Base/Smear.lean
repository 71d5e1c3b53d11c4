import Mathlib.Data.Nat.Log
import Mathlib.Data.Nat.Bitwise

/-!
# Rounding up to a power of two by smearing bits

`x ||| x >>> 1`, then `>>> 2`, `>>> 4` and so on copies the highest set bit of `x` into all bits below it.
Nothing here is about a particular word size.

* `Top x p j`        no bit of `x` is set above `p`, and the `j` bits from `p` downwards are;
* `Top.smear`        one step doubles `j`;
* `Top.eq`           once `j` covers all bits the number is `2^(p+1) - 1`;
* `clog_eq`          and that is one less than the least power of two above `x`.
-/

namespace Smear

structure Top (x p j : Nat) : Prop where
  above : ∀ i, p < i → x.testBit i = false
  below : ∀ i, i ≤ p → p < i + j → x.testBit i = true

theorem Top.log2 {x : Nat} (h : x ≠ 0) : Top x x.log2 1 where
  above := by
    intro i hi
    exact Nat.testBit_lt_two_pow (Nat.lt_of_lt_of_le Nat.lt_log2_self (Nat.pow_le_pow_right Nat.two_pos hi))
  below := by
    intro i h1 h2
    have e : i = x.log2 := by omega
    rw [e]
    exact Nat.testBit_log2 h

theorem Top.smear {x p j : Nat} (h : Top x p j) : Top (x ||| x >>> j) p (2 * j) where
  above := by
    intro i hi
    rw [Nat.testBit_or, Nat.testBit_shiftRight, h.above i hi, h.above (j + i) (by omega)]
    rfl
  below := by
    intro i h1 h2
    rw [Nat.testBit_or, Nat.testBit_shiftRight]
    by_cases hi : p < i + j
    · rw [h.below i h1 hi, Bool.true_or]
    · rw [h.below (j + i) (by omega) (by omega), Bool.or_true]

theorem Top.eq {x p j : Nat} (h : Top x p j) (hj : p < j) : x = 2^(p+1) - 1 := by
  apply Nat.eq_of_testBit_eq
  intro i
  rw [Nat.testBit_two_pow_sub_one]
  by_cases hi : i ≤ p
  · rw [h.below i hi (by omega), decide_eq_true (by omega)]
  · rw [h.above i (by omega), decide_eq_false (by omega)]

theorem clog_eq {x : Nat} (h : x ≠ 0) : Nat.clog 2 (x + 1) = x.log2 + 1 := by
  apply Nat.le_antisymm
  · apply Nat.clog_le_of_le_pow
    exact Nat.lt_log2_self
  · apply (Nat.lt_clog_iff_pow_lt Nat.one_lt_two).mpr
    exact Nat.lt_succ_of_le (Nat.log2_self_le h)

end Smear
