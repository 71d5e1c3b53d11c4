import Mathlib

/-!
# Counting the segments of a message

A message of `n` bytes is cut into segments of `g` bytes, of which the last may be shorter.  A receiver that sees only
the number of bytes of several segments together can estimate how many they were.  Nothing here is about a particular
protocol.

* `segments g n`      the sizes of the segments;
* `estimate g n`      the quotient, but at least one;
* `isShort g n`       the last of several segments is shorter than the others;
* `estimate_add`      the estimate is too small by one exactly then;
* `sum_estimate_groups`   full segments are counted exactly, however they are grouped.
-/

namespace Segment

def segments (g n : Nat) : List Nat := List.replicate (n / g) g ++ if n % g = 0 then [] else [n % g]

def estimate (g n : Nat) : Nat := max 1 (n / g)

def isShort (g n : Nat) : Bool := decide (g < n) && !decide (g ∣ n)

section
variable {g n : Nat}

theorem isShort_iff : isShort g n = true ↔ g < n ∧ ¬ g ∣ n := by
  unfold isShort
  rw [Bool.and_eq_true, Bool.not_eq_true', decide_eq_true_eq, decide_eq_false_iff_not]

theorem segments_sum (g n : Nat) : (segments g n).sum = n := by
  have hdiv : n / g * g + n % g = n := by
    rw [Nat.mul_comm]
    exact Nat.div_add_mod n g
  unfold segments
  rw [List.sum_append, List.sum_replicate, smul_eq_mul]
  split
  · next h => rwa [h] at hdiv
  · rwa [List.sum_singleton]

/-- the number of segments is the quotient, rounded up -/
theorem length_segments (hg : 0 < g) (n : Nat) : (segments g n).length = n ⌈/⌉ g := by
  have hmod := Nat.mod_lt n hg
  have hdiv := Nat.div_add_mod n g
  unfold segments
  rw [List.length_append, List.length_replicate, Nat.ceilDiv_eq_add_pred_div]
  split
  · next h =>
    have e : n + g - 1 = (g - 1) + g * (n / g) := by omega
    rw [e, Nat.add_mul_div_left _ _ hg, Nat.div_eq_of_lt (show g - 1 < g by omega), List.length_nil]
    omega
  · next h =>
    have e : n + g - 1 = (n % g - 1) + g * (n / g + 1) := by
      rw [Nat.mul_add, Nat.mul_one]
      omega
    rw [e, Nat.add_mul_div_left _ _ hg, Nat.div_eq_of_lt (show n % g - 1 < g by omega), List.length_singleton]
    omega

theorem segments_of_dvd (h : g ∣ n) : segments g n = List.replicate (n / g) g := by
  unfold segments
  rw [if_pos (Nat.mod_eq_zero_of_dvd h), List.append_nil]

/-- **The estimate is too small by one exactly if the last of several segments is short.** -/
theorem estimate_add (hg : 0 < g) (hn : 0 < n) : estimate g n + (if isShort g n then 1 else 0) = n ⌈/⌉ g := by
  rw [← length_segments hg]
  unfold estimate segments
  rw [List.length_append, List.length_replicate]
  by_cases hd : g ∣ n
  · have hle : g ≤ n := Nat.le_of_dvd hn hd
    have hq : 1 ≤ n / g := (Nat.one_le_div_iff hg).mpr hle
    rw [if_neg (fun h => (isShort_iff.mp h).2 hd), if_pos (Nat.mod_eq_zero_of_dvd hd), List.length_nil]
    omega
  · have hr : n % g ≠ 0 := fun h => hd (Nat.dvd_of_mod_eq_zero h)
    rw [if_neg hr, List.length_singleton]
    by_cases hlt : g < n
    · have hq : 1 ≤ n / g := (Nat.one_le_div_iff hg).mpr hlt.le
      rw [if_pos (isShort_iff.mpr ⟨hlt, hd⟩)]
      omega
    · have hne : n ≠ g := fun e => hd (e ▸ dvd_rfl)
      have hq : n / g = 0 := Nat.div_eq_of_lt (by omega)
      rw [if_neg (fun h => hlt (isShort_iff.mp h).1), hq]
      rfl

/-- over many messages the estimate is too small by the number of short ends -/
theorem sum_estimate_add (hg : 0 < g) (ns : List Nat) (hn : ∀ n ∈ ns, 0 < n) :
    (ns.map (estimate g)).sum + ns.countP (isShort g) = (ns.map (· ⌈/⌉ g)).sum := by
  induction ns with
  | nil => rfl
  | cons n ns ih =>
    have h1 := estimate_add hg (hn n List.mem_cons_self)
    have h2 := ih fun m hm => hn m (List.mem_cons_of_mem n hm)
    rw [List.map_cons, List.map_cons, List.sum_cons, List.sum_cons, List.countP_cons]
    omega

/-- **Full segments are counted exactly, however they are grouped.** -/
theorem sum_estimate_groups (hg : 0 < g) (groups : List (List Nat)) (hne : ∀ l ∈ groups, l ≠ [])
    (hfull : ∀ n ∈ groups.flatten, n = g) :
    ((groups.map List.sum).map (estimate g)).sum = groups.flatten.length := by
  induction groups with
  | nil => rfl
  | cons l groups ih =>
    have hl : l = List.replicate l.length g :=
      List.eq_replicate_iff.mpr ⟨rfl, fun n hn => hfull n (by
        rw [List.flatten_cons]
        exact List.mem_append_left _ hn)⟩
    have hpos : 1 ≤ l.length := List.length_pos_iff.mpr (hne l List.mem_cons_self)
    have hest : estimate g l.sum = l.length := by
      unfold estimate
      rw [hl, List.sum_replicate, List.length_replicate, smul_eq_mul, Nat.mul_div_cancel _ hg]
      omega
    have hrest := ih (fun l' hl' => hne l' (List.mem_cons_of_mem l hl')) fun n hn => hfull n (by
      rw [List.flatten_cons]
      exact List.mem_append_right _ hn)
    rw [List.map_cons, List.map_cons, List.sum_cons, hest, hrest, List.flatten_cons, List.length_append]

end
end Segment
