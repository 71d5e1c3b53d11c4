import Mathlib.Order.Interval.Finset.Nat
import UringPerf.Base.Circular
import UringPerf.Base.Smear
import UringPerf.Engine.Prep

/-!
# The provided buffer ring as a circular buffer

`setup_multishot_recv` and `return_recv_buffer` of `src/uring_engine.cpp` write a ring that the kernel reads.
`head` is the kernel's side: the counter of the next entry it will select.

* `nextPow2_toNat`          the number of buffers is a power of two;
* `nextPow2_valid`          the least one, with a slot for each index of a turn, or 0;
* `RecvPool.Ring p head`    a ring the kernel accepts, with both counters in range;
* `RecvPool.ready p head`   the entries that the kernel can still select, oldest first;
* `setup_ready`             after the setup these are all buffers, in order;
* `return_ready`            a returned buffer comes last, if a slot is free;
* `select_ready`            the kernel selects the first.
-/

namespace UringPerf
open Circular

theorem nextPow2_toNat (v : UInt32) : (nextPow2 v).toNat = 2 ^ Nat.clog 2 v.toNat % 2^32 := by
  unfold nextPow2
  by_cases h0 : v = 0
  · subst h0
    rfl
  have hv : 0 < v.toNat := by
    rw [Nat.pos_iff_ne_zero]
    exact fun h => h0 (UInt32.toNat_inj.mp h)
  rw [if_neg (by simpa using h0)]
  have h1 : (1 : UInt32) ≤ v := UInt32.le_iff_toNat_le.mpr hv
  have e1 : (v - 1).toNat = v.toNat - 1 := UInt32.toNat_sub_of_le v 1 h1
  by_cases hone : v.toNat = 1
  · have e : v = 1 := UInt32.toNat_inj.mp hone
    subst e
    rfl
  have hx : v.toNat - 1 ≠ 0 := by omega
  -- the five steps make 32 bits below the highest one equal to it
  have ht := (Smear.Top.log2 hx).smear.smear.smear.smear.smear
  have hlog : (v.toNat - 1).log2 < 32 := by
    rw [Nat.log2_lt hx]
    have := v.toNat_lt
    omega
  have he := ht.eq (by omega)
  have hc : Nat.clog 2 v.toNat = (v.toNat - 1).log2 + 1 := by
    rw [← Smear.clog_eq hx, Nat.sub_add_cancel hv]
  dsimp only
  rw [UInt32.toNat_add, hc]
  simp only [UInt32.toNat_or, UInt32.toNat_shiftRight, e1]
  show ((_ : Nat) + 1) % 2^32 = _
  rw [← Nat.sub_add_cancel (Nat.two_pow_pos ((v.toNat - 1).log2 + 1)), ← he]
  rfl

namespace RecvPool

/-- `2^k` slots, and the kernel allows at most `2^15` -/
structure Ring (p : RecvPool) (head : Nat) : Prop where
  count : ∃ k ≤ 15, p.count = 2^k
  head : head < 2^16
  tail : p.tail < 2^16

def ready (p : RecvPool) (head : Nat) : List BufEntry := window p.count (2^16) p.slots head p.tail

section
variable {p : RecvPool} {head : Nat}

theorem Ring.size (h : p.Ring head) : Size p.count (2^16) := by
  obtain ⟨k, hk, e⟩ := h.count
  rw [e]
  exact Size.pow (by omega)

theorem Ring.and_mask (h : p.Ring head) (i : Nat) : i &&& p.mask = i % p.count := by
  obtain ⟨k, -, e⟩ := h.count
  unfold mask
  rw [e, Nat.and_two_pow_sub_one_eq_mod]

theorem length_ready : (p.ready head).length = used (2^16) head p.tail := length_window

/-- **A returned buffer comes last**, and its entry is its own. -/
theorem return_ready (h : p.Ring head) (hfree : (p.ready head).length < p.count) (id : Nat) :
    (p.returnRecvBuffer id).Ring head ∧
      (p.returnRecvBuffer id).ready head = p.ready head ++ [p.entry id] := by
  rw [length_ready] at hfree
  refine ⟨⟨h.count, h.head, Nat.mod_lt _ (by decide)⟩, ?_⟩
  show window p.count (2^16) (Function.update p.slots ((p.tail + 0) &&& p.mask) (p.entry id)) head
    ((p.tail + 1) % 2^16) = _
  rw [h.and_mask]
  exact window_put h.size h.head h.tail hfree (p.entry id)

/-- a return leaves the slots alone that the kernel has not consumed -/
theorem return_other (h : p.Ring head) (hfree : (p.ready head).length < p.count) (id : Nat) {k : Nat}
    (hk : k < (p.ready head).length) : (p.returnRecvBuffer id).slots ((head + k) % p.count) =
      p.slots ((head + k) % p.count) := by
  rw [length_ready] at hfree hk
  show Function.update p.slots ((p.tail + 0) &&& p.mask) (p.entry id) _ = _
  rw [h.and_mask]
  exact put_other h.size.dvd h.head h.tail hfree _ hk

/-- **The kernel selects the oldest entry.** -/
theorem select_ready (h : p.Ring head) (hne : head ≠ p.tail) :
    p.Ring ((head + 1) % 2^16) ∧
      p.ready head = p.slots (head &&& p.mask) :: p.ready ((head + 1) % 2^16) := by
  refine ⟨⟨h.count, Nat.mod_lt _ (by decide), h.tail⟩, ?_⟩
  have hu : 0 < used (2^16) head p.tail := by
    rw [Nat.pos_iff_ne_zero]
    exact fun h0 => hne ((used_eq_zero h.head h.tail).mp h0)
  rw [h.and_mask]
  exact window_cons h.size.dvd h.head h.tail hu

end

/-! ## the setup -/

/-- the loop of the setup over the first `j` buffers -/
def fill (p : RecvPool) (j : Nat) : RecvPool :=
  (List.range j).foldl (fun p i => p.add (p.entry (i % 2^16)) i) p

theorem fill_succ (p : RecvPool) (j : Nat) :
    p.fill (j + 1) = (p.fill j).add ((p.fill j).entry (j % 2^16)) j := by
  unfold fill
  rw [List.range_succ, List.foldl_append]
  rfl

/-- every buffer is in its own slot -/
theorem fill_eq {p : RecvPool} {k : Nat} (hk : k ≤ 15) (hc : p.count = 2^k) (ht : p.tail = 0) :
    ∀ j ≤ p.count, ∃ slots, p.fill j = { p with slots := slots } ∧
      ∀ i < j, slots i = p.entry i := by
  intro j
  induction j with
  | zero =>
    intro _
    exact ⟨p.slots, rfl, fun i hi => absurd hi (Nat.not_lt_zero i)⟩
  | succ j ih =>
    intro hj
    obtain ⟨slots, he, hs⟩ := ih (by omega)
    have hslot : (p.tail + j) &&& p.mask = j := by
      unfold mask
      rw [ht, Nat.zero_add, hc, Nat.and_two_pow_sub_one_eq_mod, Nat.mod_eq_of_lt (by omega)]
    have hid : j % 2^16 = j := by
      have := Nat.pow_le_pow_right Nat.two_pos hk
      exact Nat.mod_eq_of_lt (by omega)
    refine ⟨Function.update slots j (p.entry j), ?_, ?_⟩
    · rw [fill_succ, he, hid]
      show { p with slots := Function.update slots ((p.tail + j) &&& p.mask) (p.entry j) } = _
      rw [hslot]
    · intro i hi
      rw [Function.update_apply]
      split
      · next e => rw [e]
      · exact hs i (by omega)

end RecvPool

/-- a setup that the kernel accepts: some buffers, and not more than it allows -/
def Accepted (bufCount : UInt32) : Prop :=
  0 < (nextPow2 bufCount).toNat ∧ (nextPow2 bufCount).toNat ≤ 32768

section
variable {bufCount : UInt32} (base bufSize bgid : Nat)

theorem Accepted.pow (h : Accepted bufCount) : ∃ k ≤ 15, (nextPow2 bufCount).toNat = 2^k := by
  have e := nextPow2_toNat bufCount
  have hlt : 2 ^ Nat.clog 2 bufCount.toNat < 2^32 := by
    by_contra hge
    have hle : Nat.clog 2 bufCount.toNat ≤ 32 :=
      Nat.clog_le_of_le_pow (Nat.le_of_lt bufCount.toNat_lt)
    have h32 : Nat.clog 2 bufCount.toNat = 32 := by
      refine Nat.le_antisymm hle ?_
      by_contra hlt
      exact hge (Nat.pow_lt_pow_right Nat.one_lt_two (by omega))
    rw [h32, Nat.mod_self] at e
    exact absurd h.1 (by omega)
  rw [Nat.mod_eq_of_lt hlt] at e
  refine ⟨_, ?_, e⟩
  have h2 := h.2
  rw [e] at h2
  exact (Nat.pow_le_pow_iff_right Nat.one_lt_two).mp h2

/-- **After the setup the kernel can select every buffer**, in the order of their ids. -/
theorem setup_ready (h : Accepted bufCount) :
    (setupMultishotRecv base bufCount bufSize bgid).Ring 0 ∧
      (setupMultishotRecv base bufCount bufSize bgid).count = (nextPow2 bufCount).toNat ∧
      (setupMultishotRecv base bufCount bufSize bgid).ready 0 =
        (List.range (nextPow2 bufCount).toNat).map
          (setupMultishotRecv base bufCount bufSize bgid).entry := by
  obtain ⟨k, hk, hc⟩ := h.pow
  obtain ⟨slots, he, hs⟩ := RecvPool.fill_eq
    (p := ⟨base, (nextPow2 bufCount).toNat, bufSize, bgid, 0, fun _ => ⟨0, 0, 0⟩⟩) hk hc rfl _ le_rfl
  have e : setupMultishotRecv base bufCount bufSize bgid =
      ⟨base, (nextPow2 bufCount).toNat, bufSize, bgid, (nextPow2 bufCount).toNat % 2^16, slots⟩ := by
    show RecvPool.advance (RecvPool.fill _ _) _ = _
    rw [he]
    show (⟨base, _, bufSize, bgid, (0 + (nextPow2 bufCount).toNat) % 2^16, slots⟩ : RecvPool) = _
    rw [Nat.zero_add]
  have hlt : (nextPow2 bufCount).toNat < 2^16 := Nat.lt_of_le_of_lt h.2 (by decide)
  rw [e]
  refine ⟨⟨⟨k, hk, hc⟩, by decide, Nat.mod_lt _ (by decide)⟩, rfl, ?_⟩
  show window _ _ slots 0 ((nextPow2 bufCount).toNat % 2^16) = _
  have hu : used (2^16) 0 ((nextPow2 bufCount).toNat % 2^16) = (nextPow2 bufCount).toNat := by
    have hz : used (2^16) 0 ((0 + (nextPow2 bufCount).toNat) % 2^16) = _ := used_add (by decide) hlt
    rwa [Nat.zero_add] at hz
  unfold window
  rw [hu]
  apply List.map_congr_left
  intro i hi
  rw [List.mem_range] at hi
  rw [Nat.zero_add, Nat.mod_eq_of_lt hi]
  exact hs i hi

/-! ## the size of the ring -/

theorem RecvPool.fill_count (p : RecvPool) (j : Nat) : (p.fill j).count = p.count := by
  induction j with
  | zero => rfl
  | succ j ih =>
    rw [RecvPool.fill_succ]
    exact ih

/-- the mask of the setup, for any number of buffers -/
theorem setup_mask (v : UInt32) :
    (setupMultishotRecv base v bufSize bgid).mask = (nextPow2 v).toNat - 1 := by
  show (RecvPool.fill _ _).count - 1 = _
  rw [RecvPool.fill_count]

theorem nextPow2_pow {v : UInt32} (h : v.toNat ≤ 2^31) : (nextPow2 v).toNat = 2 ^ Nat.clog 2 v.toNat := by
  have hle : Nat.clog 2 v.toNat ≤ 31 := Nat.clog_le_of_le_pow h
  rw [nextPow2_toNat, Nat.mod_eq_of_lt]
  exact Nat.pow_lt_pow_right Nat.one_lt_two (Nat.lt_succ_of_le hle)

/-- above `2^31` the increment overflows -/
theorem nextPow2_wraps {v : UInt32} (h : 2^31 < v.toNat) : nextPow2 v = 0 := by
  have hge : 31 < Nat.clog 2 v.toNat := (Nat.lt_clog_iff_pow_lt Nat.one_lt_two).mpr h
  have hle : Nat.clog 2 v.toNat ≤ 32 := Nat.clog_le_of_le_pow (Nat.le_of_lt v.toNat_lt)
  have h32 : Nat.clog 2 v.toNat = 32 := by omega
  apply UInt32.toNat_inj.mp
  rw [nextPow2_toNat, h32, Nat.mod_self]
  rfl

/-- the indices of one turn and the slots correspond -/
theorem slots_bijOn {n k : Nat} (hn : n = 2^k) (a : Nat) :
    Set.BijOn (fun i => i &&& (n - 1)) (Set.Ico a (a + n)) (Set.Iio n) := by
  have e : (fun i => i &&& (n - 1)) = fun i => i % n := by
    funext i
    rw [hn, Nat.and_two_pow_sub_one_eq_mod]
  have himage := congrArg (fun s : Finset Nat => (s : Set Nat)) (Nat.image_Ico_mod a n)
  have hinj := Nat.mod_injOn_Ico a n
  rw [Finset.coe_Ico] at hinj
  rw [Finset.coe_image, Finset.coe_Ico, Finset.coe_range] at himage
  rw [e, ← himage]
  exact hinj.bijOn_image

/-- **`next_pow2` gives a valid size.**  Up to `2^31` it is the least power of two that is not smaller, and the
masked indices of any turn are all slots, each once; above, it is 0. -/
theorem nextPow2_valid (v : UInt32) :
    (1 ≤ v.toNat → v.toNat ≤ 2^31 →
      IsLeast {p | (∃ k, p = 2^k) ∧ v.toNat ≤ p} (nextPow2 v).toNat ∧
      ∀ a, Set.BijOn (fun i => i &&& (setupMultishotRecv base v bufSize bgid).mask)
        (Set.Ico a (a + (nextPow2 v).toNat)) (Set.Iio (nextPow2 v).toNat)) ∧
    (v = 0 → nextPow2 v = 1) ∧ (2^31 < v.toNat → nextPow2 v = 0) := by
  refine ⟨fun _ hle => ⟨?_, fun a => ?_⟩, ?_, nextPow2_wraps⟩
  · rw [nextPow2_pow hle]
    refine ⟨⟨⟨_, rfl⟩, Nat.le_pow_clog Nat.one_lt_two _⟩, ?_⟩
    rintro p ⟨⟨k, rfl⟩, hk⟩
    exact Nat.pow_le_pow_right Nat.two_pos (Nat.clog_le_of_le_pow hk)
  · rw [setup_mask]
    exact slots_bijOn (nextPow2_pow hle) a
  · rintro rfl
    rfl

theorem nextPow2_valid_top : (nextPow2 2147483647).toNat = 2^31 ∧ nextPow2 2147483649 = 0 ∧
    IsLeast {p | (∃ k, p = 2^k) ∧ 2147483647 ≤ p} (nextPow2 2147483647).toNat := by
  have h := (nextPow2_valid 0 4096 0 2147483647).1 (by decide) (by decide)
  exact ⟨by decide, (nextPow2_valid 0 4096 0 2147483649).2.2 (by decide), h.1⟩

end
end UringPerf
