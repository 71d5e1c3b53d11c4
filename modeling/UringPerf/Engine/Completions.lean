import UringPerf.Base.Masked

/-!
# The completion queue in shared memory

The ring through which the kernel hands completions over, and what liburing does with it: `khead` and `ktail` are
32-bit counters, a completion is in the slot `counter & ring_mask`, and an application holds pointers to slots.
What a slot holds is left open (`ε`).

* `forEachNext`                the test of `io_uring_for_each_cqe`: a pointer, or the end;
* `cqAdvance`, `cqeSeen`       the application releases slots;
* `post`                       the kernel fills a slot, if one is free;
* `Log`                        the queue with a record of what was posted, read and released;
* `Log.Sound base held`        of the completions read the last `held` are not released; what is in the ring is what
                               was posted and is not released;
* `Log.Sound.post`, `.look`, `.release`   the three operations keep this.
-/

namespace UringPerf
open Circular

structure CompletionQueue (ε : Type*) where
  khead : UInt32
  ktail : UInt32
  ringMask : UInt32
  cqes : UInt32 → ε

namespace CompletionQueue
section
variable {ε : Type*}

/-- the slot of the counter `head`, unless it has reached the tail -/
def forEachNext (q : CompletionQueue ε) (head : UInt32) : Option UInt32 :=
  if head ≠ q.ktail then some (head &&& q.ringMask) else none

/-- `io_uring_cq_advance` -/
def cqAdvance (q : CompletionQueue ε) (nr : UInt32) : CompletionQueue ε := { q with khead := q.khead + nr }

/-- `io_uring_cqe_seen` -/
def cqeSeen (q : CompletionQueue ε) : CompletionQueue ε := q.cqAdvance 1

/-- the kernel posts only into a slot that has been released -/
def hasRoom (q : CompletionQueue ε) : Bool := decide ((q.ktail - q.khead).toNat < q.ringMask.toNat + 1)

def post (q : CompletionQueue ε) (c : ε) : CompletionQueue ε :=
  { q with cqes := Function.update q.cqes (q.ktail &&& q.ringMask) c, ktail := q.ktail + 1 }

/-- the completions between the head and the tail, oldest first -/
def unreleased (q : CompletionQueue ε) : List ε := entries q.ringMask q.cqes q.khead q.ktail

/-- a reader that has come `n` completions beyond the head finds the next one, or the tail if there is none -/
theorem forEachNext_eq (q : CompletionQueue ε) {n : Nat} (hn : n ≤ q.unreleased.length) :
    q.forEachNext (q.khead + UInt32.ofNat n) =
      if n < q.unreleased.length then some ((q.khead + UInt32.ofNat n) &&& q.ringMask) else none := by
  have hiff : q.khead + UInt32.ofNat n = q.ktail ↔ n = q.unreleased.length := counter_eq_tail hn
  unfold forEachNext
  by_cases e : n = q.unreleased.length
  · rw [if_neg (not_not.mpr (hiff.mpr e)), if_neg (by omega)]
  · rw [if_pos (mt hiff.mp e), if_pos (by omega)]

end
end CompletionQueue

/-- where the head stood and how much had been read when a batch began, and how many completions it has -/
structure Mark where
  head : UInt32
  processed : Nat
  reaped : Nat

/-- only `cq` is in memory, the rest records what happened -/
structure Log (ε : Type*) where
  cq : CompletionQueue ε
  posted : List ε
  processed : List ε
  released : Nat
  mark : Mark

namespace Log
section
variable {ε : Type*} {base : UInt32} {held : Nat} {l : Log ε}

/-- the counters start anywhere -/
def start (mask base : UInt32) (cqes : UInt32 → ε) : Log ε where
  cq := ⟨base, base, mask, cqes⟩
  posted := []
  processed := []
  released := 0
  mark := ⟨base, 0, 0⟩

def post (l : Log ε) (c : ε) : Log ε := { l with cq := l.cq.post c, posted := l.posted ++ [c] }

/-- the body of a loop reads the completion behind a pointer -/
def look (l : Log ε) (cqe : UInt32) : Log ε := { l with processed := l.processed ++ [l.cq.cqes cqe] }

def release (l : Log ε) (nr : UInt32) : Log ε :=
  { l with cq := l.cq.cqAdvance nr, released := l.released + nr.toNat }

def setMark (l : Log ε) (reaped : Nat) : Log ε := { l with mark := ⟨l.cq.khead, l.processed.length, reaped⟩ }

structure Sound (base : UInt32) (held : Nat) (l : Log ε) : Prop where
  mask : IsMask l.cq.ringMask
  ring : l.cq.unreleased = l.posted.drop l.released
  fits : l.cq.unreleased.length ≤ l.cq.ringMask.toNat + 1
  held_le : l.released + held ≤ l.posted.length
  processed : l.processed = l.posted.take (l.released + held)
  head : l.cq.khead = base + UInt32.ofNat l.released

/-- how many completions are in the ring -/
theorem Sound.length_unreleased (h : l.Sound base held) :
    l.cq.unreleased.length = l.posted.length - l.released := by
  rw [h.ring, List.length_drop]

theorem Sound.held_le_length (h : l.Sound base held) : held ≤ l.cq.unreleased.length := by
  have := h.held_le
  rw [h.length_unreleased]
  omega

theorem Sound.length_processed (h : l.Sound base held) : l.processed.length = l.released + held := by
  rw [h.processed, List.length_take, Nat.min_eq_left h.held_le]

/-- how many fit into 32 bits -/
theorem Sound.length_lt (h : l.Sound base held) : l.cq.unreleased.length < 2^32 :=
  Nat.lt_of_le_of_lt h.fits h.mask.size.lt

theorem sound_start {mask : UInt32} (hm : IsMask mask) (cqes : UInt32 → ε) :
    (start mask base cqes).Sound base 0 := by
  have he : (start mask base cqes).cq.unreleased = [] := entries_self
  refine ⟨hm, he, ?_, le_rfl, rfl, (UInt32.add_zero base).symm⟩
  rw [he]
  exact Nat.zero_le _

/-- **No completion is overwritten**: the slot the kernel fills is none of those in the ring. -/
theorem Sound.post (h : l.Sound base held) (hroom : l.cq.hasRoom = true) (c : ε) : (l.post c).Sound base held := by
  have hfree := of_decide_eq_true hroom
  have hput : (l.post c).cq.unreleased = l.cq.unreleased ++ [c] := entries_put h.mask hfree c
  have hle : l.released ≤ l.posted.length := (Nat.le_add_right _ _).trans h.held_le
  refine ⟨h.mask, ?_, ?_, ?_, ?_, h.head⟩
  · rw [hput, h.ring]
    exact (List.drop_append_of_le_length hle).symm
  · have hlen : l.cq.unreleased.length = (l.cq.ktail - l.cq.khead).toNat := length_entries
    rw [hput, List.length_append, hlen]
    exact hfree
  · show l.released + held ≤ (l.posted ++ [c]).length
    rw [List.length_append]
    exact h.held_le.trans (Nat.le_add_right _ _)
  · show l.processed = (l.posted ++ [c]).take (l.released + held)
    rw [List.take_append_of_le_length h.held_le]
    exact h.processed

/-- the completion behind a pointer into the ring -/
theorem Sound.at (h : l.Sound base held) {n : Nat} (hn : n < l.cq.unreleased.length) :
    l.posted[l.released + n]? = some (l.cq.cqes ((l.cq.khead + UInt32.ofNat n) &&& l.cq.ringMask)) := by
  have hget : l.cq.unreleased[n]? = _ := entries_getElem? h.mask hn
  rwa [h.ring, List.getElem?_drop] at hget

theorem Sound.look (h : l.Sound base held) (hlt : held < l.cq.unreleased.length) :
    (l.look ((l.cq.khead + UInt32.ofNat held) &&& l.cq.ringMask)).Sound base (held + 1) := by
  have hlen := h.length_unreleased
  have hget := h.at hlt
  refine ⟨h.mask, h.ring, h.fits, ?_, ?_, h.head⟩
  · show l.released + (held + 1) ≤ l.posted.length
    omega
  · show l.processed ++ [_] = l.posted.take (l.released + held + 1)
    rw [List.take_add_one, hget, ← h.processed]
    rfl

theorem Sound.release (h : l.Sound base held) {n : Nat} (hn : n ≤ held) :
    (l.release (UInt32.ofNat n)).Sound base (held - n) := by
  have hle : n ≤ l.cq.unreleased.length := hn.trans h.held_le_length
  have hn32 : (UInt32.ofNat n).toNat = n := by
    rw [UInt32.toNat_ofNat', Nat.mod_eq_of_lt (Nat.lt_of_le_of_lt hle h.length_lt)]
  have hrel : (l.release (UInt32.ofNat n)).released = l.released + n := congrArg (l.released + ·) hn32
  have hdrop : (l.release (UInt32.ofNat n)).cq.unreleased = l.cq.unreleased.drop n := entries_drop h.mask hle
  have hsum : l.released + n + (held - n) = l.released + held := by omega
  refine ⟨h.mask, ?_, ?_, ?_, ?_, ?_⟩
  · rw [hdrop, h.ring, hrel, List.drop_drop]
    rfl
  · rw [hdrop, List.length_drop]
    exact (Nat.sub_le _ _).trans h.fits
  · rw [hrel, hsum]
    exact h.held_le
  · rw [hrel, hsum]
    exact h.processed
  · rw [hrel, UInt32.ofNat_add, ← UInt32.add_assoc, ← h.head]
    rfl

/-- the last completion read is behind the last pointer, as long as it is not released -/
theorem Sound.last (h : l.Sound base (held + 1)) :
    l.processed.getLast? = some (l.cq.cqes ((l.cq.khead + UInt32.ofNat held) &&& l.cq.ringMask)) := by
  have hlt : held < l.cq.unreleased.length := h.held_le_length
  rw [List.getLast?_eq_getElem?, h.length_processed, h.processed, ← h.at hlt]
  exact List.getElem?_take_of_lt (by omega)

end
end Log
end UringPerf
