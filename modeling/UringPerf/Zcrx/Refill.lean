import UringPerf.Base.Masked
import UringPerf.Base.Run
import UringPerf.Zcrx.Model

/-!
# The refill queue as a circular buffer

`zcrx_return_buffer` writes the queue through which consumed buffers go back to the kernel; the kernel counts
`khead` up as it reads.  All indices are 32-bit and run freely.

* `Queue q`           a queue of `2^k` slots that is not over-full;
* `queued q`          its entries that the kernel has not read, oldest first;
* `return_queued`     a return appends its entry, or is refused because the queue is full;
* `advance_queued`    the kernel reads the oldest entries;
* `refill_integrity`  what the kernel reads is what was returned, in order, over every interleaving.
-/

namespace UringPerf
namespace Zcrx
open Circular

namespace RefillQueue

/-- `1 ≤ 2^k` slots with `k ≤ 31`; the published tail is the worker's -/
structure Queue (q : RefillQueue) : Prop where
  entries : ∃ k ≤ 31, q.ringEntries.toNat = 2^k
  tail : q.ktail = q.rqTail
  fits : used (2^32) q.khead.toNat q.rqTail.toNat ≤ q.ringEntries.toNat

/-- the entries between the kernel's head and the published tail -/
def queued (q : RefillQueue) : List Rqe :=
  window q.ringEntries.toNat (2^32) (fun i => q.rqes (UInt32.ofNat i)) q.khead.toNat q.ktail.toNat

/-- the entry of a returned buffer -/
def entry (token : UInt64) (off : UInt64) (len : Int) : Rqe := ⟨areaOffset off ||| token, len⟩

/-- the kernel has read `k` entries -/
def advance (q : RefillQueue) (k : Nat) : RefillQueue := { q with khead := q.khead + UInt32.ofNat k }

section
variable {q : RefillQueue}

theorem Queue.pos (h : q.Queue) : 0 < q.ringEntries.toNat := by
  obtain ⟨k, -, e⟩ := h.entries
  rw [e]
  exact Nat.two_pow_pos k

/-- the mask of the slots is one less than their number -/
theorem Queue.mask_add (h : q.Queue) : (q.ringEntries - 1).toNat + 1 = q.ringEntries.toNat := by
  have h1 : (1 : UInt32) ≤ q.ringEntries := UInt32.le_iff_toNat_le.mpr h.pos
  have e : (q.ringEntries - 1).toNat = q.ringEntries.toNat - 1 := UInt32.toNat_sub_of_le _ _ h1
  rw [e, Nat.sub_add_cancel h.pos]

theorem Queue.isMask (h : q.Queue) : IsMask (q.ringEntries - 1) := by
  obtain ⟨k, hk, e⟩ := h.entries
  exact ⟨k, by omega, h.mask_add.trans e⟩

theorem nrQueued_toNat (q : RefillQueue) :
    q.nrQueued.toNat = used (2^32) q.khead.toNat q.rqTail.toNat := UInt32.toNat_sub _ _

theorem queued_eq (h : q.Queue) : q.queued = entries (q.ringEntries - 1) q.rqes q.khead q.ktail := by
  unfold queued entries
  rw [h.mask_add]

theorem length_queued (h : q.Queue) : q.queued.length = q.nrQueued.toNat := by
  rw [queued_eq h, length_entries, h.tail]
  rfl

/-- a queue that is not full has a free slot -/
theorem Queue.free (h : q.Queue) (hf : q.nrQueued ≠ q.ringEntries) :
    q.nrQueued.toNat < (q.ringEntries - 1).toNat + 1 := by
  rw [h.mask_add]
  refine Nat.lt_of_le_of_ne ?_ fun e => hf (UInt32.toNat_inj.mp e)
  rw [nrQueued_toNat]
  exact h.fits

theorem return_full (hf : q.nrQueued = q.ringEntries) (off : UInt64) (len : Int) :
    q.returnBuffer off len = q := if_pos hf

theorem return_free (hf : q.nrQueued ≠ q.ringEntries) (off : UInt64) (len : Int) :
    q.returnBuffer off len = { q with
      rqes := Function.update q.rqes (q.rqTail &&& (q.ringEntries - 1)) (entry q.areaToken off len)
      rqTail := q.rqTail + 1
      ktail := q.rqTail + 1 } := if_neg hf

/-- **A return that is not refused comes last.** -/
theorem return_queued (h : q.Queue) (off : UInt64) (len : Int) (hf : q.nrQueued ≠ q.ringEntries) :
    (q.returnBuffer off len).Queue ∧
      (q.returnBuffer off len).queued = q.queued ++ [entry q.areaToken off len] := by
  have hfree := h.free hf
  rw [return_free hf]
  generalize hq : { q with
      rqes := Function.update q.rqes (q.rqTail &&& (q.ringEntries - 1)) (entry q.areaToken off len)
      rqTail := q.rqTail + 1
      ktail := q.rqTail + 1 } = q'
  have hput : entries (q'.ringEntries - 1) q'.rqes q'.khead q'.ktail = q.queued ++ [entry q.areaToken off len] := by
    rw [← hq, queued_eq h, h.tail]
    exact entries_put h.isMask hfree (entry q.areaToken off len)
  have hlen := congrArg List.length hput
  rw [length_entries, List.length_append, length_queued h] at hlen
  have hqueue : q'.Queue := by
    refine ⟨by rw [← hq]; exact h.entries, by rw [← hq], ?_⟩
    have htail : q'.rqTail = q'.ktail := by rw [← hq]
    have hring : q'.ringEntries = q.ringEntries := by rw [← hq]
    rw [htail, hring, used_eq_sub, hlen, ← h.mask_add]
    exact hfree
  exact ⟨hqueue, (queued_eq hqueue).trans hput⟩

/-- a slot that the kernel has not read stays as it is -/
theorem return_other (h : q.Queue) (off : UInt64) (len : Int) {k : Nat} (hk : k < q.nrQueued.toNat) :
    (q.returnBuffer off len).rqes ((q.khead + UInt32.ofNat k) &&& (q.ringEntries - 1)) =
      q.rqes ((q.khead + UInt32.ofNat k) &&& (q.ringEntries - 1)) := by
  by_cases hf : q.nrQueued = q.ringEntries
  · rw [return_full hf]
  · rw [return_free hf]
    exact Function.update_of_ne (put_slot_ne h.isMask (h.free hf) hk) _ _

/-- **The kernel reads the oldest entries.** -/
theorem advance_queued (h : q.Queue) {k : Nat} (hk : k ≤ (q.ktail - q.khead).toNat) :
    (q.advance k).Queue ∧ (q.advance k).queued = q.queued.drop k ∧
      q.queued.take k = (List.range k).map fun i =>
        q.rqes ((q.khead + UInt32.ofNat i) &&& (q.ringEntries - 1)) := by
  have hle : k ≤ (entries (q.ringEntries - 1) q.rqes q.khead q.ktail).length := by rwa [length_entries]
  have hdrop : entries (q.ringEntries - 1) q.rqes (q.khead + UInt32.ofNat k) q.ktail = q.queued.drop k := by
    rw [queued_eq h]
    exact entries_drop h.isMask hle
  have hqueue : (q.advance k).Queue := by
    refine ⟨h.entries, h.tail, ?_⟩
    have hlen := congrArg List.length hdrop
    rw [length_entries, List.length_drop, length_queued h, nrQueued_toNat, h.tail] at hlen
    show used (2^32) (q.khead + UInt32.ofNat k).toNat q.rqTail.toNat ≤ q.ringEntries.toNat
    rw [used_eq_sub, hlen]
    exact le_trans (Nat.sub_le _ k) h.fits
  refine ⟨hqueue, (queued_eq hqueue).trans hdrop, ?_⟩
  rw [queued_eq h]
  exact entries_take h.isMask hle

end
end RefillQueue

/-! ## the worker and the kernel -/

/-- the queue with its history: the offset and result of every return that was not refused, and the entries
the kernel has read -/
structure Exchange where
  rq : RefillQueue
  returned : List (UInt64 × Int)
  read : List Rqe

inductive RqAct where
  | ret (off : UInt64) (res : Int)
  | advance (k : Nat)
deriving DecidableEq, Repr

/-- `zcrx_return_buffer`, or the kernel reads `k` entries; it never passes the published tail -/
def rqStep (s : Exchange) : RqAct → Option Exchange
  | .ret off res =>
    some {
      rq := s.rq.returnBuffer off res
      returned := if s.rq.nrQueued = s.rq.ringEntries then s.returned else s.returned ++ [(off, res)]
      read := s.read }
  | .advance k =>
    if k ≤ (s.rq.ktail - s.rq.khead).toNat then
      some { s with
        rq := s.rq.advance k
        read := s.read ++ (List.range k).map fun i =>
          s.rq.rqes ((s.rq.khead + UInt32.ofNat i) &&& (s.rq.ringEntries - 1)) }
    else none

/-- the entry gives back the offset of a completion, with the area in the bits above, and its length -/
structure Describes (token : UInt64) (e : Rqe) (r : UInt64 × Int) : Prop where
  low : e.off.toNat % 2^48 = r.1.toNat % 2^48
  high : e.off.toNat / 2^48 = token.toNat / 2^48
  len : e.len = r.2

theorem areaOffset_toNat (off : UInt64) : (areaOffset off).toNat = off.toNat % 2^48 := by
  unfold areaOffset
  rw [UInt64.toNat_and]
  exact Nat.and_two_pow_sub_one_eq_mod off.toNat 48

/-- a token without low bits does not disturb the offset -/
theorem entry_describes {token : UInt64} (ht : token.toNat % 2^48 = 0) (off : UInt64) (len : Int) :
    Describes token (RefillQueue.entry token off len) (off, len) := by
  have hlt : off.toNat % 2^48 < 2^48 := Nat.mod_lt _ (by decide)
  have e : (RefillQueue.entry token off len).off.toNat =
      2^48 * (token.toNat / 2^48) + off.toNat % 2^48 := by
    show (areaOffset off ||| token).toNat = _
    rw [UInt64.toNat_or, areaOffset_toNat, Nat.two_pow_add_eq_or_of_lt hlt, Nat.or_comm]
    congr 1
    have := Nat.div_add_mod token.toNat (2^48)
    omega
  refine ⟨?_, ?_, rfl⟩
  · rw [e, Nat.mul_add_mod, Nat.mod_mod]
  · rw [e, Nat.mul_add_div (by decide), Nat.div_eq_of_lt hlt, Nat.add_zero]

/-- the queue is in order and what was returned has been read or waits in it -/
structure Faithful (token : UInt64) (entries : UInt32) (s : Exchange) : Prop where
  queue : s.rq.Queue
  entries_eq : s.rq.ringEntries = entries
  token_eq : s.rq.areaToken = token
  order : s.read ++ s.rq.queued = s.returned.map fun r => RefillQueue.entry token r.1 r.2

theorem faithful_step {token : UInt64} {entries : UInt32} (s : Exchange) (a : RqAct) (t : Exchange)
    (h : Faithful token entries s) (hst : rqStep s a = some t) : Faithful token entries t := by
  cases a with
  | ret off res =>
    cases hst
    by_cases hf : s.rq.nrQueued = s.rq.ringEntries
    · rw [if_pos hf, RefillQueue.return_full hf]
      exact h
    · obtain ⟨h1, h2⟩ := RefillQueue.return_queued h.queue off res hf
      rw [if_neg hf]
      refine ⟨h1, ?_, ?_, ?_⟩
      · rw [← h.entries_eq]
        unfold RefillQueue.returnBuffer
        rw [if_neg hf]
      · rw [← h.token_eq]
        unfold RefillQueue.returnBuffer
        rw [if_neg hf]
      · show s.read ++ (s.rq.returnBuffer off res).queued = _
        rw [h2, ← List.append_assoc, h.order, List.map_append, h.token_eq]
        rfl
  | advance k =>
    simp only [rqStep] at hst
    split at hst
    · next hk =>
      cases hst
      obtain ⟨h1, h2, h3⟩ := RefillQueue.advance_queued h.queue hk
      refine ⟨h1, h.entries_eq, h.token_eq, ?_⟩
      show s.read ++ _ ++ (s.rq.advance k).queued = _
      rw [← h3, h2, List.append_assoc, List.take_append_drop]
      exact h.order
    · cases hst

/-- a queue of which nothing is used, at any value of the counters -/
def freshQueue (entries v : UInt32) (token : UInt64) (rqes : UInt32 → Rqe) : RefillQueue :=
  ⟨v, v, v, entries, token, rqes⟩

theorem fresh_queue {entries : UInt32} (hk : ∃ k ≤ 31, entries.toNat = 2^k) (v : UInt32) (token : UInt64)
    (rqes : UInt32 → Rqe) :
    (freshQueue entries v token rqes).Queue ∧ (freshQueue entries v token rqes).queued = [] := by
  refine ⟨⟨hk, rfl, ?_⟩, window_self v.toNat_lt⟩
  show used (2^32) v.toNat v.toNat ≤ _
  rw [used_self v.toNat_lt]
  exact Nat.zero_le _

/-- **The refill queue is a FIFO.**  For every power of two of entries, every initial value of the counters and
every interleaving of returns and of the kernel's reads: the queue never holds more than its entries, a return
never overwrites a slot that the kernel has not read, and what the kernel reads, followed by what it has still
to read, are the returns that were not refused, in order, with their offsets, the area and their lengths.  A return is
refused exactly if the queue holds all its entries. -/
theorem refill_integrity (entries v : UInt32) (token : UInt64) (rqes : UInt32 → Rqe)
    (hk : ∃ k ≤ 31, entries.toNat = 2^k) (ht : token.toNat % 2^48 = 0) (s : Exchange)
    (h : Trans.Reach rqStep ⟨freshQueue entries v token rqes, [], []⟩ s) :
    s.rq.rqTail - s.rq.khead ≤ entries ∧
      (∀ off res, ∀ k < (s.rq.rqTail - s.rq.khead).toNat,
        (s.rq.returnBuffer off res).rqes ((s.rq.khead + UInt32.ofNat k) &&& (entries - 1)) =
          s.rq.rqes ((s.rq.khead + UInt32.ofNat k) &&& (entries - 1))) ∧
      List.Forall₂ (Describes token) (s.read ++ s.rq.queued) s.returned ∧
      s.rq.queued.length = (s.rq.rqTail - s.rq.khead).toNat ∧
      ∀ off res t, rqStep s (.ret off res) = some t →
        (t.returned = s.returned ++ [(off, res)] ↔ s.rq.rqTail - s.rq.khead ≠ entries) := by
  obtain ⟨h1, h2⟩ := fresh_queue hk v token rqes
  have h0 : Faithful token entries ⟨freshQueue entries v token rqes, [], []⟩ := ⟨h1, rfl, rfl, h2⟩
  have hs := h.inv h0 faithful_step
  refine ⟨?_, fun off res k hk' => ?_, ?_, RefillQueue.length_queued hs.queue, fun off res t hst => ?_⟩
  · rw [UInt32.le_iff_toNat_le, ← hs.entries_eq]
    exact le_of_eq_of_le (RefillQueue.nrQueued_toNat s.rq) hs.queue.fits
  · rw [← hs.entries_eq]
    exact RefillQueue.return_other hs.queue off res hk'
  · rw [hs.order, List.forall₂_map_left_iff, List.forall₂_same]
    exact fun r _ => entry_describes ht r.1 r.2
  · cases hst
    rw [← hs.entries_eq]
    show (if s.rq.nrQueued = s.rq.ringEntries then _ else _) = _ ↔ s.rq.nrQueued ≠ s.rq.ringEntries
    by_cases hf : s.rq.nrQueued = s.rq.ringEntries
    · rw [if_pos hf]
      exact iff_of_false (fun e => by simpa using congrArg List.length e) (fun h => h hf)
    · rw [if_neg hf]
      exact iff_of_true rfl hf

/-- the counters wrap, the third return finds the queue full, and the kernel reads the first two -/
def wrapRun : List RqAct := [.ret 4096 100, .ret 8192 200, .ret 12288 300, .advance 2]

theorem refill_integrity_wrap : (∃ k ≤ 31, (2 : UInt32).toNat = 2^k) ∧
    (0x1000000000000 : UInt64).toNat % 2^48 = 0 ∧
    ∃ s, Trans.Reach rqStep ⟨freshQueue 2 4294967295 0x1000000000000 (fun _ => ⟨0, 0⟩), [], []⟩ s ∧
      s.returned = [(4096, 100), (8192, 200)] ∧
      List.Forall₂ (Describes 0x1000000000000) (s.read ++ s.rq.queued) s.returned := by
  have h : ∃ s, Trans.Reach rqStep ⟨freshQueue 2 4294967295 0x1000000000000 (fun _ => ⟨0, 0⟩), [], []⟩ s ∧
      s.returned = [(4096, 100), (8192, 200)] := Trans.exists_reach wrapRun (by decide +kernel)
  obtain ⟨s, hreach, hret⟩ := h
  have hk : ∃ k ≤ 31, (2 : UInt32).toNat = 2^k := ⟨1, by decide, rfl⟩
  have ht : (0x1000000000000 : UInt64).toNat % 2^48 = 0 := by decide
  exact ⟨hk, ht, s, hreach, hret,
    (refill_integrity 2 4294967295 0x1000000000000 (fun _ => ⟨0, 0⟩) hk ht s hreach).2.2.1⟩

end Zcrx
end UringPerf
