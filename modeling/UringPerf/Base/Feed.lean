import UringPerf.Base.Ring
import Mathlib.Algebra.BigOperators.Group.List.Basic

/-!
# Feeding completions to a receiver

A receiver processes the completions of one connection, one after the other, until it closes.  Which
completion closes it and how many bytes it counts for each of them is all that matters for the outcome.

* `Receiver.feed`   the state after the completions and the one that closed the receiver;
* `Receiver.Spec`   the receiver closes on `ends` and counts `counts`;
* `feed_eq`         then `feed` stops at the first completion in `ends` and has counted all up to it.
-/

namespace Uring

structure Receiver (σ : Type*) where
  handle : σ → Completion → σ
  closed : σ → Bool
  bytes : σ → Nat

/-- the list up to and including the first element that satisfies `p` -/
def upTo {α : Type*} (p : α → Bool) : List α → List α
  | [] => []
  | a :: l => if p a then [a] else a :: upTo p l

namespace Receiver
section
variable {σ : Type*} (R : Receiver σ)

def feed : σ → List Completion → σ × Option Completion
  | s, [] => (s, none)
  | s, c :: cs => if R.closed (R.handle s c) then (R.handle s c, some c) else feed (R.handle s c) cs

/-- `I` holds as long as the receiver is open -/
structure Spec (I : σ → Prop) (ends : Completion → Bool) (counts : Completion → Nat) : Prop where
  closed : ∀ s c, I s → R.closed (R.handle s c) = ends c
  bytes : ∀ s c, I s → R.bytes (R.handle s c) = R.bytes s + counts c
  keep : ∀ s c, I s → ends c = false → I (R.handle s c)

variable {R} {I : σ → Prop} {ends : Completion → Bool} {counts : Completion → Nat}

theorem feed_eq (h : R.Spec I ends counts) (cs : List Completion) : ∀ s, I s →
    (R.feed s cs).2 = cs.find? ends ∧
      R.bytes (R.feed s cs).1 = R.bytes s + ((upTo ends cs).map counts).sum := by
  induction cs with
  | nil => intro s _; exact ⟨rfl, rfl⟩
  | cons c cs ih =>
    intro s hs
    have hb := h.bytes s c hs
    unfold feed upTo
    rw [h.closed s c hs, List.find?_cons]
    cases he : ends c with
    | true => exact ⟨rfl, by simpa using hb⟩
    | false =>
      obtain ⟨h1, h2⟩ := ih (R.handle s c) (h.keep s c hs he)
      refine ⟨h1, ?_⟩
      simp only [Bool.false_eq_true, if_false, List.map_cons, List.sum_cons]
      rw [h2, hb, Nat.add_assoc]

end
end Receiver
end Uring
