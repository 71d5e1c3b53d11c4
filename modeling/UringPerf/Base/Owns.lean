import Mathlib

/-!
# Programs that acquire and release

A program makes calls, and the environment chooses what each call returns.  Calls give resources to the program and take
them back; which ones may depend on the result.  Nothing here is about particular calls.

* `Prog γ ρ β`       programs over calls `γ` with results `ρ`, as trees: the next call depends on the result;
* `Runs p tr b`      a run: the calls with their results, and what is returned;
* `Safe E p H Q`     started with `H`, the program never releases what it does not hold, and returns with `Q`;
* `Owns E p P Q`     the program turns exactly `P` into exactly `Q b`; `Owns.bind`, `Owns.frame` put programs together;
* `Owns.ledger`      what this says about runs: no call releases more than was acquired, and in the end everything
                     acquired has been released but for `Q b`.
-/

namespace Owning

inductive Prog (γ : Type) (ρ : γ → Type) (β : Type) where
  | ret (b : β)
  | call (c : γ) (k : ρ c → Prog γ ρ β)

/-- what a call gives, after it has returned, and what it takes -/
structure Ledger (γ : Type) (ρ : γ → Type) (R : Type) where
  gives : (c : γ) → ρ c → Multiset R
  takes : γ → Multiset R

section
variable {γ : Type} {ρ : γ → Type} {β δ R : Type}

namespace Prog

def bind : Prog γ ρ β → (β → Prog γ ρ δ) → Prog γ ρ δ
  | .ret b, f => f b
  | .call c k, f => .call c fun r => (k r).bind f

instance : Monad (Prog γ ρ) where
  pure := .ret
  bind := bind

/-- a single call -/
def once (c : γ) : Prog γ ρ (ρ c) := .call c .ret

/-- the program if `b` holds, and otherwise the value `d` -/
def maybe (b : Bool) (p : Prog γ ρ β) (d : β) : Prog γ ρ β := if b then p else .ret d

/-- one program for each element, in order -/
def forAll {ι : Type} (f : ι → Prog γ ρ Unit) : List ι → Prog γ ρ Unit
  | [] => .ret ()
  | i :: is => (f i).bind fun _ => forAll f is

/-- `n` times the same program -/
def times (p : Prog γ ρ β) : Nat → Prog γ ρ (List β)
  | 0 => .ret []
  | n + 1 => p.bind fun b => (times p n).bind fun bs => .ret (b :: bs)

end Prog

/-! ## runs -/

inductive Runs : Prog γ ρ β → List ((c : γ) × ρ c) → β → Prop where
  | ret (b : β) : Runs (.ret b) [] b
  | call {c : γ} {k : ρ c → Prog γ ρ β} {r : ρ c} {tr : List ((c : γ) × ρ c)} {b : β} (h : Runs (k r) tr b) :
    Runs (.call c k) (⟨c, r⟩ :: tr) b

variable (E : Ledger γ ρ R)

def acquired (tr : List ((c : γ) × ρ c)) : Multiset R := (tr.map fun e => E.gives e.1 e.2).sum

def released (tr : List ((c : γ) × ρ c)) : Multiset R := (tr.map fun e => E.takes e.1).sum

variable [DecidableEq R]

def Safe : Prog γ ρ β → Multiset R → (β → Multiset R → Prop) → Prop
  | .ret b, H, Q => Q b H
  | .call c k, H, Q => E.takes c ≤ H ∧ ∀ r, Safe (k r) (H - E.takes c + E.gives c r) Q

def Owns (p : Prog γ ρ β) (P : Multiset R) (Q : β → Multiset R) : Prop := Safe E p P fun b H => H = Q b

variable {E} {p : Prog γ ρ β} {f : β → Prog γ ρ δ} {H F P : Multiset R}

theorem Safe.bind {Q : δ → Multiset R → Prop} (h : Safe E p H fun b H' => Safe E (f b) H' Q) :
    Safe E (p.bind f) H Q := by
  induction p generalizing H with
  | ret b => exact h
  | call c k ih => exact ⟨h.1, fun r => ih r (h.2 r)⟩

theorem Safe.imp {Q Q' : β → Multiset R → Prop} (h : Safe E p H Q) (hq : ∀ b H', Q b H' → Q' b H') :
    Safe E p H Q' := by
  induction p generalizing H with
  | ret b => exact hq b H h
  | call c k ih => exact ⟨h.1, fun r => ih r (h.2 r)⟩

/-- a program does not touch what it was not given -/
theorem Safe.frame {Q : β → Multiset R → Prop} (h : Safe E p H Q) (F : Multiset R) :
    Safe E p (H + F) fun b H' => ∃ H'', H' = H'' + F ∧ Q b H'' := by
  induction p generalizing H with
  | ret b => exact ⟨H, rfl, h⟩
  | call c k ih =>
    refine ⟨h.1.trans (Multiset.le_add_right H F), fun r => ?_⟩
    have heq : H + F - E.takes c + E.gives c r = H - E.takes c + E.gives c r + F := by
      rw [← tsub_add_eq_add_tsub h.1, add_right_comm]
    rw [heq]
    exact ih r (h.2 r)

theorem Owns.frame {Q : β → Multiset R} (h : Owns E p P Q) (F : Multiset R) : Owns E p (P + F) fun b => Q b + F := by
  refine (Safe.frame h F).imp fun b H' hH => ?_
  obtain ⟨H'', rfl, rfl⟩ := hH
  rfl

/-- a program that needs nothing, run with something at hand -/
theorem Owns.beside {Q : β → Multiset R} (h : Owns E p 0 Q) (F : Multiset R) : Owns E p F fun b => Q b + F := by
  have hframe := h.frame F
  rw [zero_add] at hframe
  exact hframe

theorem Owns.ret {b : β} {Q : β → Multiset R} (h : P = Q b) : Owns E (.ret b : Prog γ ρ β) P Q := h

theorem Owns.bind {Q : β → Multiset R} {Q' : δ → Multiset R} (h : Owns E p P Q) (hf : ∀ b, Owns E (f b) (Q b) Q') :
    Owns E (p.bind f) P Q' :=
  Safe.bind (Safe.imp h fun b _ hH => hH ▸ hf b)

theorem Owns.congr {P' : Multiset R} {Q Q' : β → Multiset R} (h : Owns E p P Q) (hp : P' = P) (hq : ∀ b, Q b = Q' b) :
    Owns E p P' Q' := by
  subst hp
  exact Safe.imp h fun b _ hH => hH.trans (hq b)

/-- a call that takes nothing -/
theorem Owns.acquire {c : γ} (h : E.takes c = 0) (P : Multiset R) :
    Owns E (.once c : Prog γ ρ (ρ c)) P fun r => P + E.gives c r := by
  refine ⟨by rw [h]; exact Multiset.zero_le P, fun r => ?_⟩
  rw [h, tsub_zero]
  rfl

/-- a call that gives nothing -/
theorem Owns.release {c : γ} (h : ∀ r, E.gives c r = 0) (P : Multiset R) :
    Owns E (.once c : Prog γ ρ (ρ c)) (E.takes c + P) fun _ => P := by
  refine ⟨Multiset.le_add_right _ _, fun r => ?_⟩
  rw [h r, add_zero, add_tsub_cancel_left]
  rfl

theorem Owns.maybe {b : Bool} {d : β} {Q : β → Multiset R} (h : b = true → Owns E p P Q) (hd : b = false → P = Q d) :
    Owns E (Prog.maybe b p d) P Q := by
  cases b with
  | true => exact h rfl
  | false => exact hd rfl

theorem Owns.forAll {ι : Type} {g : ι → Prog γ ρ Unit} {m : ι → Multiset R} (h : ∀ i, Owns E (g i) (m i) fun _ => 0)
    (is : List ι) : Owns E (Prog.forAll g is) (is.map m).sum fun _ => 0 := by
  induction is with
  | nil => exact Owns.ret rfl
  | cons i is ih =>
    rw [List.map_cons, List.sum_cons]
    refine ((h i).frame _).bind fun _ => ?_
    rw [zero_add]
    exact ih

theorem Owns.times {m : β → Multiset R} (h : Owns E p 0 m) (n : Nat) :
    Owns E (Prog.times p n) 0 fun bs => (bs.map m).sum := by
  induction n with
  | zero => exact Owns.ret rfl
  | succ n ih =>
    refine h.bind fun b => ?_
    refine (ih.beside (m b)).bind fun bs => Owns.ret ?_
    rw [List.map_cons, List.sum_cons, add_comm]

/-! ## what it says about runs -/

theorem Safe.ledger {Q : β → Multiset R → Prop} {tr : List ((c : γ) × ρ c)} {b : β} (h : Safe E p H Q)
    (hr : Runs p tr b) : (∀ pre, pre <+: tr → released E pre ≤ H + acquired E pre) ∧
      ∃ H', Q b H' ∧ H + acquired E tr = H' + released E tr := by
  induction hr generalizing H with
  | ret b =>
    refine ⟨fun pre hpre => ?_, H, h, rfl⟩
    rw [List.prefix_nil.mp hpre]
    exact Multiset.zero_le _
  | @call c k r tr b _ ih =>
    obtain ⟨htakes, hk⟩ := h
    obtain ⟨hpre, H', hq, heq⟩ := ih (hk r)
    have hmove : ∀ A : Multiset R, H + (E.gives c r + A) = H - E.takes c + E.gives c r + A + E.takes c := by
      intro A
      calc H + (E.gives c r + A) = H - E.takes c + E.takes c + (E.gives c r + A) := by rw [tsub_add_cancel_of_le htakes]
        _ = H - E.takes c + E.gives c r + A + E.takes c := by ac_rfl
    refine ⟨fun pre hp => ?_, H', hq, ?_⟩
    · rcases List.prefix_cons_iff.mp hp with rfl | ⟨pre', rfl, hp'⟩
      · exact Multiset.zero_le _
      · show E.takes c + released E pre' ≤ H + (E.gives c r + acquired E pre')
        rw [hmove, add_comm]
        exact add_le_add_left (hpre pre' hp') _
    · show H + (E.gives c r + acquired E tr) = H' + (E.takes c + released E tr)
      rw [hmove, heq]
      ac_rfl

/-- **Every run of a program that owns nothing at first** releases no more than it has acquired, at any point, and has
released everything but `Q b` in the end. -/
theorem Owns.ledger {Q : β → Multiset R} {tr : List ((c : γ) × ρ c)} {b : β} (h : Owns E p 0 Q) (hr : Runs p tr b) :
    (∀ pre, pre <+: tr → released E pre ≤ acquired E pre) ∧ acquired E tr = Q b + released E tr := by
  obtain ⟨hpre, H', rfl, heq⟩ := Safe.ledger h hr
  simp only [zero_add] at hpre heq
  exact ⟨hpre, heq⟩

end
end Owning
