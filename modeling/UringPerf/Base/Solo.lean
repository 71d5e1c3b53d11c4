import UringPerf.Base.Delivery
import UringPerf.Base.Single

/-!
# A ring that serves one connection

Every entry of the ring is a receive of the one connection, a processed completion ends the connection, or queues its
receive again, or does nothing.  Nothing here is about a particular worker.

* `Solo`          the data of such a loop, `Solo.tap` its connection;
* `Solo.early`    the completions, and other actions, that end the connection before the end of the stream, and those
                  that leave it without a receive;
* `Solo.Law`      what the actions do;
* `Law.spec`      such a loop follows the discipline of a receiver.
-/

namespace Uring

section
variable {σ α ε : Type}

structure Solo (σ α ε : Type) where
  step : σ → α → Option σ
  ring : σ → IoRing ε
  kind : ε → Kind
  isOpen : σ → Bool
  stop : σ → Bool
  bytes : σ → Nat
  /-- the action processes the first completion -/
  takes : α → Bool
  /-- the action is the kernel's, which completes an entry -/
  posts : α → Option (Nat × Completion)
  /-- the action ends the connection without a completion -/
  quits : α → Bool
  /-- what a completion queues -/
  again : σ → Cqe ε → List ε
  /-- the completions that end the connection -/
  ends : Completion → Bool
  counts : Completion → Nat
  whole : Completion → Bool

namespace Solo
variable (S : Solo σ α ε)

/-- all entries are of the connection -/
def key (_ : ε) : Option Unit := some ()

def armed (s : σ) : Nat := (S.ring s).armedIn S.kind key ()

def tap : Tap σ α where
  step := S.step
  posted := fun s a => (S.posts a).bind fun p => (S.ring s).named (fun _ => true) p.1 p.2
  taken := fun s a => if S.takes a then (S.ring s).first fun _ => true else none
  pending := fun s => (S.ring s).unseen fun _ => true
  armed := S.armed
  isOpen := S.isOpen
  stop := S.stop
  bytes := S.bytes
  whole := S.whole

theorem taken_eq (s : σ) (a : α) : S.tap.taken s a = if S.takes a then (S.ring s).first (fun _ => true) else none := rfl

theorem posted_eq (s : σ) (a : α) :
    S.tap.posted s a = (S.posts a).bind fun p => (S.ring s).named (fun _ => true) p.1 p.2 := rfl

theorem pending_eq (s : σ) : S.tap.pending s = (S.ring s).unseen fun _ => true := rfl

/-- the completion ends the connection and is not the end of the stream -/
def cuts (c : Completion) : Bool := S.ends c && c.res != 0

/-- the completion is the last receive, which is to be repeated, and there is no room for it -/
def starves (s : σ) (c : Cqe ε) : Bool :=
  (S.kind c.op).closes c.toCompletion && !S.ends c.toCompletion && S.armed s == 1 &&
    !decide ((S.ring s).sq.length < (S.ring s).cap)

def early (s : σ) (a : α) : Bool :=
  S.isOpen s && (S.quits a || (S.takes a && (S.ring s).cq.head?.any fun c => S.cuts c.toCompletion || S.starves s c))

/-- the first completion has been processed -/
structure Taken (s t : σ) (c : Cqe ε) (cs : List (Cqe ε)) : Prop where
  cq : (S.ring s).cq = c :: cs
  ring : S.ring t = (S.ring s).seen.pushAll (S.again s c)
  isOpen : S.isOpen t = (S.isOpen s && !S.ends c.toCompletion)
  bytes : S.bytes t = S.bytes s + S.counts c.toCompletion
  stop : S.stop t = S.stop s

structure Law (J : σ → Prop) : Prop where
  inv : ∀ s a t, J s → S.step s a = some t → J t
  apart : ∀ a, S.takes a = true → S.posts a = none ∧ S.quits a = false
  takes : ∀ s a t, J s → S.step s a = some t → S.takes a = true → ∃ c cs, S.Taken s t c cs
  posts : ∀ s a t i c, J s → S.step s a = some t → S.posts a = some (i, c) → S.quits a = false ∧
    (S.ring s).post S.kind i c = some (S.ring t) ∧ S.isOpen t = S.isOpen s ∧ S.stop t = S.stop s
  other : ∀ s a t, J s → S.step s a = some t → S.takes a = false → S.posts a = none →
    (S.ring t).cq = (S.ring s).cq ∧ S.armed t = S.armed s ∧ S.isOpen t = (S.isOpen s && !S.quits a) ∧
      (S.stop t = false → S.stop s = false) ∧ (S.quits a = true → S.stop t = S.stop s)
  /-- a receive that is complete and does not end the connection is queued again -/
  again : ∀ s c cs, J s → S.stop s = false → (S.ring s).cq = c :: cs →
    (S.kind c.op).closes c.toCompletion = true → S.ends c.toCompletion = false → ∃ o, S.again s c = [o]
  counts_le : ∀ c, S.counts c ≤ c.res.toNat
  /-- what is not counted in full ends the connection -/
  exact : ∀ c, (0 < c.res → S.whole c = true) → S.ends c = false → S.counts c = c.res.toNat

variable {S} {J : σ → Prop} {s t : σ} {a : α}

theorem first_eq {r : IoRing ε} {c : Cqe ε} {cs : List (Cqe ε)} (h : r.cq = c :: cs) :
    r.first (fun _ => true) = some c.toCompletion := by
  unfold IoRing.first
  rw [h]
  rfl

theorem countP_key (l : List ε) : l.countP (fun o => key o = some ()) = l.length :=
  List.countP_eq_length.mpr fun o _ => decide_eq_true (show key o = some () from rfl)

/-- of the entries that are submitted first at least one fits -/
theorem armed_init {kind : ε → Kind} {cap : Nat} {sqpoll : Bool} {ops : List ε} (hne : ops ≠ []) (hcap : 1 ≤ cap) :
    0 < ((IoRing.init cap sqpoll).pushAll ops).submit.armedIn kind key () := by
  rw [IoRing.armedIn_submit, IoRing.armedIn_pushAll_take, countP_key, List.length_take]
  have hlen := List.length_pos_iff.mpr hne
  have hsq : (IoRing.init cap sqpoll : IoRing ε).cap - (IoRing.init cap sqpoll : IoRing ε).sq.length = cap := rfl
  omega

/-- how the receives change -/
theorem Taken.armed {c : Cqe ε} {cs : List (Cqe ε)} (h : S.Taken s t c cs) :
    S.armed t + (if (S.kind c.op).closes c.toCompletion = true then 1 else 0)
      = ((S.again s c).take ((S.ring s).cap - (S.ring s).sq.length)).length + S.armed s := by
  have hbal := IoRing.armedIn_processed S.kind key h.cq (S.again s c) ()
  rw [← h.ring, countP_key] at hbal
  rw [show S.armed s = (S.ring s).armedIn S.kind key () from rfl, ← hbal]
  exact congrArg _ (if_congr (iff_and_self.mpr fun _ => rfl) rfl rfl)

/-- a processed completion leaves the connection without a receive at the end of the stream, or early -/
theorem Law.taken_gone (hL : S.Law J) (hJ : J s) {c : Cqe ε} {cs : List (Cqe ε)} (h : S.Taken s t c cs)
    (hstop : S.stop s = false) (hrec : S.tap.Receives s) (hgone : ¬ S.tap.Receives t) :
    (S.cuts c.toCompletion || S.starves s c) = true ∨ c.res = 0 := by
  have hopen : S.isOpen s = true := hrec.1
  have hpos : 0 < S.armed s := hrec.2
  cases hends : S.ends c.toCompletion with
  | true =>
    by_cases hres : c.res = 0
    · exact Or.inr hres
    · refine Or.inl ?_
      unfold cuts
      rw [hends, bne_iff_ne.mpr hres]
      rfl
  | false =>
    have hopen' : S.isOpen t = true := by
      rw [h.isOpen, hopen, hends]
      rfl
    have hzero : S.armed t = 0 := by
      by_contra hne
      exact hgone ⟨hopen', Nat.pos_of_ne_zero hne⟩
    have hbal := h.armed
    cases hcl : (S.kind c.op).closes c.toCompletion with
    | false =>
      rw [hcl, if_neg Bool.false_ne_true] at hbal
      omega
    | true =>
      obtain ⟨o, ho⟩ := hL.again s c cs hJ hstop h.cq hcl hends
      rw [hcl, if_pos rfl, ho, List.length_take, List.length_singleton] at hbal
      have hroom : ¬ (S.ring s).sq.length < (S.ring s).cap := by omega
      have hone : S.armed s = 1 := by omega
      refine Or.inl ?_
      unfold starves
      rw [hcl, hends, hone, decide_eq_false hroom, Bool.or_eq_true]
      exact Or.inr rfl

theorem taken_early {c : Cqe ε} {cs : List (Cqe ε)} (h : S.Taken s t c cs)
    (he : (S.cuts c.toCompletion || S.starves s c) = true) : ¬ S.tap.Receives t := by
  intro hrec
  have hopen : S.isOpen t = true := hrec.1
  have hpos : 0 < S.armed t := hrec.2
  rcases Bool.or_eq_true_iff.mp he with he | he
  · rw [h.isOpen, (Bool.and_eq_true_iff.mp he).1, Bool.not_true, Bool.and_false] at hopen
    cases hopen
  · unfold starves at he
    simp only [Bool.and_eq_true, beq_iff_eq, Bool.not_eq_true', decide_eq_false_iff_not] at he
    obtain ⟨⟨⟨hcl, -⟩, hone⟩, hroom⟩ := he
    have hbal := h.armed
    rw [if_pos hcl, hone, List.length_take] at hbal
    omega

theorem Law.actions (hL : S.Law J) (hJ : J s) (h : S.step s a = some t) :
    (∃ c cs, S.takes a = true ∧ S.Taken s t c cs) ∨ S.takes a = false := by
  cases htak : S.takes a with
  | true =>
    obtain ⟨c, cs, h'⟩ := hL.takes s a t hJ h htak
    exact Or.inl ⟨c, cs, rfl, h'⟩
  | false => exact Or.inr rfl

theorem Law.taken_some (hL : S.Law J) (hJ : J s) (h : S.step s a = some t) {c : Completion}
    (htak : S.tap.taken s a = some c) : ∃ d ds, S.Taken s t d ds ∧ d.toCompletion = c := by
  rw [taken_eq] at htak
  rcases hL.actions hJ h with ⟨d, ds, htak', h'⟩ | htak'
  · rw [if_pos htak', first_eq h'.cq] at htak
    exact ⟨d, ds, h', Option.some.inj htak⟩
  · rw [htak'] at htak
    cases htak

theorem Law.fifo (hL : S.Law J) (hJ : J s) (h : S.step s a = some t) :
    (S.tap.taken s a).toList ++ S.tap.pending t = S.tap.pending s ++ (S.tap.posted s a).toList := by
  rw [taken_eq, posted_eq, pending_eq, pending_eq]
  rcases hL.actions hJ h with ⟨c, cs, htak, h'⟩ | htak
  · have hpend : (S.ring t).unseen (fun _ => true) = (S.ring s).seen.unseen fun _ => true :=
      IoRing.unseen_congr _ (by rw [h'.ring, IoRing.pushAll_cq])
    rw [(hL.apart a htak).1, if_pos htak, hpend, IoRing.unseen_seen _ h'.cq]
    exact (List.append_nil _).symm
  · cases hpost : S.posts a with
    | none =>
      rw [htak, IoRing.unseen_congr _ (hL.other s a t hJ h htak hpost).1]
      exact (List.append_nil _).symm
    | some p =>
      rw [htak, IoRing.unseen_post _ (hL.posts s a t p.1 p.2 hJ h hpost).2.1]
      rfl

/-- the actions that process no completion keep the receives, unless they end the connection -/
theorem Law.kept (hL : S.Law J) (hJ : J s) (h : S.step s a = some t) (htak : S.takes a = false) :
    S.armed t = S.armed s ∧ S.isOpen t = (S.isOpen s && !S.quits a) ∧ (S.stop t = false → S.stop s = false) ∧
      (S.quits a = true → S.stop t = S.stop s) := by
  cases hpost : S.posts a with
  | none => exact (hL.other s a t hJ h htak hpost).2
  | some p =>
    obtain ⟨hq, hr, ho, hstop⟩ := hL.posts s a t p.1 p.2 hJ h hpost
    rw [hq, ho, hstop, Bool.not_false, Bool.and_true]
    exact ⟨IoRing.armedIn_post hr (), rfl, id, fun _ => rfl⟩

/-- **A loop over one connection follows the discipline of a receiver.** -/
theorem Law.spec (hL : S.Law J) : S.tap.Spec J S.counts fun s a => S.early s a = true where
  inv := hL.inv
  fifo := fun s a t hJ h => hL.fifo hJ h
  single := by
    intro s a
    cases htak : S.takes a with
    | true =>
      rw [posted_eq, (hL.apart a htak).1]
      exact Or.inr rfl
    | false =>
      rw [taken_eq, htak]
      exact Or.inl rfl
  count := by
    intro s a t c hJ h htak
    obtain ⟨d, ds, h', rfl⟩ := hL.taken_some hJ h htak
    exact h'.bytes
  counts_le := hL.counts_le
  exact := by
    intro s a t c hJ h htak hwhole hopen
    obtain ⟨d, ds, h', rfl⟩ := hL.taken_some hJ h htak
    replace hopen : S.isOpen t = true := hopen
    rw [h'.isOpen, Bool.and_eq_true, Bool.not_eq_true'] at hopen
    exact hL.exact _ hwhole hopen.2
  opened := by
    intro s a t hJ h hopen
    replace hopen : S.isOpen t = true := hopen
    rcases hL.actions hJ h with ⟨c, cs, -, h'⟩ | htak
    · rw [h'.isOpen] at hopen
      exact (Bool.and_eq_true_iff.mp hopen).1
    · rw [(hL.kept hJ h htak).2.1] at hopen
      exact (Bool.and_eq_true_iff.mp hopen).1
  stop := by
    intro s a t hJ h hstop
    rcases hL.actions hJ h with ⟨c, cs, -, h'⟩ | htak
    · exact h'.stop.symm.trans hstop
    · exact (hL.kept hJ h htak).2.2.1 hstop
  gone := by
    intro s a t hJ h hstop hrec hgone
    have hopen : S.isOpen s = true := hrec.1
    rcases hL.actions hJ h with ⟨c, cs, htak, h'⟩ | htak
    · rcases hL.taken_gone hJ h' (h'.stop.symm.trans hstop) hrec hgone with hearly | hres
      · refine Or.inl ?_
        unfold early
        rw [hopen, htak, h'.cq, List.head?_cons, Option.any_some, hearly]
        simp
      · exact Or.inr ⟨c.toCompletion, by rw [taken_eq, if_pos htak, first_eq h'.cq], hres⟩
    · obtain ⟨harmed, hopen', -⟩ := hL.kept hJ h htak
      refine Or.inl ?_
      cases hq : S.quits a with
      | true =>
        unfold early
        rw [hopen, hq]
        rfl
      | false =>
        rw [hq, hopen] at hopen'
        exact absurd ⟨hopen', lt_of_lt_of_eq hrec.2 harmed.symm⟩ hgone
  early_gone := by
    intro s a t hJ h hstop hearly
    unfold early at hearly
    rw [Bool.and_eq_true, Bool.or_eq_true, Bool.and_eq_true] at hearly
    obtain ⟨-, hq | ⟨htak, hearly⟩⟩ := hearly
    · have htak : S.takes a = false := by
        cases htak : S.takes a with
        | false => rfl
        | true => exact absurd hq (by rw [(hL.apart a htak).2]; exact Bool.false_ne_true)
      obtain ⟨-, hopen', -, hkeep⟩ := hL.kept hJ h htak
      refine ⟨(hkeep hq).trans hstop, fun hrec => ?_⟩
      have hopen : S.isOpen t = true := hrec.1
      rw [hopen', hq, Bool.not_true, Bool.and_false] at hopen
      cases hopen
    · obtain ⟨c, cs, h'⟩ := hL.takes s a t hJ h htak
      rw [h'.cq, List.head?_cons, Option.any_some] at hearly
      exact ⟨h'.stop.trans hstop, taken_early h' hearly⟩

end Solo
end
end Uring
