import UringPerf.Base.Ring

/-!
# Entries that are armed at most once

Entries are grouped by a key (`key o = none`: the entry is in no group).  `Single kind key r`: in
every group at most one entry is armed, and a closing completion is the last one of its group.

* `Single.post`, `Single.submit`, `Single.consume`   the kernel keeps this;
* `Single.pushAll`   the application keeps it if it queues nothing that is still armed;
* `Single.alone`     once a closing completion is processed, nothing of its group is outstanding.
-/

set_option linter.unusedSectionVars false
set_option linter.unusedVariables false

namespace Uring
namespace IoRing

section
variable {ε κ : Type*} [DecidableEq κ] (kind : ε → Kind) (key : ε → Option κ)

/-- number of armed entries of the group `k` -/
def armedIn (r : IoRing ε) (k : κ) : Nat := (r.armed kind).countP fun o => key o = some k

structure Single (r : IoRing ε) : Prop where
  once : ∀ k, r.armedIn kind key k ≤ 1
  last : r.cq.Pairwise fun a b => ∀ k, key a.op = some k → key b.op = some k →
    (kind a.op).closes a.toCompletion = false
  waits : ∀ p ∈ r.kern, p.waiting = true → kind p.op = .zerocopy

variable {kind key}
variable {r r' : IoRing ε} {k : κ}

theorem single_init (cap : Nat) (sqpoll : Bool) : Single kind key (init cap sqpoll : IoRing ε) where
  once := fun k => Nat.zero_le 1
  last := List.Pairwise.nil
  waits := fun p hp => absurd hp List.not_mem_nil

theorem armedIn_submit (r : IoRing ε) (k : κ) :
    r.submit.armedIn kind key k = r.armedIn kind key k := (armed_submit kind r).countP_eq _

theorem armedIn_consume (h : r.consume = some r') (k : κ) :
    r'.armedIn kind key k = r.armedIn kind key k := (armed_consume kind h).countP_eq _

theorem armedIn_post {i : Nat} {c : Completion} (h : r.post kind i c = some r') (k : κ) :
    r'.armedIn kind key k = r.armedIn kind key k := (armed_post kind h).countP_eq _

/-- what fits is armed -/
theorem armedIn_pushAll_take (r : IoRing ε) (ops : List ε) (k : κ) : (r.pushAll ops).armedIn kind key k
    = (ops.take (r.cap - r.sq.length)).countP (fun o => key o = some k) + r.armedIn kind key k := by
  unfold armedIn
  rw [(armed_pushAll kind r ops).countP_eq, List.countP_append]

theorem armedIn_pushAll_le (r : IoRing ε) (ops : List ε) (k : κ) :
    (r.pushAll ops).armedIn kind key k
      ≤ ops.countP (fun o => key o = some k) + r.armedIn kind key k := by
  rw [armedIn_pushAll_take]
  have h : (ops.take (r.cap - r.sq.length)).countP (fun o => key o = some k)
      ≤ ops.countP fun o => key o = some k := (List.take_sublist _ _).countP_le
  omega

/-- nothing is lost if everything fits -/
theorem armedIn_pushAll_fits (r : IoRing ε) (ops : List ε) (k : κ)
    (h : r.sq.length + ops.length ≤ r.cap) : (r.pushAll ops).armedIn kind key k
      = ops.countP (fun o => key o = some k) + r.armedIn kind key k := by
  rw [armedIn_pushAll_take, List.take_of_length_le (by omega)]

/-- nothing is lost if no entry is refused -/
theorem armedIn_pushAll (r : IoRing ε) (ops : List ε) (k : κ) (h : (r.pushAll ops).nulls = 0) :
    (r.pushAll ops).armedIn kind key k
      = ops.countP (fun o => key o = some k) + r.armedIn kind key k := by
  have h1 := r.sq_le
  have h2 := (pushAll_sq r ops).2
  rw [h] at h2
  exact armedIn_pushAll_fits r ops k (by omega)

theorem armedIn_seen {c : Cqe ε} {cs : List (Cqe ε)} (h : r.cq = c :: cs) (k : κ) :
    r.armedIn kind key k
      = (if key c.op = some k ∧ (kind c.op).closes c.toCompletion = true then 1 else 0)
        + r.seen.armedIn kind key k := by
  unfold armedIn
  rw [(armed_seen kind h).countP_eq, List.countP_append]
  congr 1
  unfold Cqe.armed
  by_cases h1 : (kind c.op).closes c.toCompletion = true <;> by_cases h2 : key c.op = some k <;>
    simp [h1, h2]

variable (kind key) in
/-- a processed completion that queues `ops`, as far as there is room -/
theorem armedIn_processed {c : Cqe ε} {cs : List (Cqe ε)} (h : r.cq = c :: cs) (ops : List ε) (k : κ) :
    (r.seen.pushAll ops).armedIn kind key k
        + (if key c.op = some k ∧ (kind c.op).closes c.toCompletion = true then 1 else 0)
      = (ops.take (r.cap - r.sq.length)).countP (fun o => key o = some k) + r.armedIn kind key k := by
  have h1 : r.armedIn kind key k = _ := armedIn_seen h k
  have h2 : (r.seen.pushAll ops).armedIn kind key k
      = (ops.take (r.cap - r.sq.length)).countP (fun o => key o = some k) + r.seen.armedIn kind key k :=
    armedIn_pushAll_take r.seen ops k
  omega

variable (kind key) in
/-- the balance of a processed completion that queues `ops` -/
theorem armedIn_seen_pushAll {c : Cqe ε} {cs : List (Cqe ε)} (h : r.cq = c :: cs) (ops : List ε) (k : κ)
    (hn : (r.seen.pushAll ops).nulls = 0) : (r.seen.pushAll ops).armedIn kind key k
        + (if key c.op = some k ∧ (kind c.op).closes c.toCompletion = true then 1 else 0)
      = ops.countP (fun o => key o = some k) + r.armedIn kind key k := by
  have h1 : r.armedIn kind key k = _ := armedIn_seen h k
  have h2 : (r.seen.pushAll ops).armedIn kind key k = _ := armedIn_pushAll r.seen ops k hn
  omega

theorem armed_outstanding {o : ε} (h : o ∈ r.armed kind) : o ∈ r.outstanding := by
  unfold armed at h
  rw [List.mem_append, List.mem_append] at h
  rw [mem_outstanding]
  rcases h with (h | h) | h
  · exact Or.inl h
  · obtain ⟨p, hp, ho⟩ := List.mem_flatMap.mp h
    unfold Pending.armed at ho
    split at ho
    · exact absurd ho List.not_mem_nil
    · exact Or.inr (Or.inl ⟨p, hp, (List.mem_singleton.mp ho).symm⟩)
  · obtain ⟨c, hc, ho⟩ := List.mem_flatMap.mp h
    unfold Cqe.armed at ho
    split at ho
    · exact Or.inr (Or.inr ⟨c, hc, (List.mem_singleton.mp ho).symm⟩)
    · exact absurd ho List.not_mem_nil

theorem armedIn_zero (h : ∀ o ∈ r.outstanding, key o ≠ some k) : r.armedIn kind key k = 0 := by
  apply List.countP_eq_zero.mpr
  intro o ho
  simpa using h o (armed_outstanding ho)

theorem push_seen (r : IoRing ε) (o : ε) : (r.push o).2.seen = (r.seen.push o).2 := by
  show (r.push o).2.seen = (if _ : r.sq.length < r.cap then _ else _ : Bool × IoRing ε).2
  unfold push
  split <;> rfl

theorem pushAll_seen (r : IoRing ε) (ops : List ε) : (r.pushAll ops).seen = r.seen.pushAll ops := by
  induction ops generalizing r with
  | nil => rfl
  | cons o ops ih =>
    rw [pushAll_cons, ih, push_seen]
    rfl

theorem armedIn_eq (r : IoRing ε) (k : κ) : r.armedIn kind key k =
    r.sq.countP (fun o => key o = some k)
      + (r.kern.flatMap Pending.armed).countP (fun o => key o = some k)
      + (r.cq.flatMap (Cqe.armed kind)).countP fun o => key o = some k := by
  unfold armedIn armed
  rw [List.countP_append, List.countP_append]

/-- under this key all entries are one group -/
def allKey (_ : ε) : Option Unit := some ()

theorem armedIn_all (r : IoRing ε) : r.armedIn kind allKey () = (r.armed kind).length :=
  List.countP_eq_length.mpr fun _ _ => decide_eq_true rfl

theorem sq_le_armed (kind : ε → Kind) (r : IoRing ε) : r.sq.length ≤ (r.armed kind).length := by
  unfold armed
  rw [List.length_append, List.length_append]
  omega

theorem kern_count (l : List (Pending ε)) (h : ∀ p ∈ l, key p.op = some k → p.waiting = false) :
    (l.flatMap Pending.armed).countP (fun o => key o = some k)
      = (l.map (·.op)).countP fun o => key o = some k := by
  induction l with
  | nil => rfl
  | cons p l ih =>
    have h1 := ih (fun q hq => h q (List.mem_cons_of_mem _ hq))
    rw [List.flatMap_cons, List.countP_append, h1, List.map_cons, List.countP_cons, Nat.add_comm]
    congr 1
    by_cases hk : key p.op = some k
    · have hw := h p List.mem_cons_self hk
      simp [Pending.armed, hw]
    · cases hw : p.waiting <;> simp [Pending.armed, hw, hk]

theorem cq_count (l : List (Cqe ε))
    (h : ∀ c ∈ l, key c.op = some k → (kind c.op).closes c.toCompletion = true) :
    (l.flatMap (Cqe.armed kind)).countP (fun o => key o = some k)
      = (l.map (·.op)).countP fun o => key o = some k := by
  induction l with
  | nil => rfl
  | cons c l ih =>
    have h1 := ih (fun d hd => h d (List.mem_cons_of_mem _ hd))
    rw [List.flatMap_cons, List.countP_append, h1, List.map_cons, List.countP_cons, Nat.add_comm]
    congr 1
    by_cases hk : key c.op = some k
    · have hc := h c List.mem_cons_self hk
      simp [Cqe.armed, hc]
    · cases hc : (kind c.op).closes c.toCompletion <;> simp [Cqe.armed, hc, hk]

theorem kern_pos {p : Pending ε} (hp : p ∈ r.kern) (hw : p.waiting = false)
    (hk : key p.op = some k) : 0 < (r.kern.flatMap Pending.armed).countP fun o => key o = some k := by
  refine List.countP_pos_iff.mpr ⟨p.op, List.mem_flatMap.mpr ⟨p, hp, ?_⟩, by simpa using hk⟩
  rw [Pending.armed, if_neg (by rw [hw]; exact Bool.false_ne_true)]
  exact List.mem_singleton.mpr rfl

theorem cq_pos {c : Cqe ε} (hc : c ∈ r.cq) (hcl : (kind c.op).closes c.toCompletion = true)
    (hk : key c.op = some k) :
    0 < (r.cq.flatMap (Cqe.armed kind)).countP fun o => key o = some k := by
  refine List.countP_pos_iff.mpr ⟨c.op, List.mem_flatMap.mpr ⟨c, hc, ?_⟩, by simpa using hk⟩
  rw [Cqe.armed, if_pos hcl]
  exact List.mem_singleton.mpr rfl

/-- an entry with a single completion is armed as long as it is outstanding -/
theorem once_outstanding_le (key : ε → Option κ) (hw : ∀ p ∈ r.kern, p.waiting = true → kind p.op = .zerocopy) (k : κ) :
    r.outstanding.countP (fun o => key o = some k ∧ kind o = .once) ≤ r.armedIn kind key k := by
  let key' : ε → Option κ := fun o => if kind o = .once then key o else none
  have hkey : ∀ o, key' o = some k ↔ key o = some k ∧ kind o = .once := by
    intro o
    by_cases h : kind o = .once
    · simp [key', h]
    · simp [key', h]
  have hle : r.armedIn kind key' k ≤ r.armedIn kind key k := by
    refine List.countP_mono_left fun o _ ho => ?_
    rw [decide_eq_true_eq] at ho ⊢
    exact ((hkey o).mp ho).1
  refine Nat.le_trans (Nat.le_of_eq ?_) hle
  have hkern : (r.kern.flatMap Pending.armed).countP (fun o => key' o = some k) = _ :=
    kern_count r.kern fun p hp hk => by
      cases hpw : p.waiting with
      | false => rfl
      | true =>
        have hz := hw p hp hpw
        rw [((hkey _).mp hk).2] at hz
        cases hz
  have hcq : (r.cq.flatMap (Cqe.armed kind)).countP (fun o => key' o = some k) = _ :=
    cq_count r.cq fun c _ hk => by
      rw [((hkey _).mp hk).2]
      rfl
  rw [armedIn_eq, hkern, hcq]
  unfold outstanding
  rw [List.countP_append, List.countP_append]
  simp only [hkey]

theorem stays_waiting {k : Kind} {w : Bool} {c : Completion} (h : k.stays w c = some true) :
    k = .zerocopy := by
  cases k with
  | once => cases h
  | multishot =>
    simp only [Kind.stays] at h
    split at h <;> cases h
  | zerocopy => rfl

namespace Single

theorem submit (h : Single kind key r) : Single kind key r.submit where
  once := fun k => by rw [armedIn_submit]; exact h.once k
  last := by rw [submit_cq]; exact h.last
  waits := by
    cases hq : r.sqpoll with
    | true => rw [(submit_on r hq).2]; exact h.waits
    | false =>
      rw [(submit_off r hq).2]
      intro p hp hw
      rcases List.mem_append.mp hp with hp | hp
      · exact h.waits p hp hw
      · obtain ⟨o, -, rfl⟩ := List.mem_map.mp hp
        exact absurd hw Bool.false_ne_true

theorem consume (h : Single kind key r) (hc : r.consume = some r') : Single kind key r' := by
  obtain ⟨op, -, hk, hcq, -⟩ := consume_some hc
  refine ⟨fun k => by rw [armedIn_consume hc]; exact h.once k, by rw [hcq]; exact h.last, ?_⟩
  rw [hk]
  intro p hp hw
  rcases List.mem_append.mp hp with hp | hp
  · exact h.waits p hp hw
  · rw [List.mem_singleton.mp hp] at hw
    exact absurd hw Bool.false_ne_true

/-- no group may contain zero-copy entries: their notification follows the closing completion -/
theorem post (hz : ∀ o k, key o = some k → kind o ≠ .zerocopy) (h : Single kind key r) {i : Nat}
    {c : Completion} (hp : r.post kind i c = some r') : Single kind key r' := by
  obtain ⟨p, rest, -, hk, ha, hk', hcq, -⟩ := post_some hp
  have hmem : p ∈ r.kern := hk.mem_iff.mpr List.mem_cons_self
  refine ⟨fun k => by rw [armedIn_post hp]; exact h.once k, ?_, ?_⟩
  · rw [hcq, List.pairwise_append]
    refine ⟨h.last, List.pairwise_singleton _ _, ?_⟩
    intro a hac b hb k hka hkb
    rw [List.mem_singleton.mp hb] at hkb
    replace hkb : key p.op = some k := hkb
    have hw : p.waiting = false := by
      cases hw : p.waiting with
      | false => rfl
      | true => exact absurd (h.waits p hmem hw) (hz p.op k hkb)
    cases hcl : (kind a.op).closes a.toCompletion with
    | false => rfl
    | true =>
      have h1 := kern_pos hmem hw hkb
      have h2 := cq_pos hac hcl hka
      have h3 := h.once k
      rw [armedIn_eq] at h3
      omega
  · intro q hq hw
    rcases List.mem_append.mp (hk'.mem_iff.mp hq) with hq | hq
    · cases hst : (kind p.op).stays p.waiting c with
      | none =>
        rw [hst] at hq
        exact absurd hq List.not_mem_nil
      | some w =>
        rw [hst] at hq
        have e : q = ⟨p.op, w⟩ := List.mem_singleton.mp hq
        subst e
        replace hw : w = true := hw
        subst hw
        exact stays_waiting hst
    · exact h.waits q (hk.mem_iff.mpr (List.mem_cons_of_mem _ hq)) hw

theorem pushAll (h : Single kind key r) (ops : List ε)
    (ho : ∀ k, ops.countP (fun o => key o = some k) + r.armedIn kind key k ≤ 1) :
    Single kind key (r.pushAll ops) where
  once := fun k => le_trans (armedIn_pushAll_le r ops k) (ho k)
  last := by rw [pushAll_cq]; exact h.last
  waits := by rw [pushAll_kern]; exact h.waits

theorem seen (h : Single kind key r) : Single kind key r.seen where
  once := fun k => by
    cases hc : r.cq with
    | nil =>
      have e : r.seen = r := by unfold IoRing.seen; rw [hc]; cases r; cases hc; rfl
      rw [e]; exact h.once k
    | cons c cs =>
      have h1 : r.armedIn kind key k = _ := armedIn_seen hc k
      have := h.once k
      omega
  last := h.last.tail
  waits := h.waits

/-- an entry with a single completion is armed exactly while it is outstanding -/
theorem outstanding_count (h : Single kind key r) (hk : ∀ o, key o = some k → kind o = .once) :
    r.outstanding.countP (fun o => key o = some k) = r.armedIn kind key k := by
  rw [armedIn_eq, kern_count r.kern ?_, cq_count r.cq ?_]
  · unfold outstanding
    rw [List.countP_append, List.countP_append]
  · intro c _ hc
    rw [hk c.op hc]
    rfl
  · intro p hp hpk
    cases hw : p.waiting with
    | false => rfl
    | true =>
      have hz := h.waits p hp hw
      rw [hk p.op hpk] at hz
      cases hz

/-- an entry may be queued again when its closing completion has been seen -/
theorem again (h : Single kind key r) {c : Cqe ε} {cs : List (Cqe ε)} (hc : r.cq = c :: cs)
    (ops : List ε) (ho : ∀ k, ops.countP (fun o => key o = some k) ≤
      if key c.op = some k ∧ (kind c.op).closes c.toCompletion = true then 1 else 0) :
    Single kind key (r.seen.pushAll ops) := by
  apply h.seen.pushAll
  intro k
  have h1 : r.armedIn kind key k = _ := armedIn_seen hc k
  have h2 := h.once k
  have h3 := ho k
  omega

/-- **The closing completion of a group is its last trace.** -/
theorem alone (hz : ∀ o k, key o = some k → kind o ≠ .zerocopy) (h : Single kind key r)
    {c : Cqe ε} {cs : List (Cqe ε)} (hc : r.cq = c :: cs) (hk : key c.op = some k)
    (hcl : (kind c.op).closes c.toCompletion = true) :
    ∀ o ∈ r.seen.outstanding, key o ≠ some k := by
  intro o ho hko
  have h0 : r.seen.armedIn kind key k = 0 := by
    have h1 : r.armedIn kind key k = _ := armedIn_seen hc k
    rw [if_pos ⟨hk, hcl⟩] at h1
    have := h.once k
    omega
  rw [armedIn_eq] at h0
  rcases mem_outstanding.mp ho with ho | ⟨p, hp, rfl⟩ | ⟨d, hd, rfl⟩
  · have : 0 < r.seen.sq.countP fun o => key o = some k :=
      List.countP_pos_iff.mpr ⟨o, ho, by simpa using hko⟩
    omega
  · cases hw : p.waiting with
    | false =>
      have : 0 < (r.seen.kern.flatMap Pending.armed).countP fun o => key o = some k :=
        kern_pos hp hw hko
      omega
    | true => exact hz p.op k hko (h.waits p hp hw)
  · have hl := h.last
    rw [hc, List.pairwise_cons] at hl
    have hd' : d ∈ cs := by
      replace hd : d ∈ r.cq.tail := hd
      rwa [hc, List.tail_cons] at hd
    rw [hl.1 d hd' k hk hko] at hcl
    exact Bool.false_ne_true hcl

end Single
end
end IoRing
end Uring
