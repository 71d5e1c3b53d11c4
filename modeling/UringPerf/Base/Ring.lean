import Mathlib.Data.List.Perm.Basic
import Mathlib.Tactic.Linarith

/-!
# A submission and a completion queue

The part of an io_uring instance that an application and the kernel share, over an arbitrary type
`ε` of submission entries.  Nothing here is about a particular application.

* `Kind`             how many completions an entry posts: one (`once`), any number until one without
                     the MORE flag (`multishot`), or a result and possibly a later notification
                     (`zerocopy`);
* `IoRing ε`           the queued entries `sq` (the first `pub` of them published), the entries in the
                     kernel `kern`, the completions not yet seen `cq`, and the number `nulls` of
                     entries refused because the queue was full;
* `push`, `submit`   the application takes a free entry, hands the queue to the kernel;
* `consume`, `post`  a polling kernel takes a published entry, an entry posts a completion;
* `outstanding`      every entry that is queued, in the kernel or named by an unseen completion;
* `armed`            every entry whose closing completion has not been seen; `armed_post`,
                     `armed_submit`, `armed_consume`: the kernel neither loses nor invents one;
* `results p`        the results of the unseen completions that satisfy `p`;
* `withCq`           only `post` and `seen` look at the unseen completions, the other operations commute
                     with replacing them.
-/

namespace Uring

inductive Kind where
  | once
  | multishot
  | zerocopy
deriving DecidableEq, Repr

/-- result and flags of a completion; `buffer` is the id of the selected buffer -/
structure Completion where
  res : Int
  more : Bool
  notif : Bool
  buffer : Option Nat
deriving DecidableEq, Repr

/-- a plain result, without flags -/
def Completion.plain (res : Int) : Completion := ⟨res, false, false, none⟩

/-- the completions an entry may post; `w`: it has posted its result and owes a notification -/
def Kind.allows : Kind → Bool → Completion → Bool
  | .once, w, c => !w && !c.more && !c.notif && c.buffer.isNone
  | .multishot, w, c => !w && !c.notif && (c.buffer.isNone || decide (0 < c.res))
  | .zerocopy, false, c => !c.notif && c.buffer.isNone
  | .zerocopy, true, c => c.notif && !c.more && c.buffer.isNone

/-- what stays in the kernel after a completion: nothing, or the entry with a new `w` -/
def Kind.stays : Kind → Bool → Completion → Option Bool
  | .once, _, _ => none
  | .multishot, _, c => if c.more then some false else none
  | .zerocopy, w, c => if c.more && !w then some true else none

/-- the completion after which the application has to queue the entry again -/
def Kind.closes : Kind → Completion → Bool
  | .once, _ => true
  | .multishot, c => !c.more
  | .zerocopy, c => !c.notif

structure Pending (ε : Type*) where
  op : ε
  waiting : Bool
deriving DecidableEq, Repr

structure Cqe (ε : Type*) extends Completion where
  op : ε
deriving DecidableEq, Repr

/-- the entry, if its result is still to come -/
def Pending.armed {ε : Type*} (p : Pending ε) : List ε := if p.waiting then [] else [p.op]

/-- the entry, if this is its closing completion -/
def Cqe.armed {ε : Type*} (kind : ε → Kind) (c : Cqe ε) : List ε :=
  if (kind c.op).closes c.toCompletion then [c.op] else []

/-- The queues never hold more than they can, and without polling nothing stays published. -/
structure IoRing (ε : Type*) where
  cap : Nat
  sqpoll : Bool
  sq : List ε
  pub : Nat
  kern : List (Pending ε)
  cq : List (Cqe ε)
  nulls : Nat
  sq_le : sq.length ≤ cap
  pub_le : pub ≤ sq.length
  pub_off : sqpoll = false → pub = 0

namespace IoRing
section
variable {ε : Type*}

def init (cap : Nat) (sqpoll : Bool) : IoRing ε where
  cap := cap
  sqpoll := sqpoll
  sq := []
  pub := 0
  kern := []
  cq := []
  nulls := 0
  sq_le := Nat.zero_le cap
  pub_le := Nat.le_refl 0
  pub_off := fun _ => rfl

/-- take a free entry and fill it with `op`; `false` if the queue is full -/
def push (r : IoRing ε) (op : ε) : Bool × IoRing ε :=
  if h : r.sq.length < r.cap then
    (true, { r with
      sq := r.sq ++ [op]
      sq_le := by rw [List.length_append, List.length_singleton]; omega
      pub_le := by have := r.pub_le; rw [List.length_append]; omega })
  else (false, { r with nulls := r.nulls + 1 })

/-- without polling the kernel takes the whole queue at once, with polling the queue is published -/
def submit (r : IoRing ε) : IoRing ε :=
  if h : r.sqpoll then
    { r with
      pub := r.sq.length
      pub_le := Nat.le_refl _
      pub_off := fun h' => absurd (h.symm.trans h') Bool.noConfusion }
  else
    { r with
      sq := []
      pub := 0
      kern := r.kern ++ r.sq.map (⟨·, false⟩)
      sq_le := Nat.zero_le _
      pub_le := Nat.le_refl _
      pub_off := fun _ => rfl }

/-- a polling kernel takes the first published entry -/
def consume (r : IoRing ε) : Option (IoRing ε) :=
  match hs : r.sq, hp : r.pub with
  | op :: rest, n+1 =>
    some { r with
      sq := rest
      pub := n
      kern := r.kern ++ [⟨op, false⟩]
      sq_le := by have := r.sq_le; rw [hs, List.length_cons] at this; omega
      pub_le := by have := r.pub_le; rw [hs, hp, List.length_cons] at this; omega
      pub_off := fun h => by have := r.pub_off h; omega }
  | _, _ => none

/-- the `i`-th entry in the kernel posts the completion `c` -/
def post (kind : ε → Kind) (r : IoRing ε) (i : Nat) (c : Completion) : Option (IoRing ε) :=
  match r.kern[i]? with
  | none => none
  | some p =>
    if (kind p.op).allows p.waiting c then
      some { r with
        kern := match (kind p.op).stays p.waiting c with
          | none => r.kern.eraseIdx i
          | some w => r.kern.set i ⟨p.op, w⟩
        cq := r.cq ++ [⟨c, p.op⟩] }
    else none

/-- the first completion has been processed -/
def seen (r : IoRing ε) : IoRing ε := { r with cq := r.cq.tail }

/-- take entries for all of `ops`; those that do not fit are lost -/
def pushAll (r : IoRing ε) (ops : List ε) : IoRing ε := ops.foldl (fun r op => (r.push op).2) r

def outstanding (r : IoRing ε) : List ε := r.sq ++ r.kern.map (·.op) ++ r.cq.map (·.op)

/-- entries whose closing completion has not been seen -/
def armed (kind : ε → Kind) (r : IoRing ε) : List ε :=
  r.sq ++ r.kern.flatMap Pending.armed ++ r.cq.flatMap (Cqe.armed kind)

/-! ## fields after each operation -/

variable (r : IoRing ε) (op : ε) (ops : List ε)

theorem push_of_lt (h : r.sq.length < r.cap) :
    (r.push op).1 = true ∧ (r.push op).2.sq = r.sq ++ [op] ∧ (r.push op).2.nulls = r.nulls := by
  unfold push
  rw [dif_pos h]
  exact ⟨rfl, rfl, rfl⟩

theorem push_of_full (h : ¬ r.sq.length < r.cap) :
    (r.push op).1 = false ∧ (r.push op).2.sq = r.sq ∧ (r.push op).2.nulls = r.nulls + 1 := by
  unfold push
  rw [dif_neg h]
  exact ⟨rfl, rfl, rfl⟩

@[simp] theorem push_cap : (r.push op).2.cap = r.cap := by unfold push; split <;> rfl
@[simp] theorem push_sqpoll : (r.push op).2.sqpoll = r.sqpoll := by unfold push; split <;> rfl
@[simp] theorem push_kern : (r.push op).2.kern = r.kern := by unfold push; split <;> rfl
@[simp] theorem push_cq : (r.push op).2.cq = r.cq := by unfold push; split <;> rfl

theorem pushAll_nil : r.pushAll [] = r := rfl
theorem pushAll_cons : r.pushAll (op :: ops) = (r.push op).2.pushAll ops := rfl
theorem pushAll_append (a b : List ε) : r.pushAll (a ++ b) = (r.pushAll a).pushAll b := by
  simp [pushAll, List.foldl_append]

@[simp] theorem pushAll_cap : (r.pushAll ops).cap = r.cap := by
  induction ops generalizing r with
  | nil => rfl
  | cons op ops ih => rw [pushAll_cons, ih, push_cap]

@[simp] theorem pushAll_sqpoll : (r.pushAll ops).sqpoll = r.sqpoll := by
  induction ops generalizing r with
  | nil => rfl
  | cons op ops ih => rw [pushAll_cons, ih, push_sqpoll]

@[simp] theorem pushAll_kern : (r.pushAll ops).kern = r.kern := by
  induction ops generalizing r with
  | nil => rfl
  | cons op ops ih => rw [pushAll_cons, ih, push_kern]

@[simp] theorem pushAll_cq : (r.pushAll ops).cq = r.cq := by
  induction ops generalizing r with
  | nil => rfl
  | cons op ops ih => rw [pushAll_cons, ih, push_cq]

/-- what fits is queued in order, the rest is counted as refused -/
theorem pushAll_sq : (r.pushAll ops).sq = r.sq ++ ops.take (r.cap - r.sq.length) ∧
    (r.pushAll ops).nulls = r.nulls + (ops.length - (r.cap - r.sq.length)) := by
  induction ops generalizing r with
  | nil => exact ⟨by rw [pushAll_nil, List.take_nil, List.append_nil], by rw [pushAll_nil]; simp⟩
  | cons op ops ih =>
    obtain ⟨h1, h2⟩ := ih (r.push op).2
    rw [pushAll_cons, h1, h2, push_cap]
    by_cases h : r.sq.length < r.cap
    · obtain ⟨-, hs, hn⟩ := push_of_lt r op h
      have e : r.cap - r.sq.length = r.cap - (r.sq.length + 1) + 1 := by omega
      rw [hs, hn, List.length_append, List.length_singleton, e, List.take_succ_cons]
      exact ⟨by simp, by rw [List.length_cons]; omega⟩
    · obtain ⟨-, hs, hn⟩ := push_of_full r op h
      have e : r.cap - r.sq.length = 0 := by omega
      rw [hs, hn, e, List.take_zero, List.take_zero]
      exact ⟨rfl, by rw [List.length_cons]; omega⟩

theorem pushAll_fits (h : r.sq.length + ops.length ≤ r.cap) :
    (r.pushAll ops).sq = r.sq ++ ops ∧ (r.pushAll ops).nulls = r.nulls := by
  obtain ⟨h1, h2⟩ := pushAll_sq r ops
  rw [h1, h2, List.take_of_length_le (by omega)]
  exact ⟨rfl, by omega⟩

theorem pushAll_nulls_zero (h : (r.pushAll ops).nulls = 0) :
    r.nulls = 0 ∧ (r.pushAll ops).sq = r.sq ++ ops := by
  obtain ⟨h1, h2⟩ := pushAll_sq r ops
  rw [h] at h2
  rw [h1, List.take_of_length_le (by omega)]
  exact ⟨by omega, rfl⟩

theorem pushAll_sq_length : (r.pushAll ops).sq.length ≤ r.sq.length + ops.length := by
  rw [(pushAll_sq r ops).1, List.length_append, List.length_take]
  omega

@[simp] theorem submit_cq : r.submit.cq = r.cq := by unfold submit; split <;> rfl
@[simp] theorem submit_cap : r.submit.cap = r.cap := by unfold submit; split <;> rfl
@[simp] theorem submit_sqpoll : r.submit.sqpoll = r.sqpoll := by unfold submit; split <;> rfl
@[simp] theorem submit_nulls : r.submit.nulls = r.nulls := by unfold submit; split <;> rfl

theorem submit_off (h : r.sqpoll = false) :
    r.submit.sq = [] ∧ r.submit.kern = r.kern ++ r.sq.map (⟨·, false⟩) := by
  unfold submit
  rw [dif_neg (by rw [h]; exact Bool.false_ne_true)]
  exact ⟨rfl, rfl⟩

theorem submit_on (h : r.sqpoll = true) : r.submit.sq = r.sq ∧ r.submit.kern = r.kern := by
  unfold submit
  rw [dif_pos h]
  exact ⟨rfl, rfl⟩

/-- with polling everything queued so far is published -/
theorem submit_pub (h : r.sqpoll = true) : r.submit.pub = r.sq.length := by
  unfold submit
  rw [dif_pos h]

theorem mem_submit_sq {o : ε} (h : o ∈ r.submit.sq) : o ∈ r.sq := by
  cases hq : r.sqpoll with
  | true => rwa [(submit_on r hq).1] at h
  | false =>
    rw [(submit_off r hq).1] at h
    exact absurd h List.not_mem_nil

theorem consume_some {r r' : IoRing ε} (h : r.consume = some r') :
    ∃ op, r.sq = op :: r'.sq ∧ r'.kern = r.kern ++ [⟨op, false⟩] ∧ r'.cq = r.cq ∧
      r'.cap = r.cap ∧ r'.sqpoll = r.sqpoll ∧ r'.nulls = r.nulls ∧ r.sqpoll = true := by
  have hoff := r.pub_off
  unfold consume at h
  split at h
  · rename_i op rest n hs hp
    cases h
    refine ⟨op, hs, rfl, rfl, rfl, rfl, rfl, ?_⟩
    cases hq : r.sqpoll with
    | true => rfl
    | false => exact absurd (hoff hq) (by omega)
  · cases h

/-- a published entry may be taken -/
theorem consume_ok {r : IoRing ε} {op : ε} {rest : List ε} {n : Nat} (hs : r.sq = op :: rest) (hp : r.pub = n + 1) :
    ∃ r', r.consume = some r' ∧ r'.sq = rest ∧ r'.pub = n ∧ r'.kern = r.kern ++ [⟨op, false⟩] ∧ r'.cq = r.cq ∧
      r'.cap = r.cap ∧ r'.sqpoll = r.sqpoll ∧ r'.nulls = r.nulls := by
  unfold consume
  split
  · rename_i op' rest' n' hs' hp'
    rw [hs] at hs'
    rw [hp] at hp'
    cases hs'
    cases hp'
    exact ⟨_, rfl, rfl, rfl, rfl, rfl, rfl, rfl, rfl⟩
  · rename_i h
    exact absurd hp (h op rest n hs)

/-- what one posted completion does: the entry `p` was in the kernel, it leaves or stays, and the
completion stands at the end of the queue -/
theorem post_some {kind : ε → Kind} {r r' : IoRing ε} {i : Nat} {c : Completion}
    (h : r.post kind i c = some r') :
    ∃ p rest, r.kern[i]? = some p ∧ r.kern.Perm (p :: rest) ∧
      (kind p.op).allows p.waiting c = true ∧
      r'.kern.Perm (((kind p.op).stays p.waiting c).elim [] (fun w => [⟨p.op, w⟩]) ++ rest) ∧
      r'.cq = r.cq ++ [⟨c, p.op⟩] ∧ r'.sq = r.sq ∧ r'.cap = r.cap ∧ r'.sqpoll = r.sqpoll ∧
      r'.nulls = r.nulls := by
  unfold post at h
  cases hp : r.kern[i]? with
  | none => rw [hp] at h; cases h
  | some p =>
    rw [hp] at h
    obtain ⟨hi, hpi⟩ := List.getElem?_eq_some_iff.mp hp
    have hperm : r.kern.Perm (p :: r.kern.eraseIdx i) := by
      rw [← hpi]
      exact (List.getElem_cons_eraseIdx_perm hi).symm
    by_cases ha : (kind p.op).allows p.waiting c = true
    · replace h : some _ = some r' := (if_pos ha).symm.trans h
      cases h
      refine ⟨p, r.kern.eraseIdx i, rfl, hperm, ha, ?_, rfl, rfl, rfl, rfl, rfl⟩
      cases (kind p.op).stays p.waiting c with
      | none => exact List.Perm.refl _
      | some w => exact List.set_perm_cons_eraseIdx hi _
    · replace h : none = some r' := (if_neg ha).symm.trans h
      cases h

/-- an entry may post any completion its kind allows -/
theorem post_ok (kind : ε → Kind) (c : Completion) {r : IoRing ε} {i : Nat} {p : Pending ε}
    (hp : r.kern[i]? = some p) (ha : (kind p.op).allows p.waiting c = true)
    (hs : (kind p.op).stays p.waiting c = none) :
    ∃ r', r.post kind i c = some r' ∧ r'.kern = r.kern.eraseIdx i ∧ r'.cq = r.cq ++ [⟨c, p.op⟩] ∧
      r'.sq = r.sq ∧ r'.cap = r.cap ∧ r'.sqpoll = r.sqpoll ∧ r'.nulls = r.nulls := by
  unfold post
  rw [hp]
  dsimp only
  rw [if_pos ha, hs]
  exact ⟨_, rfl, rfl, rfl, rfl, rfl, rfl, rfl⟩

/-! ## the outstanding entries -/

variable {r r' : IoRing ε} {o : ε}

theorem mem_outstanding : o ∈ r.outstanding ↔
    o ∈ r.sq ∨ (∃ p ∈ r.kern, p.op = o) ∨ ∃ c ∈ r.cq, c.op = o := by
  unfold outstanding
  simp only [List.mem_append, List.mem_map, or_assoc]

/-- what fits is outstanding -/
theorem mem_outstanding_pushAll_take (ops : List ε) :
    o ∈ (r.pushAll ops).outstanding ↔ o ∈ r.outstanding ∨ o ∈ ops.take (r.cap - r.sq.length) := by
  rw [mem_outstanding, pushAll_kern, pushAll_cq, (pushAll_sq r ops).1, mem_outstanding, List.mem_append]
  constructor
  · rintro ((h | h) | h)
    · exact Or.inl (Or.inl h)
    · exact Or.inr h
    · exact Or.inl (Or.inr h)
  · rintro ((h | h) | h)
    · exact Or.inl (Or.inl h)
    · exact Or.inr h
    · exact Or.inl (Or.inr h)

theorem mem_outstanding_pushAll (ops : List ε) (h : o ∈ (r.pushAll ops).outstanding) :
    o ∈ r.outstanding ∨ o ∈ ops :=
  ((mem_outstanding_pushAll_take ops).mp h).imp id List.mem_of_mem_take

theorem mem_outstanding_submit : o ∈ r.submit.outstanding ↔ o ∈ r.outstanding := by
  rw [mem_outstanding, mem_outstanding, submit_cq]
  cases hq : r.sqpoll with
  | true => rw [(submit_on r hq).1, (submit_on r hq).2]
  | false =>
    rw [(submit_off r hq).1, (submit_off r hq).2]
    simp only [List.not_mem_nil, false_or, List.mem_append, List.mem_map]
    constructor
    · rintro (⟨p, hp | ⟨q, hq, rfl⟩, rfl⟩ | h)
      · exact Or.inr (Or.inl ⟨p, hp, rfl⟩)
      · exact Or.inl hq
      · exact Or.inr (Or.inr h)
    · rintro (h | ⟨p, hp, rfl⟩ | h)
      · exact Or.inl ⟨⟨o, false⟩, Or.inr ⟨o, h, rfl⟩, rfl⟩
      · exact Or.inl ⟨p, Or.inl hp, rfl⟩
      · exact Or.inr h

theorem mem_outstanding_consume (h : r.consume = some r') :
    o ∈ r'.outstanding ↔ o ∈ r.outstanding := by
  obtain ⟨op, hs, hk, hc, -⟩ := consume_some h
  rw [mem_outstanding, mem_outstanding, hk, hc, hs]
  simp only [List.mem_append, List.mem_cons, List.not_mem_nil, or_false]
  constructor
  · rintro (h | ⟨p, hp | rfl, rfl⟩ | h)
    · exact Or.inl (Or.inr h)
    · exact Or.inr (Or.inl ⟨p, hp, rfl⟩)
    · exact Or.inl (Or.inl rfl)
    · exact Or.inr (Or.inr h)
  · rintro ((rfl | h) | ⟨p, hp, rfl⟩ | h)
    · exact Or.inr (Or.inl ⟨⟨o, false⟩, Or.inr rfl, rfl⟩)
    · exact Or.inl h
    · exact Or.inr (Or.inl ⟨p, Or.inl hp, rfl⟩)
    · exact Or.inr (Or.inr h)

theorem mem_outstanding_post {kind : ε → Kind} {i : Nat} {c : Completion}
    (h : r.post kind i c = some r') : o ∈ r'.outstanding ↔ o ∈ r.outstanding := by
  obtain ⟨p, rest, -, hk, -, hk', hc, hs, -⟩ := post_some h
  have h1 : ∀ q, q ∈ r.kern ↔ q = p ∨ q ∈ rest := fun q => by
    rw [hk.mem_iff, List.mem_cons]
  rw [mem_outstanding, mem_outstanding, hc, hs]
  simp only [List.mem_append, List.mem_singleton, h1, hk'.mem_iff]
  cases (kind p.op).stays p.waiting c with
  | none =>
    simp only [Option.elim_none, List.not_mem_nil, false_or]
    constructor
    · rintro (h | ⟨q, hq, rfl⟩ | ⟨q, hq | rfl, rfl⟩)
      · exact Or.inl h
      · exact Or.inr (Or.inl ⟨q, Or.inr hq, rfl⟩)
      · exact Or.inr (Or.inr ⟨q, hq, rfl⟩)
      · exact Or.inr (Or.inl ⟨p, Or.inl rfl, rfl⟩)
    · rintro (h | ⟨q, rfl | hq, rfl⟩ | ⟨q, hq, rfl⟩)
      · exact Or.inl h
      · exact Or.inr (Or.inr ⟨_, Or.inr rfl, rfl⟩)
      · exact Or.inr (Or.inl ⟨q, hq, rfl⟩)
      · exact Or.inr (Or.inr ⟨q, Or.inl hq, rfl⟩)
  | some w =>
    simp only [Option.elim_some, List.mem_singleton]
    constructor
    · rintro (h | ⟨q, rfl | hq, rfl⟩ | ⟨q, hq | rfl, rfl⟩)
      · exact Or.inl h
      · exact Or.inr (Or.inl ⟨p, Or.inl rfl, rfl⟩)
      · exact Or.inr (Or.inl ⟨q, Or.inr hq, rfl⟩)
      · exact Or.inr (Or.inr ⟨q, hq, rfl⟩)
      · exact Or.inr (Or.inl ⟨p, Or.inl rfl, rfl⟩)
    · rintro (h | ⟨q, rfl | hq, rfl⟩ | ⟨q, hq, rfl⟩)
      · exact Or.inl h
      · exact Or.inr (Or.inr ⟨_, Or.inr rfl, rfl⟩)
      · exact Or.inr (Or.inl ⟨q, Or.inr hq, rfl⟩)
      · exact Or.inr (Or.inr ⟨q, Or.inl hq, rfl⟩)

theorem mem_outstanding_seen {c : Cqe ε} {cs : List (Cqe ε)} (h : r.cq = c :: cs) :
    o ∈ r.outstanding ↔ o = c.op ∨ o ∈ r.seen.outstanding := by
  rw [mem_outstanding, mem_outstanding]
  show _ ↔ o = c.op ∨ o ∈ r.sq ∨ (∃ p ∈ r.kern, p.op = o) ∨ ∃ d ∈ r.cq.tail, d.op = o
  rw [h, List.tail_cons]
  simp only [List.mem_cons, exists_eq_or_imp]
  constructor
  · rintro (h | h | h | h)
    · exact Or.inr (Or.inl h)
    · exact Or.inr (Or.inr (Or.inl h))
    · exact Or.inl h.symm
    · exact Or.inr (Or.inr (Or.inr h))
  · rintro (h | h | h | h)
    · exact Or.inr (Or.inr (Or.inl h.symm))
    · exact Or.inl h
    · exact Or.inr (Or.inl h)
    · exact Or.inr (Or.inr (Or.inr h))

/-! ## the armed entries -/

section
variable (kind : ε → Kind)

theorem armed_pushAll (r : IoRing ε) (ops : List ε) :
    ((r.pushAll ops).armed kind).Perm (ops.take (r.cap - r.sq.length) ++ r.armed kind) := by
  unfold armed
  rw [pushAll_kern, pushAll_cq, (pushAll_sq r ops).1]
  simp only [List.append_assoc]
  rw [← List.append_assoc, ← List.append_assoc (List.take _ _)]
  exact List.Perm.append_right _ List.perm_append_comm

theorem armed_submit (r : IoRing ε) : (r.submit.armed kind).Perm (r.armed kind) := by
  unfold armed
  rw [submit_cq]
  cases hq : r.sqpoll with
  | true => rw [(submit_on r hq).1, (submit_on r hq).2]
  | false =>
    have e : (r.sq.map (Pending.mk · false)).flatMap Pending.armed = r.sq := by
      rw [List.flatMap_map]
      exact List.flatMap_singleton' r.sq
    rw [(submit_off r hq).1, (submit_off r hq).2, List.flatMap_append, e, List.nil_append]
    exact List.Perm.append_right _ List.perm_append_comm

theorem armed_consume (h : r.consume = some r') : (r'.armed kind).Perm (r.armed kind) := by
  obtain ⟨op, hs, hk, hc, -⟩ := consume_some h
  unfold armed
  rw [hk, hc, hs, List.flatMap_append]
  refine List.Perm.append_right _ ?_
  show (r'.sq ++ (_ ++ [op])).Perm (op :: r'.sq ++ _)
  rw [← List.append_assoc]
  exact List.perm_append_comm

/-- an entry is armed in the kernel or through its closing completion, never through both -/
theorem armed_stays (p : Pending ε) (c : Completion) (ha : (kind p.op).allows p.waiting c = true) :
    (((kind p.op).stays p.waiting c).elim [] (fun w => [⟨p.op, w⟩])).flatMap Pending.armed
      ++ (⟨c, p.op⟩ : Cqe ε).armed kind = p.armed := by
  obtain ⟨op, w⟩ := p
  obtain ⟨res, more, notif, buffer⟩ := c
  unfold Cqe.armed
  dsimp only at ha ⊢
  generalize kind op = k at ha ⊢
  cases k with
  | once => cases w <;> simp_all [Kind.allows, Kind.stays, Kind.closes, Pending.armed]
  | multishot =>
    cases w <;> cases more <;> simp_all [Kind.allows, Kind.stays, Kind.closes, Pending.armed]
  | zerocopy =>
    cases w <;> cases more <;> simp_all [Kind.allows, Kind.stays, Kind.closes, Pending.armed]

/-- **A posted completion keeps the armed entries.** -/
theorem armed_post {i : Nat} {c : Completion} (h : r.post kind i c = some r') :
    (r'.armed kind).Perm (r.armed kind) := by
  obtain ⟨p, rest, -, hk, ha, hk', hc, hs, -⟩ := post_some h
  have e1 := hk.flatMap_right Pending.armed
  have e2 := hk'.flatMap_right Pending.armed
  rw [List.flatMap_cons, ← armed_stays kind p c ha] at e1
  rw [List.flatMap_append] at e2
  unfold armed
  rw [hc, hs, List.append_assoc, List.append_assoc, List.flatMap_append, List.flatMap_singleton]
  refine List.Perm.append_left _ ?_
  refine (e2.append_right _).trans (List.Perm.trans ?_ (e1.append_right _).symm)
  rw [List.append_assoc, List.append_assoc, List.append_assoc]
  refine List.Perm.append_left _ ?_
  rw [← List.append_assoc]
  exact List.perm_append_comm

theorem armed_seen {c : Cqe ε} {cs : List (Cqe ε)} (h : r.cq = c :: cs) :
    (r.armed kind).Perm (c.armed kind ++ r.seen.armed kind) := by
  unfold armed
  show (_ ++ r.cq.flatMap _).Perm (_ ++ (r.sq ++ _ ++ r.cq.tail.flatMap _))
  rw [h, List.tail_cons, List.flatMap_cons, ← List.append_assoc, ← List.append_assoc _ _ (cs.flatMap _)]
  exact List.Perm.append_right _ List.perm_append_comm

end

/-! ## the results of chosen completions -/

section
variable (p : Cqe ε → Prop) [DecidablePred p] {r r' : IoRing ε}

/-- the results of the unseen completions that satisfy `p` -/
def results (r : IoRing ε) : List Int := r.cq.filterMap fun c => if p c then some c.res else none

theorem results_congr (h : r'.cq = r.cq) : r'.results p = r.results p := by
  unfold results
  rw [h]

theorem results_single (c : Cqe ε) :
    [c].filterMap (fun c => if p c then some c.res else none) = if p c then [c.res] else [] := by
  rw [List.filterMap_cons, List.filterMap_nil]
  by_cases h : p c
  · rw [if_pos h, if_pos h]
  · rw [if_neg h, if_neg h]

theorem results_seen {c : Cqe ε} {cs : List (Cqe ε)} (h : r.cq = c :: cs) :
    r.results p = (if p c then [c.res] else []) ++ r.seen.results p := by
  have hsplit : c :: cs = [c] ++ cs := rfl
  unfold results
  show _ = _ ++ List.filterMap _ r.cq.tail
  rw [h, List.tail_cons, hsplit, List.filterMap_append, results_single]

theorem results_post {kind : ε → Kind} {i : Nat} {c : Completion} {q : Pending ε} (hq : r.kern[i]? = some q)
    (h : r.post kind i c = some r') :
    r'.results p = r.results p ++ if p ⟨c, q.op⟩ then [c.res] else [] := by
  obtain ⟨q', -, hq', -, -, -, hcq, -⟩ := post_some h
  obtain rfl : q = q' := Option.some.inj (hq.symm.trans hq')
  unfold results
  rw [hcq, List.filterMap_append, results_single]

end

/-! ## the rest of the ring does not depend on the unseen completions -/

def withCq (r : IoRing ε) (q : List (Cqe ε)) : IoRing ε := { r with cq := q }

section
variable (r : IoRing ε) (q q' : List (Cqe ε))

@[simp] theorem withCq_cq : (r.withCq q).cq = q := rfl

@[simp] theorem withCq_kern : (r.withCq q).kern = r.kern := rfl

@[simp] theorem withCq_withCq : (r.withCq q).withCq q' = r.withCq q' := rfl

theorem push_withCq (op : ε) : (r.withCq q).push op = ((r.push op).1, (r.push op).2.withCq q) := by
  unfold push
  by_cases h : r.sq.length < r.cap
  · rw [dif_pos h, dif_pos (show (r.withCq q).sq.length < (r.withCq q).cap from h)]
    rfl
  · rw [dif_neg h, dif_neg (show ¬ (r.withCq q).sq.length < (r.withCq q).cap from h)]
    rfl

theorem submit_withCq : (r.withCq q).submit = r.submit.withCq q := by
  unfold submit
  by_cases h : r.sqpoll = true
  · rw [dif_pos h, dif_pos (show (r.withCq q).sqpoll = true from h)]
    rfl
  · rw [dif_neg h, dif_neg (show ¬ (r.withCq q).sqpoll = true from h)]
    rfl

theorem consume_withCq : (r.withCq q).consume = r.consume.map (·.withCq q) := by
  obtain ⟨cap, sqpoll, sq, pub, kern, cq, nulls, sq_le, pub_le, pub_off⟩ := r
  cases sq with
  | nil => rfl
  | cons op sq =>
    cases pub with
    | zero => rfl
    | succ n => rfl

/-- a completion is posted behind the unseen ones, whatever these are -/
theorem post_withCq {kind : ε → Kind} {r r' : IoRing ε} {q : List (Cqe ε)} {i : Nat} {c : Completion}
    (h : (r.withCq q).post kind i c = some r') :
    ∃ p, r.kern[i]? = some p ∧ r'.cq = q ++ [⟨c, p.op⟩] ∧
      r.post kind i c = some (r'.withCq (r.cq ++ [⟨c, p.op⟩])) := by
  unfold post at h ⊢
  rw [withCq_kern] at h
  cases hp : r.kern[i]? with
  | none =>
    rw [hp] at h
    cases h
  | some p =>
    rw [hp] at h
    dsimp only at h
    split at h
    next ha =>
      cases h
      exact ⟨p, rfl, rfl, if_pos ha⟩
    · cases h

end
end
end IoRing
end Uring
