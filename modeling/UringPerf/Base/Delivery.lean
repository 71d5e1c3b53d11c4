import Mathlib
import UringPerf.Base.Ring
import UringPerf.Base.Run

/-!
# A stream delivered to one connection of a ring

A peer sends `n` bytes and closes.  The kernel delivers them with the completions of the connection's receives, in any
pieces; a worker processes the completions in the order in which they were posted, counts bytes, queues receives again
and at some point ends the connection.  Nothing here is about a particular worker.

* `Tap`          how one connection is seen in a system: what is posted for it, what is processed, what is outstanding;
* `Tap.feed`     the system together with the rest of the stream: the kernel posts what the stream still has;
* `Served n`     no more than `n` bytes are ever counted, and as long as some are missing they are all to come, the
                 connection is open and one of its receives is outstanding;
* `Account n`    the invariant behind it: nothing waits behind the end of the stream;
* `Tap.Spec`     what the steps of the worker do to the connection; `early`: they end it before the end of the stream,
                 or leave it without a receive;
* `served_iff`   a connection is served along a run exactly if it is received from at the beginning and nothing of that
                 kind happens before the last byte;
* `unseen`, `first`, `named`   the completions of chosen entries in a ring.
-/

namespace Uring

section
variable {σ α : Type}

structure Tap (σ α : Type) where
  step : σ → α → Option σ
  /-- the completion that an action posts for a receive of the connection -/
  posted : σ → α → Option Completion
  /-- and the one that it processes -/
  taken : σ → α → Option Completion
  /-- those that are not processed yet -/
  pending : σ → List Completion
  /-- the receives that are outstanding -/
  armed : σ → Nat
  isOpen : σ → Bool
  /-- the worker has been told to stop -/
  stop : σ → Bool
  /-- the bytes the worker has counted, for all connections -/
  bytes : σ → Nat
  /-- a completion with data has all that belongs to it -/
  whole : Completion → Bool

/-- the system, the bytes that are left in the stream, and the bytes counted for the connection -/
structure Fed (σ : Type) where
  sys : σ
  left : Nat
  counted : Nat

/-- the bytes that completions deliver -/
def payload (cs : List Completion) : Nat := (cs.map fun c => c.res.toNat).sum

@[simp] theorem payload_nil : payload [] = 0 := rfl

@[simp] theorem payload_cons (c : Completion) (cs : List Completion) :
    payload (c :: cs) = c.res.toNat + payload cs := rfl

@[simp] theorem payload_append (cs ds : List Completion) : payload (cs ++ ds) = payload cs + payload ds := by
  unfold payload
  rw [List.map_append, List.sum_append]

/-- nothing waits behind the end of the stream -/
def Ordered (left : Nat) : List Completion → Prop
  | [] => True
  | c :: cs => (c.res = 0 → left = 0 ∧ payload cs = 0) ∧ Ordered left cs

theorem Ordered.concat {left : Nat} {cs : List Completion} (h : Ordered left cs) {c : Completion}
    (hend : c.res = 0 → left = 0) (hle : c.res.toNat ≤ left) : Ordered (left - c.res.toNat) (cs ++ [c]) := by
  induction cs with
  | nil => exact ⟨fun h0 => ⟨by have := hend h0; omega, rfl⟩, trivial⟩
  | cons d cs ih =>
    refine ⟨fun h0 => ?_, ih h.2⟩
    obtain ⟨hleft, hrest⟩ := h.1 h0
    have hpay : payload (cs ++ [c]) = c.res.toNat := by simp [hrest]
    exact ⟨by omega, hpay.trans (by omega)⟩

namespace Tap
variable (T : Tap σ α) (n : Nat)

/-- data that the stream still has, the end of the stream once it is empty, or an error of any kind -/
def law (left : Nat) (c : Completion) : Bool :=
  (decide (0 < c.res) && decide (c.res.toNat ≤ left) && T.whole c) || (c.res == 0 && left == 0) || decide (c.res < 0)

def feed (w : Fed σ) (a : α) : Option (Fed σ) :=
  if (T.posted w.sys a).all (T.law w.left) then
    (T.step w.sys a).map fun t =>
      ⟨t, w.left - payload (T.posted w.sys a).toList,
        w.counted + if (T.taken w.sys a).isSome then T.bytes t - T.bytes w.sys else 0⟩
  else none

/-- the connection is open and one of its receives is outstanding -/
def Receives (s : σ) : Prop := T.isOpen s = true ∧ 0 < T.armed s

/-- the bytes that have been counted, wait in completions or are left in the stream -/
def total (w : Fed σ) : Nat := w.counted + payload (T.pending w.sys) + w.left

def Served (w : Fed σ) : Prop :=
  T.total w ≤ n ∧ (T.stop w.sys = false → w.counted < n → T.Receives w.sys ∧ T.total w = n)

/-- the connection is served before the run `as` and after each of its actions -/
def ServedAlong (w : Fed σ) (as : List α) : Prop :=
  T.Served n w ∧ Trans.Along T.feed (fun _ _ w' => T.Served n w') w as

structure Account (w : Fed σ) : Prop where
  le : T.total w ≤ n
  exact : T.isOpen w.sys = true → T.total w = n
  ordered : Ordered w.left (T.pending w.sys)
  whole : ∀ c ∈ T.pending w.sys, 0 < c.res → T.whole c = true

/-- `J` is an invariant of the worker, `counts` what it counts for a completion of the connection -/
structure Spec (J : σ → Prop) (counts : Completion → Nat) (early : σ → α → Prop) : Prop where
  inv : ∀ s a t, J s → T.step s a = some t → J t
  fifo : ∀ s a t, J s → T.step s a = some t →
    (T.taken s a).toList ++ T.pending t = T.pending s ++ (T.posted s a).toList
  /-- an action of the kernel or of the worker -/
  single : ∀ s a, T.taken s a = none ∨ T.posted s a = none
  count : ∀ s a t c, J s → T.step s a = some t → T.taken s a = some c → T.bytes t = T.bytes s + counts c
  counts_le : ∀ c, counts c ≤ c.res.toNat
  exact : ∀ s a t c, J s → T.step s a = some t → T.taken s a = some c → (0 < c.res → T.whole c = true) →
    T.isOpen t = true → counts c = c.res.toNat
  opened : ∀ s a t, J s → T.step s a = some t → T.isOpen t = true → T.isOpen s = true
  stop : ∀ s a t, J s → T.step s a = some t → T.stop t = false → T.stop s = false
  /-- the connection ends at the end of the stream, or early -/
  gone : ∀ s a t, J s → T.step s a = some t → T.stop t = false → T.Receives s → ¬ T.Receives t →
    early s a ∨ ∃ c, T.taken s a = some c ∧ c.res = 0
  early_gone : ∀ s a t, J s → T.step s a = some t → T.stop s = false → early s a →
    T.stop t = false ∧ ¬ T.Receives t

/-- nothing ends or starves the connection before the last byte is counted -/
def NoLoss (counts : Completion → Nat) (early : σ → α → Prop) (w : Fed σ) (a : α) : Prop :=
  T.stop w.sys = false → early w.sys a → w.counted + ((T.taken w.sys a).elim 0 counts) = n

instance (counts : Completion → Nat) (early : σ → α → Prop) [∀ s a, Decidable (early s a)] (w : Fed σ) (a : α) :
    Decidable (T.NoLoss n counts early w a) :=
  inferInstanceAs (Decidable (T.stop w.sys = false → early w.sys a →
    w.counted + ((T.taken w.sys a).elim 0 counts) = n))

section
variable {T n} {J : σ → Prop} {counts : Completion → Nat} {early : σ → α → Prop} {w w' : Fed σ} {a : α}

theorem feed_some (h : T.feed w a = some w') : (∀ c, T.posted w.sys a = some c → T.law w.left c = true) ∧
    T.step w.sys a = some w'.sys ∧ w'.left = w.left - payload (T.posted w.sys a).toList ∧
    w'.counted = w.counted + if (T.taken w.sys a).isSome then T.bytes w'.sys - T.bytes w.sys else 0 := by
  unfold feed at h
  split at h
  next hlaw =>
    obtain ⟨t, ht, rfl⟩ := Option.map_eq_some_iff.mp h
    refine ⟨fun c hc => ?_, ht, rfl, rfl⟩
    rw [hc] at hlaw
    exact hlaw
  · cases h

theorem law_bytes {left : Nat} {c : Completion} (h : T.law left c = true) :
    c.res.toNat ≤ left ∧ (c.res = 0 → left = 0) ∧ (0 < c.res → T.whole c = true) := by
  unfold law at h
  rw [Bool.or_eq_true, Bool.or_eq_true, Bool.and_eq_true, Bool.and_eq_true, Bool.and_eq_true, decide_eq_true_eq,
    decide_eq_true_eq, beq_iff_eq, beq_iff_eq, decide_eq_true_eq] at h
  rcases h with (⟨⟨hpos, hle⟩, hwhole⟩ | ⟨hzero, hleft⟩) | hneg
  · exact ⟨hle, fun h0 => by omega, fun _ => hwhole⟩
  · exact ⟨by omega, fun _ => hleft, fun hp => by omega⟩
  · exact ⟨by omega, fun h0 => by omega, fun hp => by omega⟩

/-- a processed completion adds what is counted for it, another action adds nothing -/
theorem Spec.counted (hS : T.Spec J counts early) (hJ : J w.sys) (h : T.feed w a = some w') :
    w'.counted = w.counted + (T.taken w.sys a).elim 0 counts := by
  obtain ⟨-, hst, -, hc⟩ := feed_some h
  cases htak : T.taken w.sys a with
  | none =>
    rw [htak] at hc
    exact hc
  | some c =>
    rw [htak, hS.count _ a _ c hJ hst htak] at hc
    rw [hc]
    show w.counted + (T.bytes w.sys + counts c - T.bytes w.sys) = w.counted + counts c
    omega

/-- what is posted leaves the stream and waits -/
theorem Spec.arrived (hS : T.Spec J counts early) (hJ : J w.sys) (h : T.feed w a = some w')
    (htak : T.taken w.sys a = none) : w'.counted = w.counted ∧
    T.pending w'.sys = T.pending w.sys ++ (T.posted w.sys a).toList ∧
    w'.left = w.left - payload (T.posted w.sys a).toList := by
  obtain ⟨-, hst, hleft, -⟩ := feed_some h
  have hcount := hS.counted hJ h
  have hfifo := hS.fifo _ a _ hJ hst
  rw [htak] at hcount hfifo
  exact ⟨hcount, hfifo, hleft⟩

/-- what is processed was the first to wait -/
theorem Spec.processed (hS : T.Spec J counts early) (hJ : J w.sys) (h : T.feed w a = some w') {c : Completion}
    (htak : T.taken w.sys a = some c) : w'.counted = w.counted + counts c ∧
    T.pending w.sys = c :: T.pending w'.sys ∧ w'.left = w.left := by
  obtain ⟨-, hst, hleft, -⟩ := feed_some h
  have hcount := hS.counted hJ h
  have hfifo := hS.fifo _ a _ hJ hst
  have hpost : T.posted w.sys a = none := (hS.single w.sys a).resolve_left (by rw [htak]; exact Option.some_ne_none c)
  rw [htak] at hcount
  rw [htak, hpost] at hfifo
  rw [hpost] at hleft
  exact ⟨hcount, (hfifo.trans (List.append_nil _)).symm, hleft⟩

theorem Spec.account_arrived (hS : T.Spec J counts early) (hJ : J w.sys) (hA : T.Account n w)
    (h : T.feed w a = some w') (htak : T.taken w.sys a = none) : T.Account n w' := by
  obtain ⟨hlaw, hst, -, -⟩ := feed_some h
  obtain ⟨hcount, hfifo, hleft⟩ := hS.arrived hJ h htak
  have hopen := hS.opened _ a _ hJ hst
  -- the total does not change, since no more is posted than the stream has
  have hsame : payload (T.posted w.sys a).toList ≤ w.left → T.total w' = T.total w := by
    intro hle
    unfold total
    rw [hcount, hfifo, hleft, payload_append]
    omega
  cases hpost : T.posted w.sys a with
  | none =>
    rw [hpost] at hsame hfifo hleft
    have htotal := hsame (Nat.zero_le _)
    replace hfifo : T.pending w'.sys = T.pending w.sys := hfifo.trans (List.append_nil _)
    replace hleft : w'.left = w.left := hleft
    exact ⟨by rw [htotal]; exact hA.le, fun ho => by rw [htotal]; exact hA.exact (hopen ho),
      by rw [hfifo, hleft]; exact hA.ordered, by rw [hfifo]; exact hA.whole⟩
  | some c =>
    obtain ⟨hle, hend, hwhole⟩ := law_bytes (hlaw c hpost)
    rw [hpost] at hsame hfifo hleft
    have htotal := hsame hle
    replace hfifo : T.pending w'.sys = T.pending w.sys ++ [c] := hfifo
    replace hleft : w'.left = w.left - c.res.toNat := hleft
    refine ⟨by rw [htotal]; exact hA.le, fun ho => by rw [htotal]; exact hA.exact (hopen ho), ?_, fun d hd => ?_⟩
    · rw [hfifo, hleft]
      exact hA.ordered.concat hend hle
    · rw [hfifo, List.mem_append, List.mem_singleton] at hd
      rcases hd with hd | rfl
      · exact hA.whole d hd
      · exact hwhole

theorem Spec.account_processed (hS : T.Spec J counts early) (hJ : J w.sys) (hA : T.Account n w)
    (h : T.feed w a = some w') {c : Completion} (htak : T.taken w.sys a = some c) : T.Account n w' := by
  obtain ⟨-, hst, -, -⟩ := feed_some h
  obtain ⟨hcount, hfifo, hleft⟩ := hS.processed hJ h htak
  have htotal : T.total w' + c.res.toNat = T.total w + counts c := by
    unfold total
    rw [hcount, hfifo, hleft, payload_cons]
    omega
  have hwhole : 0 < c.res → T.whole c = true := hA.whole c (by rw [hfifo]; exact List.mem_cons_self)
  have hord := hA.ordered
  rw [hfifo] at hord
  have hle := hA.le
  have hcle := hS.counts_le c
  refine ⟨by omega, fun ho => ?_, by rw [hleft]; exact hord.2, fun d hd => hA.whole d ?_⟩
  · -- it is counted in full while the connection is open
    have := hA.exact (hS.opened _ a _ hJ hst ho)
    have := hS.exact _ a _ c hJ hst htak hwhole ho
    omega
  · rw [hfifo]
    exact List.mem_cons_of_mem c hd

/-- **The bytes of the stream are accounted for.** -/
theorem Spec.account_step (hS : T.Spec J counts early) (hJ : J w.sys) (hA : T.Account n w)
    (h : T.feed w a = some w') : T.Account n w' := by
  cases htak : T.taken w.sys a with
  | none => exact hS.account_arrived hJ hA h htak
  | some c => exact hS.account_processed hJ hA h htak

/-- when the end of the stream is processed, everything has been counted -/
theorem Spec.all_counted (hS : T.Spec J counts early) (hJ : J w.sys) (hA : T.Account n w)
    (ho : T.isOpen w.sys = true) (h : T.feed w a = some w') {c : Completion} (htak : T.taken w.sys a = some c)
    (hzero : c.res = 0) : w'.counted = n := by
  obtain ⟨hcount, hfifo, -⟩ := hS.processed hJ h htak
  have hord := hA.ordered
  rw [hfifo] at hord
  obtain ⟨hleft, hrest⟩ := hord.1 hzero
  have hall : w.counted + payload (T.pending w.sys) + w.left = n := hA.exact ho
  rw [hfifo, payload_cons, hrest] at hall
  have := hS.counts_le c
  omega

/-- one step: a served connection stays served exactly if nothing is lost -/
theorem Spec.served_step (hS : T.Spec J counts early) (hJ : J w.sys) (hA : T.Account n w) (hv : T.Served n w)
    (h : T.feed w a = some w') : T.Served n w' ↔ T.NoLoss n counts early w a := by
  obtain ⟨-, hst, -, -⟩ := feed_some h
  have hcount := hS.counted hJ h
  have hA' := hS.account_step hJ hA h
  have hle : w'.counted ≤ n := (Nat.le_add_right _ _).trans ((Nat.le_add_right _ _).trans hA'.le)
  constructor
  · intro hv' hstop hearly
    obtain ⟨hstop', hgone⟩ := hS.early_gone _ a _ hJ hst hstop hearly
    have hnot : ¬ w'.counted < n := fun hlt => hgone (hv'.2 hstop' hlt).1
    omega
  · intro hno
    refine ⟨hA'.le, fun hstop' hlt => ?_⟩
    have hstop := hS.stop _ a _ hJ hst hstop'
    obtain ⟨hrec, -⟩ := hv.2 hstop (by omega)
    suffices hrec' : T.Receives w'.sys from ⟨hrec', hA'.exact hrec'.1⟩
    by_contra hgone
    rcases hS.gone _ a _ hJ hst hstop' hrec hgone with hearly | ⟨c, htak, hzero⟩
    · have := hno hstop hearly
      omega
    · have := hS.all_counted hJ hA hrec.1 h htak hzero
      omega

/-- **A connection is served along a run exactly if it can receive at the beginning and nothing is lost before the last
byte.** -/
theorem Spec.served_iff (hS : T.Spec J counts early) {s : σ} (hJ : J s) (hpend : T.pending s = []) (n : Nat)
    (as : List α) : T.ServedAlong n ⟨s, n, 0⟩ as ↔ (T.stop s = false → 0 < n → T.Receives s) ∧
      Trans.Along T.feed (fun w a _ => T.NoLoss n counts early w a) ⟨s, n, 0⟩ as := by
  have htotal : T.total ⟨s, n, 0⟩ = n := by simp [total, hpend]
  have hA : T.Account n ⟨s, n, 0⟩ := by
    refine ⟨htotal.le, fun _ => htotal, ?_, ?_⟩ <;> simp [hpend, Ordered]
  have hv : T.Served n ⟨s, n, 0⟩ ↔ (T.stop s = false → 0 < n → T.Receives s) :=
    ⟨fun h hstop hn => (h.2 hstop hn).1, fun h => ⟨htotal.le, fun hstop hn => ⟨h hstop hn, htotal⟩⟩⟩
  unfold ServedAlong
  rw [hv]
  refine and_congr_right fun h => ?_
  -- the account is the invariant; a step is judged against a connection that has been served so far
  exact Trans.along_iff (I := fun w => J w.sys ∧ T.Account n w) (G := T.Served n)
    (fun _ a _ hi hst => ⟨hS.inv _ a _ hi.1 (feed_some hst).2.1, hS.account_step hi.1 hi.2 hst⟩)
    (fun _ _ _ hv => hv) (fun _ _ _ hi hv hst => hS.served_step hi.1 hi.2 hv hst) as ⟨s, n, 0⟩ ⟨hJ, hA⟩ (hv.mpr h)

/-- a connection to which more arrives is not served -/
theorem ServedAlong.left_le {s : σ} {m : Nat} {as : List α} (h : T.ServedAlong n ⟨s, m, 0⟩ as) : m ≤ n :=
  (Nat.le_add_left m _).trans h.1.1

end
end Tap

/-! ## chosen entries of a ring -/

namespace IoRing
variable {ε : Type} (p : ε → Bool) {r r' : IoRing ε}

/-- the unseen completions of the entries in `p` -/
def unseen (r : IoRing ε) : List Completion := (r.cq.filter fun c => p c.op).map Cqe.toCompletion

/-- the first unseen completion, if it is of an entry in `p` -/
def first (r : IoRing ε) : Option Completion :=
  r.cq.head?.bind fun c => if p c.op then some c.toCompletion else none

/-- the completion `c`, if the `i`-th entry in the kernel is in `p` -/
def named (r : IoRing ε) (i : Nat) (c : Completion) : Option Completion :=
  r.kern[i]?.bind fun q => if p q.op then some c else none

theorem unseen_congr (h : r'.cq = r.cq) : r'.unseen p = r.unseen p := by
  unfold unseen
  rw [h]

theorem unseen_nil (h : r.cq = []) : r.unseen p = [] := by
  unfold unseen
  rw [h]
  rfl

theorem unseen_seen {c : Cqe ε} {cs : List (Cqe ε)} (h : r.cq = c :: cs) :
    (r.first p).toList ++ r.seen.unseen p = r.unseen p := by
  unfold first unseen
  show _ ++ (r.cq.tail.filter _).map _ = _
  rw [h, List.head?_cons, List.tail_cons, List.filter_cons]
  cases hp : p c.op <;> simp [hp]

theorem unseen_post {kind : ε → Kind} {i : Nat} {c : Completion} (h : r.post kind i c = some r') :
    r'.unseen p = r.unseen p ++ (r.named p i c).toList := by
  obtain ⟨q, -, hq, -, -, -, hcq, -⟩ := post_some h
  unfold named unseen
  rw [hcq, hq, List.filter_append, List.map_append]
  cases hp : p q.op <;> simp [hp]

end IoRing
end
end Uring
