import UringPerf.Engine.Batch

/-!
# Completions are consumed exactly once and in order

For loops of both shapes, whatever their bodies do, and over every interleaving with the kernel.

* `Loop.Releases`    every branch of the body ends with the one `cqe_seen` of its completion;
* `Batch.Inv`        where the pointers of a batch point, phase by phase;
* `Batch.Once`       what a reader of the loop relies on, and `Batch.reach_once`;
* `Each.Inv`, `Each.Once`, `Each.reach_once`   the same for `io_uring_for_each_cqe`.
-/

namespace UringPerf
open Trans Circular

namespace CompletionQueue

/-- pointers to `n` completions, the first of them `skip` after the head -/
def pointers {ε : Type*} (q : CompletionQueue ε) (skip n : Nat) : List UInt32 :=
  (List.range n).map fun j => (q.khead + UInt32.ofNat (skip + j)) &&& q.ringMask

section
variable {ε : Type*} {q : CompletionQueue ε} {skip : Nat}

theorem pointers_concat (n : Nat) :
    q.pointers skip (n + 1) = q.pointers skip n ++ [(q.khead + UInt32.ofNat (skip + n)) &&& q.ringMask] := by
  unfold pointers
  rw [List.range_succ, List.map_append]
  rfl

theorem pointers_cons (n : Nat) :
    q.pointers skip (n + 1) = ((q.khead + UInt32.ofNat skip) &&& q.ringMask) :: q.pointers (skip + 1) n := by
  unfold pointers
  rw [List.range_succ_eq_map, List.map_cons, List.map_map]
  congr 1
  apply List.map_congr_left
  intro j _
  rw [Function.comp_apply, Nat.add_assoc, Nat.add_comm 1 j]

/-- releasing one completion moves the head under the pointers -/
theorem pointers_seen (n : Nat) : q.cqeSeen.pointers skip n = q.pointers (skip + 1) n := by
  unfold pointers
  apply List.map_congr_left
  intro j _
  have e : q.khead + UInt32.ofNat (skip + 1 + j) = q.khead + 1 + UInt32.ofNat (skip + j) := by
    rw [Nat.add_right_comm, Nat.add_comm _ 1, UInt32.ofNat_add, UInt32.add_assoc]
    rfl
  rw [e]
  rfl

end
end CompletionQueue

section
variable {σ ε χ κ : Type} {base : UInt32} {held : Nat}

namespace Log

theorem Sound.order {l : Log ε} (h : l.Sound base held) : l.processed <+: l.posted := by
  rw [h.processed]
  exact List.take_prefix _ _

theorem Sound.released_le {l : Log ε} (h : l.Sound base held) : l.released ≤ l.processed.length := by
  rw [h.length_processed]
  exact Nat.le_add_right _ _

/-- what may change outside the loop: completions are added behind the others -/
structure Grows (l l' : Log ε) : Prop where
  khead : l'.cq.khead = l.cq.khead
  mask : l'.cq.ringMask = l.cq.ringMask
  room : l.cq.unreleased.length ≤ l'.cq.unreleased.length
  processed : l'.processed = l.processed
  mark : l'.mark = l.mark

theorem Sound.outside {l l' : Log ε} (h : l.Sound base held) {c : Option ε} (ho : l.outside c = some l') :
    l'.Sound base held ∧ l.Grows l' := by
  cases c with
  | none =>
    cases ho
    exact ⟨h, rfl, rfl, le_rfl, rfl, rfl⟩
  | some c =>
    unfold Log.outside at ho
    dsimp only at ho
    split at ho
    next hroom =>
      cases ho
      have h' := h.post hroom c
      refine ⟨h', rfl, rfl, ?_, rfl, rfl⟩
      rw [h.length_unreleased, h'.length_unreleased]
      show l.posted.length - l.released ≤ (l.posted ++ [c]).length - l.released
      rw [List.length_append]
      omega
    · cases ho

theorem Grows.pointers {l l' : Log ε} (h : l.Grows l') (skip n : Nat) :
    l'.cq.pointers skip n = l.cq.pointers skip n := by
  unfold CompletionQueue.pointers
  rw [h.khead, h.mask]

/-- the mark was set when all that had been read was released -/
def Marked (base : UInt32) (l : Log ε) : Prop := l.mark.head = base + UInt32.ofNat l.mark.processed

theorem Sound.marked {l : Log ε} (h : l.Sound base 0) (n : Nat) : (l.setMark n).Marked base := by
  have hlen := h.length_processed
  show l.cq.khead = base + UInt32.ofNat l.processed.length
  rw [hlen, Nat.add_zero, h.head]

theorem Grows.marked {l l' : Log ε} (hg : l.Grows l') (h : l.Marked base) : l'.Marked base := by
  unfold Marked
  rw [hg.mark]
  exact h

/-- after a batch the head has moved by as many completions as have been read -/
theorem Sound.advanced {l : Log ε} (h : l.Sound base 0) (hm : l.Marked base) {n : Nat}
    (hn : l.processed.length = l.mark.processed + n) : l.cq.khead = l.mark.head + UInt32.ofNat n := by
  have hlen := h.length_processed
  rw [Nat.add_zero] at hlen
  rw [h.head, hm, UInt32.add_assoc, ← UInt32.ofNat_add, ← hn, hlen]

end Log

/-- one `cqe_seen`, and nothing after it -/
def EndsSeen (todo : List (Stmt σ ε)) : Prop := ∃ fs : List (σ → ε → σ), todo = fs.map Stmt.use ++ [.seen]

/-- every branch of the body ends with the one `cqe_seen` of its completion -/
def Loop.Releases (loop : Loop σ ε χ) : Prop := ∀ x s c, EndsSeen (loop.body x s c)

theorem EndsSeen.use {f : σ → ε → σ} {todo : List (Stmt σ ε)} (h : EndsSeen (.use f :: todo)) : EndsSeen todo := by
  obtain ⟨fs, e⟩ := h
  cases fs with
  | nil => cases e
  | cons g fs => exact ⟨fs, (List.cons.inj e).2⟩

theorem EndsSeen.seen {todo : List (Stmt σ ε)} (h : EndsSeen (.seen :: todo)) : todo = [] := by
  obtain ⟨fs, e⟩ := h
  cases fs with
  | nil => exact (List.cons.inj e).2
  | cons g fs => cases e

theorem not_endsSeen_nil : ¬ EndsSeen ([] : List (Stmt σ ε)) := by
  rintro ⟨fs, e⟩
  exact List.append_ne_nil_of_right_ne_nil _ (List.cons_ne_nil _ _) e.symm

namespace Batch

/-- `left` completions of the batch are still to be read, the first of them `skip` after the head -/
structure Pointing (l : Log ε) (skip : Nat) (cqes : List UInt32) : Prop where
  pointers : cqes = l.cq.pointers skip cqes.length
  le : skip + cqes.length ≤ l.cq.unreleased.length

theorem Pointing.grow {l l' : Log ε} {skip : Nat} {cqes : List UInt32} (h : Pointing l skip cqes) (hg : l.Grows l') :
    Pointing l' skip cqes :=
  ⟨h.pointers.trans (hg.pointers _ _).symm, h.le.trans hg.room⟩

/-- how far the batch is -/
def Left (l : Log ε) (cqes : List UInt32) : Prop :=
  l.processed.length + cqes.length = l.mark.processed + l.mark.reaped

theorem Left.grow {l l' : Log ε} {cqes : List UInt32} (h : Left l cqes) (hg : l.Grows l') : Left l' cqes := by
  unfold Left
  rw [hg.processed, hg.mark]
  exact h

/-- how many completions have been read and not released -/
def Phase.inHand : Phase σ ε → Nat
  | .run _ (_ :: _) _ => 1
  | _ => 0

/-- where the pointers of each phase point -/
def PhaseInv (l : Log ε) : Phase σ ε → Prop
  | .top | .exited => True
  | .reap head cqesOut => Pointing l 0 cqesOut ∧ head = l.cq.khead + UInt32.ofNat cqesOut.length
  | .batch cqes => Pointing l 0 cqes ∧ Left l cqes
  | .run _ [] cqes => Pointing l 0 cqes ∧ Left l cqes
  | .run cqe (stmt :: todo) cqes =>
    Pointing l 1 cqes ∧ Left l cqes ∧ EndsSeen (stmt :: todo) ∧ cqe = l.cq.khead &&& l.cq.ringMask
  | .flush => l.processed.length = l.mark.processed + l.mark.reaped

structure Inv (base : UInt32) (s : St σ ε) : Prop where
  marked : s.log.Marked base
  sound : s.log.Sound base s.phase.inHand
  phase : PhaseInv s.log s.phase

theorem inv_start {mask : UInt32} (hm : IsMask mask) (cqes : UInt32 → ε) (app : σ) :
    Inv base (start mask base cqes app) :=
  ⟨(UInt32.add_zero base).symm, Log.sound_start hm cqes, trivial⟩

/-! ## the steps of the worker -/

variable {loop : Loop σ ε χ} {s t : St σ ε}

theorem inv_reaped {cqesOut : List UInt32} (hm : s.log.Marked base) (hs : s.log.Sound base 0)
    (hp : Pointing s.log 0 cqesOut) : Inv base (reaped loop s cqesOut) := by
  unfold reaped
  split
  · exact ⟨hm, hs, trivial⟩
  · have hs' : (s.log.setMark cqesOut.length).Sound base 0 :=
      ⟨hs.mask, hs.ring, hs.fits, hs.held_le, hs.processed, hs.head⟩
    exact ⟨hs.marked _, hs', ⟨hp.pointers, hp.le⟩, rfl⟩

/-- one more pointer is collected -/
theorem Pointing.collect {l : Log ε} {cqe : UInt32} {cqesOut : List UInt32} (hp : Pointing l 0 cqesOut)
    (hnext : l.cq.forEachNext (l.cq.khead + UInt32.ofNat cqesOut.length) = some cqe) :
    Pointing l 0 (cqesOut ++ [cqe]) := by
  have hle := hp.le
  rw [l.cq.forEachNext_eq (by omega)] at hnext
  split at hnext
  next hlt =>
    cases hnext
    refine ⟨?_, ?_⟩
    · rw [List.length_append, List.length_singleton, CompletionQueue.pointers_concat, ← hp.pointers, Nat.zero_add]
    · rw [List.length_append, List.length_singleton]
      omega
  · cases hnext

/-- the body of the loop reads the next completion of the batch -/
theorem inv_look {cqe : UInt32} {cqes : List UInt32} {todo : List (Stmt σ ε)} (htodo : EndsSeen todo)
    (h : Inv base s) (hph : s.phase = .batch (cqe :: cqes)) :
    Inv base { s with log := s.log.look cqe, phase := .run cqe todo cqes } := by
  obtain ⟨hm, hs, hp⟩ := h
  rw [hph] at hs hp
  obtain ⟨hp, hleft⟩ := hp
  have hcons := hp.pointers
  rw [List.length_cons, CompletionQueue.pointers_cons] at hcons
  obtain ⟨hcqe, hcqes⟩ := List.cons.inj hcons
  have hle := hp.le
  rw [List.length_cons] at hle
  have hlook : (s.log.look cqe).Sound base 1 := by
    rw [hcqe]
    exact Log.Sound.look hs (Nat.lt_of_lt_of_le (Nat.succ_pos _) (Nat.zero_add _ ▸ hle))
  have hleft' : Left (s.log.look cqe) cqes := by
    have hl : s.log.processed.length + (cqes.length + 1) = s.log.mark.processed + s.log.mark.reaped := hleft
    show (s.log.processed ++ [_]).length + cqes.length = s.log.mark.processed + s.log.mark.reaped
    rw [List.length_append, List.length_singleton]
    omega
  cases todo with
  | nil => exact absurd htodo not_endsSeen_nil
  | cons stmt todo =>
    refine ⟨hm, hlook, ⟨hcqes, ?_⟩, hleft', htodo, ?_⟩
    · show 1 + cqes.length ≤ s.log.cq.unreleased.length
      omega
    · exact hcqe.trans (congrArg (· &&& s.log.cq.ringMask) (UInt32.add_zero _))

/-- `cqe_seen` releases the completion the body has read, and is its last statement -/
theorem inv_seen {cqe : UInt32} {todo : List (Stmt σ ε)} {cqes : List UInt32} (h : Inv base s)
    (hph : s.phase = .run cqe (.seen :: todo) cqes) :
    Inv base { s with log := s.log.release 1, phase := .run cqe todo cqes } := by
  obtain ⟨hm, hs, hp⟩ := h
  rw [hph] at hs hp
  obtain ⟨hp, hleft, htodo, -⟩ := hp
  obtain rfl := htodo.seen
  have hs' : (s.log.release 1).Sound base 0 := Log.Sound.release hs le_rfl
  have hpointers : (s.log.release 1).cq.pointers 0 cqes.length = s.log.cq.pointers 1 cqes.length :=
    CompletionQueue.pointers_seen _
  have hle := hp.le
  refine ⟨hm, hs', ⟨hp.pointers.trans hpointers.symm, ?_⟩, hleft⟩
  rw [hs.length_unreleased] at hle
  rw [hs'.length_unreleased]
  show 0 + cqes.length ≤ s.log.posted.length - (s.log.released + 1)
  omega

theorem inv_worker (hr : loop.Releases) {x : χ} (h : Inv base s) (hst : workerStep loop s x = some t) : Inv base t := by
  obtain ⟨hm, hs, hp⟩ := id h
  unfold workerStep at hst
  split at hst
  next hph =>
    rw [hph] at hs
    split at hst
    · cases hst
      exact ⟨hm, hs, ⟨rfl, Nat.zero_le _⟩, (UInt32.add_zero _).symm⟩
    · cases hst
      exact ⟨hm, hs, trivial⟩
  next head cqesOut hph =>
    rw [hph] at hs hp
    obtain ⟨hp, rfl⟩ := hp
    split at hst
    · cases hst
      exact inv_reaped hm hs hp
    next cqe hnext =>
      split at hst
      · cases hst
        exact inv_reaped hm hs hp
      · cases hst
        refine ⟨hm, hs, hp.collect hnext, ?_⟩
        rw [List.length_append, UInt32.ofNat_add, ← UInt32.add_assoc]
        rfl
  next hph =>
    rw [hph] at hs hp
    cases hst
    exact ⟨hm, hs, hp.2⟩
  next cqe cqes hph =>
    cases hst
    exact inv_look (hr x s.app _) h hph
  next cqe f todo cqes hph =>
    rw [hph] at hs hp
    cases hst
    obtain ⟨hp, hleft, htodo, hcqe⟩ := hp
    cases todo with
    | nil => exact absurd htodo.use not_endsSeen_nil
    | cons stmt todo => exact ⟨hm, hs, hp, hleft, htodo.use, hcqe⟩
  next cqe todo cqes hph =>
    cases hst
    exact inv_seen h hph
  next cqe cqes hph =>
    rw [hph] at hs hp
    cases hst
    exact ⟨hm, hs, hp⟩
  next hph =>
    rw [hph] at hs
    cases hst
    exact ⟨hm, hs, trivial⟩
  next => cases hst

/-! ## every run -/

theorem PhaseInv.grow {l l' : Log ε} {phase : Phase σ ε} (h : PhaseInv l phase) (hg : l.Grows l') :
    PhaseInv l' phase := by
  unfold PhaseInv at h ⊢
  split
  · trivial
  · trivial
  · exact ⟨h.1.grow hg, by rw [hg.khead]; exact h.2⟩
  · exact ⟨h.1.grow hg, h.2.grow hg⟩
  · exact ⟨h.1.grow hg, h.2.grow hg⟩
  · exact ⟨h.1.grow hg, h.2.1.grow hg, h.2.2.1, by rw [hg.khead, hg.mask]; exact h.2.2.2⟩
  · rw [hg.processed, hg.mark]
    exact h

theorem inv_outside {outside : κ → σ → Option (σ × Option ε)} {e : κ} (h : Inv base s)
    (hst : step loop outside s (.outside e) = some t) : Inv base t := by
  obtain ⟨r, -, hr⟩ := Option.bind_eq_some_iff.mp hst
  obtain ⟨l, hl, rfl⟩ := Option.map_eq_some_iff.mp hr
  obtain ⟨hs, hg⟩ := h.sound.outside hl
  exact ⟨hg.marked h.marked, hs, h.phase.grow hg⟩

/-- the completions are processed in the order in which they were posted, none twice and none left out; those not
released are in the ring as they were posted, also the one that is being processed; and after a batch of reaped
completions all of them have been processed and released -/
structure Once (s : St σ ε) : Prop where
  order : s.log.processed <+: s.log.posted
  released_le : s.log.released ≤ s.log.processed.length
  kept : s.log.cq.unreleased = s.log.posted.drop s.log.released
  reading : ∀ cqe todo cqes, s.phase = .run cqe todo cqes → todo ≠ [] →
    s.log.processed.getLast? = some (s.log.cq.cqes cqe)
  batch : s.phase = .flush →
    s.log.processed.length = s.log.mark.processed + s.log.mark.reaped ∧
    s.log.cq.khead = s.log.mark.head + UInt32.ofNat s.log.mark.reaped ∧
    s.log.released = s.log.processed.length

theorem Inv.once (h : Inv base s) : Once s := by
  obtain ⟨hm, hs, hp⟩ := h
  refine ⟨hs.order, hs.released_le, hs.ring, ?_, ?_⟩
  · intro cqe todo cqes hph hne
    rw [hph] at hs hp
    cases todo with
    | nil => exact absurd rfl hne
    | cons stmt todo =>
      obtain ⟨-, -, -, rfl⟩ := hp
      have hzero : s.log.cq.khead + UInt32.ofNat 0 = s.log.cq.khead := UInt32.add_zero _
      have hlast := hs.last
      rwa [hzero] at hlast
  · intro hph
    rw [hph] at hs hp
    exact ⟨hp, hs.advanced hm hp, hs.length_processed.symm⟩

/-- **Every run of a loop consumes the completions once and in order**, if its body releases each of them once. -/
theorem reach_once (hr : loop.Releases) {mask : UInt32} (hm : IsMask mask) (outside : κ → σ → Option (σ × Option ε))
    {cqes : UInt32 → ε} {app : σ} (h : Reach (step loop outside) (start mask base cqes app) s) : Once s := by
  have hinv : Inv base s := by
    refine h.inv (inv_start hm cqes app) ?_
    intro s a t hi hst
    cases a with
    | worker x => exact inv_worker hr hi hst
    | outside e => exact inv_outside hi hst
  exact hinv.once

end Batch

namespace Each

variable {loop : ForEach σ ε χ} {s t : St σ ε}

/-- how many completions have been read and not released -/
def Phase.inHand : Phase σ ε → Nat
  | .each _ count => count.toNat
  | .run _ count _ _ => count.toNat + 1
  | _ => 0

/-- the loop stands `count` completions after the head -/
def PhaseInv (l : Log ε) : Phase σ ε → Prop
  | .each head count => head = l.cq.khead + count
  | .run head count cqe _ => head = l.cq.khead + count ∧ cqe = head &&& l.cq.ringMask
  | .top | .exited => True

structure Inv (base : UInt32) (s : St σ ε) : Prop where
  marked : s.log.Marked base
  mark_le : s.log.mark.processed ≤ s.log.processed.length
  sound : s.log.Sound base s.phase.inHand
  phase : PhaseInv s.log s.phase

theorem inv_start {mask : UInt32} (hm : IsMask mask) (cqes : UInt32 → ε) (app : σ) :
    Inv base (start mask base cqes app) :=
  ⟨(UInt32.add_zero base).symm, le_rfl, Log.sound_start hm cqes, trivial⟩

/-- what the loop finds after the completions it has read -/
theorem next_eq {l : Log ε} {count : UInt32} (hs : l.Sound base count.toNat) :
    l.cq.forEachNext (l.cq.khead + count) = if count.toNat < l.cq.unreleased.length then
      some ((l.cq.khead + count) &&& l.cq.ringMask) else none := by
  have h := l.cq.forEachNext_eq hs.held_le_length
  rwa [UInt32.ofNat_toNat] at h

theorem inv_look {head count cqe : UInt32} {todo : List (σ → ε → σ)} (h : Inv base s)
    (hph : s.phase = .each head count) (hnext : s.log.cq.forEachNext head = some cqe) :
    Inv base { s with log := s.log.look cqe, phase := .run head count cqe todo } := by
  obtain ⟨hm, hle, hs, hp⟩ := h
  rw [hph] at hs hp
  change s.log.Sound base count.toNat at hs
  obtain rfl : head = s.log.cq.khead + count := hp
  rw [next_eq hs] at hnext
  split at hnext
  next hlt =>
    cases hnext
    refine ⟨hm, ?_, ?_, rfl, rfl⟩
    · show s.log.mark.processed ≤ (s.log.processed ++ [_]).length
      rw [List.length_append]
      exact hle.trans (Nat.le_add_right _ _)
    · have hlook := hs.look hlt
      rwa [UInt32.ofNat_toNat] at hlook
  · cases hnext

/-- one more completion has been processed; the count does not wrap, as it is at most the size of the ring -/
theorem inv_count {head count cqe : UInt32} (h : Inv base s) (hph : s.phase = .run head count cqe []) :
    Inv base { s with phase := .each (head + 1) (count + 1) } := by
  obtain ⟨hm, hle, hs, hp⟩ := h
  rw [hph] at hs hp
  change s.log.Sound base (count.toNat + 1) at hs
  obtain ⟨rfl, -⟩ : head = s.log.cq.khead + count ∧ _ := hp
  have hlt : count.toNat + 1 < 2^32 := Nat.lt_of_le_of_lt hs.held_le_length hs.length_lt
  have hcount : (count + 1).toNat = count.toNat + 1 := by
    rw [UInt32.toNat_add]
    exact Nat.mod_eq_of_lt hlt
  refine ⟨hm, hle, ?_, UInt32.add_assoc _ _ _⟩
  show s.log.Sound base (count + 1).toNat
  rw [hcount]
  exact hs

theorem inv_worker {x : χ} (h : Inv base s) (hst : workerStep loop s x = some t) : Inv base t := by
  obtain ⟨hm, hle, hs, hp⟩ := id h
  unfold workerStep at hst
  split at hst
  next hph =>
    rw [hph] at hs
    change s.log.Sound base 0 at hs
    split at hst
    · split at hst
      · cases hst
        exact ⟨hm, hle, hs, trivial⟩
      · cases hst
        exact ⟨hs.marked 0, le_rfl, ⟨hs.mask, hs.ring, hs.fits, hs.held_le, hs.processed, hs.head⟩,
          (UInt32.add_zero _).symm⟩
    · cases hst
      exact ⟨hm, hle, hs, trivial⟩
  next head count hph =>
    split at hst
    · cases hst
      rw [hph] at hs
      have hrel := Log.Sound.release hs le_rfl
      rw [Nat.sub_self] at hrel
      refine ⟨hm, hle, ?_, trivial⟩
      show (s.log.release count).Sound base 0
      rw [← UInt32.ofNat_toNat (x := count)]
      exact hrel
    next cqe hnext =>
      cases hst
      exact inv_look h hph hnext
  next head count cqe f todo hph =>
    rw [hph] at hs hp
    cases hst
    exact ⟨hm, hle, hs, hp⟩
  next head count cqe hph =>
    cases hst
    exact inv_count h hph
  next => cases hst

theorem PhaseInv.grow {l l' : Log ε} {phase : Phase σ ε} (h : PhaseInv l phase) (hg : l.Grows l') :
    PhaseInv l' phase := by
  unfold PhaseInv at h ⊢
  split
  · rw [hg.khead]
    exact h
  · rw [hg.khead, hg.mask]
    exact h
  · trivial
  · trivial

theorem inv_outside {outside : κ → σ → Option (σ × Option ε)} {e : κ} (h : Inv base s)
    (hst : step loop outside s (.outside e) = some t) : Inv base t := by
  obtain ⟨r, -, hr⟩ := Option.bind_eq_some_iff.mp hst
  obtain ⟨l, hl, rfl⟩ := Option.map_eq_some_iff.mp hr
  obtain ⟨hs, hg⟩ := h.sound.outside hl
  exact ⟨hg.marked h.marked, by rw [hg.processed, hg.mark]; exact h.mark_le, hs, h.phase.grow hg⟩

/-- as `Batch.Once`; here the batch ends when the loop is back at its top -/
structure Once (s : St σ ε) : Prop where
  order : s.log.processed <+: s.log.posted
  released_le : s.log.released ≤ s.log.processed.length
  kept : s.log.cq.unreleased = s.log.posted.drop s.log.released
  reading : ∀ head count cqe todo, s.phase = .run head count cqe todo →
    s.log.processed.getLast? = some (s.log.cq.cqes cqe)
  batch : s.phase = .top →
    s.log.mark.processed ≤ s.log.processed.length ∧
    s.log.cq.khead = s.log.mark.head + UInt32.ofNat (s.log.processed.length - s.log.mark.processed) ∧
    s.log.released = s.log.processed.length

theorem Inv.once (h : Inv base s) : Once s := by
  obtain ⟨hm, hle, hs, hp⟩ := h
  refine ⟨hs.order, hs.released_le, hs.ring, ?_, ?_⟩
  · intro head count cqe todo hph
    rw [hph] at hs hp
    obtain ⟨rfl, rfl⟩ := hp
    have hlast := Log.Sound.last hs
    rwa [UInt32.ofNat_toNat] at hlast
  · intro hph
    rw [hph] at hs
    change s.log.Sound base 0 at hs
    exact ⟨hle, hs.advanced hm (by omega), hs.length_processed.symm⟩

/-- **Every run of a loop over the ring consumes the completions once and in order.** -/
theorem reach_once {mask : UInt32} (hm : IsMask mask) (outside : κ → σ → Option (σ × Option ε))
    {cqes : UInt32 → ε} {app : σ} (h : Reach (step loop outside) (start mask base cqes app) s) : Once s := by
  have hinv : Inv base s := by
    refine h.inv (inv_start hm cqes app) ?_
    intro s a t hi hst
    cases a with
    | worker x => exact inv_worker hi hst
    | outside e => exact inv_outside hi hst
  exact hinv.once

end Each
end

end UringPerf
