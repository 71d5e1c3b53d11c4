import UringPerf.Base.Run
import UringPerf.Engine.BufRing

/-!
# A receive loop and the kernel that selects its buffers

The loops of the workers say nothing about which buffer a completion carries.  Here a loop is run together
with the kernel's side of the buffer ring: a completion with a buffer takes the oldest entry of the ring, so
its id is the one written there.

* `View`              what of a loop matters: its ring, its unprocessed completions, which actions are posts;
* `View.select`       one action of the loop, the kernel's counter included;
* `View.Returns`      the loop gives back the buffer of a completion when it processes it, and only then;
* `Conserved`         every buffer is in one place, and the entries are those of their buffers;
* `Returns.reach`     a loop that returns its buffers conserves them, over runs of any length.
-/

namespace UringPerf
open Uring

/-- a loop `step` with actions `α`; `posted a` is the completion that the action `a` posts -/
structure View (σ α : Type*) where
  step : σ → α → Option σ
  pool : σ → RecvPool
  cq : σ → List (Cqe Sqe)
  posted : α → Option Completion

/-- a loop and the kernel's counter of the buffer ring -/
structure Selecting (σ : Type*) where
  loop : σ
  head : Nat

section
variable {σ α : Type*} (V : View σ α)

/-- the id of a selected buffer is the one in the slot of the kernel's counter; nothing can be selected
from an empty ring -/
def View.select (s : Selecting σ) (a : α) : Option (Selecting σ) :=
  match (V.posted a).bind (·.buffer) with
  | none => (V.step s.loop a).map fun t => ⟨t, s.head⟩
  | some id =>
    let p := V.pool s.loop
    if s.head ≠ p.tail ∧ (p.slots (s.head &&& p.mask)).bid = id then
      (V.step s.loop a).map fun t => ⟨t, (s.head + 1) % 2^16⟩
    else none

/-- the buffers of the unprocessed completions -/
def View.held (s : σ) : List Nat := (V.cq s).filterMap (·.buffer)

/-- the ring after the buffer of a processed completion has been returned -/
def RecvPool.takeBack (p : RecvPool) (c : Completion) : RecvPool :=
  match c.buffer with
  | none => p
  | some id => p.returnRecvBuffer (id % 2^16)

/-- `I` is an invariant of the loop under which the processed completions give back their buffers -/
structure View.Returns (I : σ → Prop) : Prop where
  inv : ∀ s a t, I s → V.step s a = some t → I t
  post : ∀ s a t c, I s → V.step s a = some t → V.posted a = some c →
    V.pool t = V.pool s ∧ ∃ op, V.cq t = V.cq s ++ [⟨c, op⟩]
  other : ∀ s a t, I s → V.step s a = some t → V.posted a = none →
    (V.pool t = V.pool s ∧ V.cq t = V.cq s) ∨
      ∃ c, V.cq s = c :: V.cq t ∧ V.pool t = (V.pool s).takeBack c.toCompletion

end

/-! ## conservation -/

/-- Every buffer is once in the ring or once in an unprocessed completion; every entry of the ring
describes its own buffer. -/
structure Conserved (p : RecvPool) (head : Nat) (held : List Nat) : Prop where
  once : ∀ id, ((p.ready head).map (·.bid)).count id + held.count id = if id < p.count then 1 else 0
  own : ∀ e ∈ p.ready head, e = p.entry e.bid

section
variable {p : RecvPool} {head : Nat} {held : List Nat}

theorem Conserved.perm (h : Conserved p head held) :
    ((p.ready head).map (·.bid) ++ held).Perm (List.range p.count) := by
  apply List.perm_iff_count.mpr
  intro id
  rw [List.count_append, h.once id, List.nodup_range.count]
  simp only [List.mem_range]

/-- the places together hold as many buffers as there are -/
theorem Conserved.length (h : Conserved p head held) :
    (p.ready head).length + held.length = p.count := by
  have := h.perm.length_eq
  rwa [List.length_append, List.length_map, List.length_range] at this

theorem Conserved.lt (h : Conserved p head held) {id : Nat} (hid : id ∈ held) : id < p.count := by
  have h1 := h.once id
  have h2 := List.count_pos_iff.mpr hid
  split at h1
  · assumption
  · omega

/-- while a buffer is held the ring has a free slot -/
theorem Conserved.free (h : Conserved p head held) {id : Nat} (hid : id ∈ held) :
    (p.ready head).length < p.count := by
  have h1 := h.length
  have h2 := List.length_pos_of_mem hid
  omega

/-- the buffers of two entries do not overlap -/
theorem Conserved.disjoint (h : Conserved p head held) :
    (p.ready head).Pairwise fun a b => a.addr + a.len ≤ b.addr ∨ b.addr + b.len ≤ a.addr := by
  have hn : ((p.ready head).map (·.bid)).Nodup := by
    apply List.nodup_iff_count.mpr
    intro id
    have := h.once id
    split at this <;> omega
  refine List.Pairwise.imp_of_mem ?_ (List.pairwise_map.mp hn)
  intro a b ha hb hne
  rw [h.own a ha, h.own b hb]
  show p.base + a.bid * p.size + p.size ≤ p.base + b.bid * p.size ∨
    p.base + b.bid * p.size + p.size ≤ p.base + a.bid * p.size
  rcases Nat.lt_or_gt_of_ne hne with hlt | hlt
  · have := Nat.mul_le_mul_right p.size hlt
    rw [Nat.succ_mul] at this
    omega
  · have := Nat.mul_le_mul_right p.size hlt
    rw [Nat.succ_mul] at this
    omega

/-- every entry is inside the allocation -/
theorem Conserved.inside (h : Conserved p head held) {e : BufEntry} (he : e ∈ p.ready head) :
    e.bid < p.count ∧ p.base ≤ e.addr ∧ e.addr + e.len ≤ p.base + p.count * p.size := by
  have hlt : e.bid < p.count := by
    have h1 := h.once e.bid
    have h2 : 0 < ((p.ready head).map (·.bid)).count e.bid :=
      List.count_pos_iff.mpr (List.mem_map_of_mem he)
    split at h1
    · assumption
    · omega
  refine ⟨hlt, ?_⟩
  rw [h.own e he]
  show p.base ≤ p.base + e.bid * p.size ∧ p.base + e.bid * p.size + p.size ≤ _
  have := Nat.mul_le_mul_right p.size hlt
  rw [Nat.succ_mul] at this
  omega

/-- the kernel moves the oldest entry of the ring to a completion -/
theorem Conserved.select (h : Conserved p head held) (hr : p.Ring head) (hne : head ≠ p.tail) :
    Conserved p ((head + 1) % 2^16) (held ++ [(p.slots (head &&& p.mask)).bid]) := by
  have e := (RecvPool.select_ready hr hne).2
  refine ⟨fun id => ?_, fun b hb => h.own b (by rw [e]; exact List.mem_cons_of_mem _ hb)⟩
  have h1 := h.once id
  rw [e, List.map_cons, List.count_cons] at h1
  rw [List.count_append, List.count_singleton]
  omega

theorem RecvPool.takeBack_none {c : Completion} (h : c.buffer = none) : p.takeBack c = p := by
  unfold takeBack
  rw [h]

theorem RecvPool.takeBack_some {c : Completion} {id : Nat} (h : c.buffer = some id) :
    p.takeBack c = p.returnRecvBuffer (id % 2^16) := by
  unfold takeBack
  rw [h]

/-- the ids of a ring fit into the 16 bits of the completion flags -/
theorem RecvPool.Ring.id_mod (hr : p.Ring head) {id : Nat} (hid : id < p.count) : id % 2^16 = id :=
  Nat.mod_eq_of_lt (Nat.lt_trans hid hr.size.lt)

/-- the loop moves the buffer of a completion back to the ring -/
theorem Conserved.takeBack {c : Completion} {ids : List Nat}
    (h : Conserved p head (c.buffer.toList ++ ids)) (hr : p.Ring head) :
    (p.takeBack c).Ring head ∧ Conserved (p.takeBack c) head ids := by
  cases hb : c.buffer with
  | none =>
    rw [hb] at h
    rw [RecvPool.takeBack_none hb]
    exact ⟨hr, h⟩
  | some id =>
    rw [hb] at h
    have hmem : id ∈ (some id).toList ++ ids := List.mem_append_left _ (List.mem_singleton_self id)
    rw [RecvPool.takeBack_some hb, hr.id_mod (h.lt hmem)]
    obtain ⟨h1, h2⟩ := RecvPool.return_ready hr (h.free hmem) id
    refine ⟨h1, fun id' => ?_, fun e he => ?_⟩
    · have h3 := h.once id'
      rw [List.count_append, Option.toList_some, List.count_singleton] at h3
      rw [h2, List.map_append, List.count_append, List.map_singleton, List.count_singleton]
      show _ + (if (id == id') = true then 1 else 0) + _ = if id' < p.count then 1 else 0
      omega
    · rw [h2, List.mem_append, List.mem_singleton] at he
      rcases he with he | rfl
      · exact h.own e he
      · rfl

/-- a slot the kernel has not consumed stays as it is -/
theorem Conserved.kept {c : Completion} {ids : List Nat}
    (h : Conserved p head (c.buffer.toList ++ ids)) (hr : p.Ring head) {k : Nat}
    (hk : k < (p.ready head).length) :
    (p.takeBack c).slots ((head + k) &&& p.mask) = p.slots ((head + k) &&& p.mask) := by
  cases hb : c.buffer with
  | none => rw [RecvPool.takeBack_none hb]
  | some id =>
    rw [hb] at h
    have hmem : id ∈ (some id).toList ++ ids := List.mem_append_left _ (List.mem_singleton_self id)
    rw [RecvPool.takeBack_some hb, hr.and_mask]
    exact RecvPool.return_other hr (h.free hmem) _ hk

end

/-! ## runs -/

section
variable {σ α : Type*} {V : View σ α} {I : σ → Prop}

/-- the invariant of a loop that returns its buffers -/
structure Sound (V : View σ α) (I : σ → Prop) (s : Selecting σ) : Prop where
  inv : I s.loop
  ring : (V.pool s.loop).Ring s.head
  conserved : Conserved (V.pool s.loop) s.head (V.held s.loop)

/-- no slot in use is overwritten by the transition -/
def Kept (V : View σ α) (s t : Selecting σ) : Prop :=
  ∀ k < ((V.pool s.loop).ready s.head).length,
    (V.pool t.loop).slots ((s.head + k) &&& (V.pool s.loop).mask) =
      (V.pool s.loop).slots ((s.head + k) &&& (V.pool s.loop).mask)

theorem held_post {s t : σ} {c : Completion} {op : Sqe} (h : V.cq t = V.cq s ++ [⟨c, op⟩]) :
    V.held t = V.held s ++ c.buffer.toList := by
  unfold View.held
  rw [h, List.filterMap_append]
  cases hb : c.buffer <;> simp [hb]

theorem held_take {s t : σ} {c : Cqe Sqe} (h : V.cq s = c :: V.cq t) :
    V.held s = c.buffer.toList ++ V.held t := by
  unfold View.held
  rw [h, List.filterMap_cons]
  cases c.buffer <;> rfl

theorem View.Returns.step (hV : V.Returns I) {s t : Selecting σ} {a : α} (hs : Sound V I s)
    (h : V.select s a = some t) : Sound V I t ∧ Kept V s t := by
  unfold View.select at h
  cases hp : V.posted a with
  | none =>
    rw [hp] at h
    obtain ⟨u, hu, rfl⟩ := Option.map_eq_some_iff.mp h
    have hI := hV.inv _ _ _ hs.inv hu
    rcases hV.other _ _ _ hs.inv hu hp with ⟨h1, h2⟩ | ⟨c, h1, h2⟩
    · have hheld : V.held u = V.held s.loop := by
        unfold View.held
        rw [h2]
      refine ⟨⟨hI, ?_, ?_⟩, fun k _ => ?_⟩
      · rw [h1]
        exact hs.ring
      · rw [h1, hheld]
        exact hs.conserved
      · rw [h1]
    · have hc := hs.conserved
      rw [held_take h1] at hc
      obtain ⟨h3, h4⟩ := hc.takeBack hs.ring
      refine ⟨⟨hI, ?_, ?_⟩, fun k hk => ?_⟩
      · rw [h2]
        exact h3
      · rw [h2]
        exact h4
      · rw [h2]
        exact hc.kept hs.ring hk
  | some c =>
    rw [hp] at h
    -- a post leaves the ring alone; with a buffer the kernel's counter moves on
    cases hb : c.buffer with
    | none =>
      replace h : (V.step s.loop a).map (fun t => ⟨t, s.head⟩) = some t := by
        simpa only [Option.bind_some, hb] using h
      obtain ⟨u, hu, rfl⟩ := Option.map_eq_some_iff.mp h
      obtain ⟨h1, op, h2⟩ := hV.post _ _ _ c hs.inv hu hp
      refine ⟨⟨hV.inv _ _ _ hs.inv hu, ?_, ?_⟩, fun k _ => ?_⟩
      · rw [h1]
        exact hs.ring
      · rw [h1, held_post h2, hb, Option.toList_none, List.append_nil]
        exact hs.conserved
      · rw [h1]
    | some id =>
      simp only [Option.bind_some, hb] at h
      split at h
      · next hc =>
        obtain ⟨u, hu, rfl⟩ := Option.map_eq_some_iff.mp h
        obtain ⟨h1, op, h2⟩ := hV.post _ _ _ c hs.inv hu hp
        refine ⟨⟨hV.inv _ _ _ hs.inv hu, ?_, ?_⟩, fun k _ => ?_⟩
        · rw [h1]
          exact (RecvPool.select_ready hs.ring hc.1).1
        · rw [h1, held_post h2, hb, Option.toList_some, ← hc.2]
          exact hs.conserved.select hs.ring hc.1
        · rw [h1]
      · cases h

/-- **A loop that returns its buffers conserves them.** -/
theorem View.Returns.reach (hV : V.Returns I) {s₀ : σ} {s : Selecting σ}
    (h₀ : Sound V I ⟨s₀, 0⟩) (h : Trans.Reach V.select ⟨s₀, 0⟩ s) : Sound V I s :=
  h.inv h₀ fun _ _ _ hs ht => (hV.step hs ht).1

/-- the state after the setup -/
theorem sound_setup {bufCount : UInt32} (hok : Accepted bufCount) {base bufSize bgid : Nat} {s₀ : σ}
    (hI : I s₀) (hp : V.pool s₀ = setupMultishotRecv base bufCount bufSize bgid) (hcq : V.cq s₀ = []) :
    Sound V I ⟨s₀, 0⟩ := by
  obtain ⟨h1, h2, h3⟩ := setup_ready base bufSize bgid hok
  have hheld : V.held s₀ = [] := by
    unfold View.held
    rw [hcq]
    rfl
  refine ⟨hI, ?_, ?_⟩
  · show (V.pool s₀).Ring 0
    rw [hp]
    exact h1
  · show Conserved (V.pool s₀) 0 (V.held s₀)
    rw [hp, hheld]
    refine ⟨fun id => ?_, fun e he => ?_⟩
    · rw [h3, h2, List.map_map]
      show (List.map (fun i => i) (List.range _)).count id + 0 = _
      rw [List.map_id', List.nodup_range.count, Nat.add_zero]
      simp only [List.mem_range]
    · rw [h3] at he
      obtain ⟨i, -, rfl⟩ := List.mem_map.mp he
      rfl

end
end UringPerf
