import UringPerf.Base.Trace
import UringPerf.Zcrx.Effect
import UringPerf.Zcrx.Refill

/-!
# The buffers of the zero-copy area

The kernel takes a buffer from its free pool for every data completion and gets it back through the refill
queue.  `zcrx_return_buffer` drops the buffer if that queue is full.

* `Loop`, `Pooled`, `pooled`   a receive loop together with the kernel's free pool;
* `Placed`                     each buffer is free, in an unprocessed completion or in the refill queue;
* `Accounted`                  or it has been dropped, and that only at a full queue;
* `Processes`                  what a loop does with a completion and with the refill queue;
* `Processes.accounted`        every run accounts for every buffer;
* `Processes.keeps`            a queue as large as the area keeps every buffer;
* `Streams.lost`               in a smaller one the first buffer that does not fit is lost.
-/

namespace UringPerf
namespace Zcrx
open Uring

/-- the buffer at an offset into the area, for a page size -/
def bufferOf (page : Nat) (off : UInt64) : Nat := (areaOffset off).toNat / page

/-- the entry the kernel reads next -/
def RefillQueue.oldest (q : RefillQueue) : Rqe := q.rqes (q.khead &&& (q.ringEntries - 1))

/-- what the pool depends on in one of the two loops -/
structure Loop (σ : Type*) where
  step : σ → Act → Option σ
  rq : σ → RefillQueue
  cq : σ → List (Cqe Op)

structure Pooled (σ : Type*) where
  loop : σ
  free : List Nat

namespace Loop
section
variable {σ : Type*} (V : Loop σ) (page : Nat)

/-- the loop with the kernel's pool: a data completion carries a free buffer, no other completion carries
one, and an entry of the refill queue frees its buffer -/
def pooled (s : Pooled σ) : Act → Option (Pooled σ)
  | .post i c =>
    if isData c then
      if c.buffer.isSome ∧ bufferOf page (offset c) ∈ s.free then
        (V.step s.loop (.post i c)).map fun t => ⟨t, s.free.erase (bufferOf page (offset c))⟩
      else none
    else if c.buffer = none then (V.step s.loop (.post i c)).map fun t => ⟨t, s.free⟩
    else none
  | .refill =>
    (V.step s.loop .refill).map fun t => ⟨t, bufferOf page (V.rq s.loop).oldest.off :: s.free⟩
  | a => (V.step s.loop a).map fun t => ⟨t, s.free⟩

/-- the buffers of completions -/
def carried (cs : List (Cqe Op)) : List Nat :=
  (cs.filter fun c => isData c.toCompletion).map fun c => bufferOf page (offset c.toCompletion)

/-- the buffers in unprocessed completions -/
def pending (s : Pooled σ) : List Nat := carried page (V.cq s.loop)

/-- the buffers in the refill queue -/
def waiting (s : Pooled σ) : List Nat := (V.rq s.loop).queued.map fun e => bufferOf page e.off

/-- the buffers that are free, in unprocessed completions and in the refill queue -/
def places (s : Pooled σ) : List Nat := s.free ++ V.pending page s ++ V.waiting page s

/-- each of the `n` buffers is in one of the three places, once -/
def Placed (n : Nat) (s : Pooled σ) : Prop :=
  (s.free ++ V.pending page s ++ V.waiting page s).Perm (List.range n)

/-- `zcrx_rq_nr_queued(st.rq) == st.rq.ring_entries` -/
def full (s : Pooled σ) : Bool := (V.rq s.loop).nrQueued = (V.rq s.loop).ringEntries

/-- the buffer of a data completion that is processed while the refill queue is full -/
def dropped (s : Pooled σ) : Act → List Nat
  | .cqe => if V.full s then carried page ((V.cq s.loop).take 1) else []
  | _ => []

/-- in every run each of the `n` buffers is in one of the three places or has been dropped, once; and the buffer of
a data completion that is processed goes into the refill queue exactly if that is not full -/
def Accounted (n : Nat) (s₀ : Pooled σ) : Prop :=
  ∀ as s, Trans.runFrom (V.pooled page) s₀ as = some s →
    (V.places page s ++ Trans.observed (V.pooled page) (V.dropped page) s₀ as).Perm (List.range n) ∧
    ∀ t, V.pooled page s .cqe = some t → ∀ c cs, V.cq s.loop = c :: cs → isData c.toCompletion = true →
      V.waiting page t = V.waiting page s ++ if V.full s then [] else [bufferOf page (offset c.toCompletion)]

/-- processing a data completion puts its buffer into the refill queue -/
def Returns (s t : Pooled σ) : Prop :=
  ∀ c cs, V.cq s.loop = c :: cs → isData c.toCompletion = true →
    V.waiting page t = V.waiting page s ++ [bufferOf page (offset c.toCompletion)]

/-- in every run no buffer is lost -/
def Keeps (n : Nat) (s₀ : Pooled σ) : Prop :=
  ∀ s, Trans.Reach (V.pooled page) s₀ s →
    V.Placed page n s ∧ ∀ t, V.pooled page s .cqe = some t → V.Returns page s t

/-- what a step of the loop does to the completions and to the refill queue, under an invariant `I` -/
structure Processes (I : σ → Prop) : Prop where
  inv : ∀ s a t, I s → V.step s a = some t → I t
  post : ∀ s i c t, I s → V.step s (.post i c) = some t →
    V.rq t = V.rq s ∧ ∃ op, V.cq t = V.cq s ++ [⟨c, op⟩]
  cqe : ∀ s t, I s → V.step s .cqe = some t →
    ∃ c cs, V.cq s = c :: cs ∧ V.cq t = cs ∧ V.rq t = refilled (V.rq s) c.toCompletion
  refill : ∀ s t, I s → V.step s .refill = some t →
    (V.rq s).khead ≠ (V.rq s).ktail ∧ V.rq t = (V.rq s).advance 1 ∧ V.cq t = V.cq s
  other : ∀ s a t, I s → V.step s a = some t → (∀ i c, a ≠ .post i c) → a ≠ .cqe → a ≠ .refill →
    V.rq t = V.rq s ∧ V.cq t = V.cq s

/-! ## offsets -/

theorem bufferOf_entry {token : UInt64} (ht : token.toNat % 2^48 = 0) (off : UInt64) (len : Int) :
    bufferOf page (RefillQueue.entry token off len).off = bufferOf page off := by
  unfold bufferOf
  rw [areaOffset_toNat, areaOffset_toNat]
  exact congrArg (· / page) (entry_describes ht off len).low

/-- the offset of the `j`-th buffer -/
theorem bufferOf_mul {j : Nat} (hp : 0 < page) (hj : j * page < 2^48) :
    bufferOf page (UInt64.ofNat (j * page)) = j := by
  unfold bufferOf
  have h64 : j * page < 2^64 := Nat.lt_trans hj (by decide)
  rw [areaOffset_toNat, UInt64.toNat_ofNat', Nat.mod_eq_of_lt h64, Nat.mod_eq_of_lt hj,
    Nat.mul_div_cancel j hp]

theorem carried_append (cs ds : List (Cqe Op)) :
    carried page (cs ++ ds) = carried page cs ++ carried page ds := by
  unfold carried
  rw [List.filter_append, List.map_append]

theorem carried_cons_of_data {c : Cqe Op} (h : isData c.toCompletion = true) (cs : List (Cqe Op)) :
    carried page (c :: cs) = bufferOf page (offset c.toCompletion) :: carried page cs := by
  unfold carried
  rw [List.filter_cons, if_pos h, List.map_cons]

theorem carried_cons_of_plain {c : Cqe Op} (h : isData c.toCompletion = false) (cs : List (Cqe Op)) :
    carried page (c :: cs) = carried page cs := by
  unfold carried
  rw [List.filter_cons, if_neg (by rw [h]; exact Bool.false_ne_true)]

/-! ## the refill queue in every run -/

variable {V page} {I : σ → Prop} {token : UInt64} {entries : UInt32}

/-- the invariant of the loop and the shape of its refill queue -/
structure Shaped (V : Loop σ) (I : σ → Prop) (token : UInt64) (entries : UInt32) (s : Pooled σ) : Prop where
  inv : I s.loop
  queue : (V.rq s.loop).Queue
  entries_eq : (V.rq s.loop).ringEntries = entries
  token_eq : (V.rq s.loop).areaToken = token

/-- a step of the pooled loop is a step of the loop -/
theorem pooled_step {s t : Pooled σ} {a : Act} (h : V.pooled page s a = some t) :
    V.step s.loop a = some t.loop := by
  cases a with
  | post i c =>
    simp only [pooled] at h
    split at h
    · split at h
      · obtain ⟨u, hu, rfl⟩ := Option.map_eq_some_iff.mp h
        exact hu
      · cases h
    · split at h
      · obtain ⟨u, hu, rfl⟩ := Option.map_eq_some_iff.mp h
        exact hu
      · cases h
  | _ =>
    obtain ⟨u, hu, rfl⟩ := Option.map_eq_some_iff.mp h
    exact hu

theorem returnBuffer_fixed (q : RefillQueue) (off : UInt64) (len : Int) :
    (q.returnBuffer off len).ringEntries = q.ringEntries ∧
      (q.returnBuffer off len).areaToken = q.areaToken := by
  unfold RefillQueue.returnBuffer
  split
  · exact ⟨rfl, rfl⟩
  · exact ⟨rfl, rfl⟩

theorem refilled_queue {q : RefillQueue} (h : q.Queue) (c : Completion) : (refilled q c).Queue := by
  unfold refilled
  split
  · by_cases hf : q.nrQueued = q.ringEntries
    · rwa [RefillQueue.return_full hf]
    · exact (RefillQueue.return_queued h _ _ hf).1
  · exact h

/-- the kernel reads an entry only if there is one -/
theorem one_le_ready {q : RefillQueue} (h : q.khead ≠ q.ktail) : 1 ≤ (q.ktail - q.khead).toNat := by
  refine Nat.one_le_iff_ne_zero.mpr fun e => h ?_
  rw [UInt32.toNat_sub] at e
  exact UInt32.toNat_inj.mp ((Circular.used_eq_zero q.khead.toNat_lt q.ktail.toNat_lt).mp e)

theorem Processes.shaped (hV : V.Processes I) (s : Pooled σ) (a : Act) (t : Pooled σ)
    (h : Shaped V I token entries s) (hst : V.pooled page s a = some t) : Shaped V I token entries t := by
  have hl := pooled_step hst
  have hi := hV.inv _ _ _ h.inv hl
  have same : V.rq t.loop = V.rq s.loop → Shaped V I token entries t := by
    intro e
    refine ⟨hi, ?_, ?_, ?_⟩
    · rw [e]; exact h.queue
    · rw [e]; exact h.entries_eq
    · rw [e]; exact h.token_eq
  cases a with
  | post i c => exact same (hV.post _ _ _ _ h.inv hl).1
  | cqe =>
    obtain ⟨c, cs, -, -, e⟩ := hV.cqe _ _ h.inv hl
    obtain ⟨h1, h2⟩ := returnBuffer_fixed (V.rq s.loop) (offset c.toCompletion) c.res
    refine ⟨hi, ?_, ?_, ?_⟩
    · rw [e]
      exact refilled_queue h.queue _
    · rw [e, ← h.entries_eq]
      unfold refilled
      split
      · exact h1
      · rfl
    · rw [e, ← h.token_eq]
      unfold refilled
      split
      · exact h2
      · rfl
  | refill =>
    obtain ⟨hne, e, -⟩ := hV.refill _ _ h.inv hl
    refine ⟨hi, ?_, ?_, ?_⟩
    · rw [e]
      exact (RefillQueue.advance_queued h.queue (one_le_ready hne)).1
    · rw [e]
      exact h.entries_eq
    · rw [e]
      exact h.token_eq
  | wait => exact same (hV.other _ .wait _ h.inv hl nofun nofun nofun).1
  | abort => exact same (hV.other _ .abort _ h.inv hl nofun nofun nofun).1
  | advance => exact same (hV.other _ .advance _ h.inv hl nofun nofun nofun).1
  | finish => exact same (hV.other _ .finish _ h.inv hl nofun nofun nofun).1
  | signal => exact same (hV.other _ .signal _ h.inv hl nofun nofun nofun).1

/-! ## a queue as large as the area -/

theorem Shaped.waiting_length {s : Pooled σ} (h : Shaped V I token entries s) :
    (V.waiting page s).length = (V.rq s.loop).nrQueued.toNat := by
  unfold waiting
  rw [List.length_map, RefillQueue.length_queued h.queue]

/-- a return into a queue that is not full -/
theorem Shaped.waiting_return {s t : Pooled σ} (h : Shaped V I token entries s) (ht : token.toNat % 2^48 = 0)
    {c : Completion} (hc : isData c = true) (hrq : V.rq t.loop = refilled (V.rq s.loop) c)
    (hf : (V.rq s.loop).nrQueued ≠ (V.rq s.loop).ringEntries) :
    V.waiting page t = V.waiting page s ++ [bufferOf page (offset c)] := by
  unfold waiting
  rw [hrq, refilled, if_pos hc, (RefillQueue.return_queued h.queue _ _ hf).2, List.map_append,
    List.map_singleton, h.token_eq, bufferOf_entry page ht]

/-- what processing a data completion does to the queue -/
theorem Shaped.waiting_cqe {s t : Pooled σ} (h : Shaped V I token entries s) (ht : token.toNat % 2^48 = 0)
    {c : Completion} (hc : isData c = true) (hrq : V.rq t.loop = refilled (V.rq s.loop) c) :
    V.waiting page t = V.waiting page s ++ if V.full s then [] else [bufferOf page (offset c)] := by
  unfold full
  by_cases hf : (V.rq s.loop).nrQueued = (V.rq s.loop).ringEntries
  · rw [decide_eq_true hf, if_pos rfl, List.append_nil]
    unfold waiting
    rw [hrq, refilled, if_pos hc, RefillQueue.return_full hf]
  · rw [decide_eq_false hf, if_neg Bool.false_ne_true]
    exact h.waiting_return ht hc hrq hf

/-- the kernel reads the oldest entry -/
theorem Shaped.waiting_refill {s t : Pooled σ} (h : Shaped V I token entries s)
    (hne : (V.rq s.loop).khead ≠ (V.rq s.loop).ktail) (hrq : V.rq t.loop = (V.rq s.loop).advance 1) :
    V.waiting page s = bufferOf page (V.rq s.loop).oldest.off :: V.waiting page t := by
  obtain ⟨-, h2, h3⟩ := RefillQueue.advance_queued h.queue (one_le_ready hne)
  have e : (V.rq s.loop).queued = (V.rq s.loop).oldest :: ((V.rq s.loop).advance 1).queued := by
    rw [← List.take_append_drop 1 (V.rq s.loop).queued, h3, ← h2]
    have e0 : (V.rq s.loop).khead + UInt32.ofNat 0 = (V.rq s.loop).khead := UInt32.add_zero _
    show (V.rq s.loop).rqes (((V.rq s.loop).khead + UInt32.ofNat 0) &&& _) :: _ = _
    rw [e0]
    rfl
  unfold waiting
  rw [e, hrq, List.map_cons]

/-- **A step accounts for every buffer**: none appears, and only a full queue makes one disappear. -/
theorem Processes.places_step (hV : V.Processes I) (ht : token.toNat % 2^48 = 0) {s t : Pooled σ} {a : Act}
    (h : Shaped V I token entries s) (hst : V.pooled page s a = some t) :
    (V.places page s).Perm (V.places page t ++ V.dropped page s a) := by
  have hl := pooled_step hst
  unfold places
  cases a with
  | post i c =>
    obtain ⟨hrq, op, hcq⟩ := hV.post _ _ _ _ h.inv hl
    have hw : V.waiting page t = V.waiting page s := by unfold waiting; rw [hrq]
    simp only [dropped, List.append_nil]
    simp only [pooled] at hst
    split at hst
    · next hd =>
      split at hst
      · next hb =>
        obtain ⟨u, hu, rfl⟩ := Option.map_eq_some_iff.mp hst
        have hpe : V.pending page ⟨u, s.free.erase (bufferOf page (offset c))⟩ =
            V.pending page s ++ [bufferOf page (offset c)] := by
          unfold pending
          rw [hcq, carried_append, carried_cons_of_data page hd]
          rfl
        rw [hw, hpe]
        refine List.Perm.append_right _ (List.Perm.symm ?_)
        rw [← List.append_assoc]
        refine List.perm_append_comm.trans ?_
        exact (List.perm_cons_erase hb.2).symm.append_right _
      · cases hst
    · next hd =>
      split at hst
      · obtain ⟨u, hu, rfl⟩ := Option.map_eq_some_iff.mp hst
        have hpe : V.pending page ⟨u, s.free⟩ = V.pending page s := by
          unfold pending
          rw [hcq, carried_append, carried_cons_of_plain page (Bool.not_eq_true _ ▸ hd)]
          exact List.append_nil _
        rw [hw, hpe]
      · cases hst
  | cqe =>
    obtain ⟨c, cs, hcq, hcq', hrq⟩ := hV.cqe _ _ h.inv hl
    obtain ⟨u, hu, rfl⟩ := Option.map_eq_some_iff.mp hst
    have hpt : V.pending page ⟨u, s.free⟩ = carried page cs := congrArg (carried page) hcq'
    have hps : V.pending page s = carried page (c :: cs) := congrArg (carried page) hcq
    have hdrop : V.dropped page s .cqe = if V.full s then carried page [c] else [] := by
      unfold dropped
      rw [hcq]
      rfl
    cases hd : isData c.toCompletion with
    | true =>
      rw [carried_cons_of_data page hd] at hps
      have hone : carried page [c] = [bufferOf page (offset c.toCompletion)] := carried_cons_of_data page hd []
      rw [h.waiting_cqe ht hd hrq, hpt, hps, hdrop, hone]
      -- the buffer has moved from the completions to the queue, or to what is dropped
      have hmove : (if V.full s then [] else [bufferOf page (offset c.toCompletion)]) ++
          (if V.full s then [bufferOf page (offset c.toCompletion)] else []) =
          [bufferOf page (offset c.toCompletion)] := by
        cases V.full s with
        | true => rfl
        | false => rfl
      rw [List.append_assoc, List.append_assoc, List.append_assoc, List.append_assoc, hmove]
      refine List.Perm.append_left _ ?_
      rw [List.cons_append, ← List.append_assoc]
      exact (List.perm_append_singleton _ _).symm
    | false =>
      rw [carried_cons_of_plain page hd] at hps
      have hone : carried page [c] = [] := carried_cons_of_plain page hd []
      have hw : V.waiting page ⟨u, s.free⟩ = V.waiting page s := by
        unfold waiting
        rw [hrq, refilled, if_neg (by rw [hd]; exact Bool.false_ne_true)]
      rw [hw, hpt, hps, hdrop, hone, ite_self, List.append_nil]
  | refill =>
    obtain ⟨hne, hrq, hcq⟩ := hV.refill _ _ h.inv hl
    obtain ⟨u, hu, rfl⟩ := Option.map_eq_some_iff.mp hst
    have hpe : V.pending page ⟨u, bufferOf page (V.rq s.loop).oldest.off :: s.free⟩ = V.pending page s :=
      congrArg (carried page) hcq
    simp only [dropped, List.append_nil]
    rw [hpe, h.waiting_refill hne hrq]
    exact List.perm_middle
  | _ =>
    obtain ⟨u, hu, rfl⟩ := Option.map_eq_some_iff.mp hst
    obtain ⟨hrq, hcq⟩ := hV.other _ _ _ h.inv hl nofun nofun nofun
    have hw : V.waiting page ⟨u, s.free⟩ = V.waiting page s := by unfold waiting; rw [hrq]
    have hpe : V.pending page ⟨u, s.free⟩ = V.pending page s := congrArg (carried page) hcq
    simp only [dropped, List.append_nil]
    rw [hw, hpe]

/-- a buffer in an unprocessed completion leaves an entry of the queue free -/
theorem Shaped.room {n : Nat} {s : Pooled σ} (h : Shaped V I token entries s) (hp : V.Placed page n s)
    (hn : n ≤ entries.toNat) (hc : V.pending page s ≠ []) :
    (V.rq s.loop).nrQueued ≠ (V.rq s.loop).ringEntries := by
  intro e
  have hlen := hp.length_eq
  rw [List.length_append, List.length_append, h.waiting_length, e, h.entries_eq, List.length_range] at hlen
  have hpos : 0 < (V.pending page s).length := List.length_pos_iff.mpr hc
  omega

/-- with an entry for each buffer nothing is dropped -/
theorem Shaped.dropped_nil {n : Nat} {s : Pooled σ} (h : Shaped V I token entries s) (hp : V.Placed page n s)
    (hn : n ≤ entries.toNat) (a : Act) : V.dropped page s a = [] := by
  cases a with
  | cqe =>
    unfold dropped full
    cases hcq : V.cq s.loop with
    | nil => exact ite_self _
    | cons c cs =>
      cases hd : isData c.toCompletion with
      | false =>
        have hone : carried page [c] = [] := carried_cons_of_plain page hd []
        show (if _ then carried page [c] else []) = []
        rw [hone, ite_self]
      | true =>
        refine if_neg ?_
        rw [decide_eq_true_eq]
        refine h.room hp hn ?_
        unfold pending
        rw [hcq, carried_cons_of_data page hd]
        exact List.cons_ne_nil _ _
  | _ => rfl

/-- **A step keeps every buffer**, if there is an entry for each. -/
theorem Processes.placed_step (hV : V.Processes I) {n : Nat} (hn : n ≤ entries.toNat)
    (ht : token.toNat % 2^48 = 0) {s t : Pooled σ} {a : Act} (h : Shaped V I token entries s)
    (hp : V.Placed page n s) (hst : V.pooled page s a = some t) : V.Placed page n t := by
  have hperm := hV.places_step ht h hst
  rw [h.dropped_nil hp hn a, List.append_nil] at hperm
  exact hperm.symm.trans hp

/-- a start state: nothing is delivered or queued, all buffers are free -/
structure Fresh (V : Loop σ) (I : σ → Prop) (token : UInt64) (entries : UInt32) (l₀ : σ) : Prop where
  inv : I l₀
  cq : V.cq l₀ = []
  rq : ∃ v rqes, V.rq l₀ = freshQueue entries v token rqes

theorem Fresh.shaped {l₀ : σ} (h : Fresh V I token entries l₀) (hk : ∃ k ≤ 31, entries.toNat = 2^k)
    (page : Nat) (free : List Nat) : Shaped V I token entries ⟨l₀, free⟩ ∧ V.waiting page ⟨l₀, free⟩ = [] ∧
      V.pending page ⟨l₀, free⟩ = [] := by
  obtain ⟨v, rqes, e⟩ := h.rq
  obtain ⟨h1, h2⟩ := fresh_queue hk v token rqes
  refine ⟨⟨h.inv, by rw [e]; exact h1, by rw [e]; rfl, by rw [e]; rfl⟩, ?_, ?_⟩
  · unfold waiting
    rw [e, h2]
    rfl
  · unfold pending
    rw [h.cq]
    rfl

/-- **Every buffer is accounted for**, whatever the size of the queue. -/
theorem Processes.accounted (hV : V.Processes I) {n : Nat} (hk : ∃ k ≤ 31, entries.toNat = 2^k)
    (ht : token.toNat % 2^48 = 0) {l₀ : σ} (h0 : Fresh V I token entries l₀) :
    V.Accounted page n ⟨l₀, List.range n⟩ := by
  intro as s hrun
  obtain ⟨h1, h2, h3⟩ := h0.shaped hk page (List.range n)
  have hstart : V.places page ⟨l₀, List.range n⟩ = List.range n := by
    unfold places
    rw [h2, h3, List.append_nil, List.append_nil]
  obtain ⟨hperm, hs⟩ := Trans.observed_spent (I := Shaped V I token entries)
    (fun s a t h hst => hV.shaped s a t h hst) (fun s a t h hst => hV.places_step ht h hst) as _ s h1 hrun
  rw [hstart] at hperm
  refine ⟨hperm.symm, fun t hst c cs hcq hd => ?_⟩
  obtain ⟨c', cs', hcq', -, hrq⟩ := hV.cqe _ _ hs.inv (pooled_step hst)
  obtain ⟨rfl, rfl⟩ := List.cons.inj (hcq.symm.trans hcq')
  exact hs.waiting_cqe ht hd hrq

/-- **A queue with an entry for every buffer loses none.** -/
theorem Processes.keeps (hV : V.Processes I) {n : Nat} (hn : n ≤ entries.toNat)
    (hk : ∃ k ≤ 31, entries.toNat = 2^k) (ht : token.toNat % 2^48 = 0) {l₀ : σ}
    (h0 : Fresh V I token entries l₀) : V.Keeps page n ⟨l₀, List.range n⟩ := by
  intro s hs
  obtain ⟨h1, h2, h3⟩ := h0.shaped hk page (List.range n)
  have hinv : Shaped V I token entries s ∧ V.Placed page n s := by
    refine hs.inv (I := fun s => Shaped V I token entries s ∧ V.Placed page n s) ⟨h1, ?_⟩
      fun s a t h hst => ⟨hV.shaped s a t h.1 hst, hV.placed_step hn ht h.1 h.2 hst⟩
    unfold Placed
    rw [h2, h3, List.append_nil, List.append_nil]
  refine ⟨hinv.2, fun t hst c cs hcq hd => ?_⟩
  obtain ⟨c', cs', hcq', -, hrq⟩ := hV.cqe _ _ hinv.1.inv (pooled_step hst)
  obtain ⟨rfl, rfl⟩ := List.cons.inj (hcq.symm.trans hcq')
  refine hinv.1.waiting_return ht hd hrq (hinv.1.room hinv.2 hn ?_)
  unfold pending
  rw [hcq, carried_cons_of_data page hd]
  exact List.cons_ne_nil _ _

/-! ## a smaller queue -/

/-- buffer `b` is in none of the three places -/
structure Lost (V : Loop σ) (page n : Nat) (s : Pooled σ) (b : Nat) : Prop where
  lt : b < n
  free : b ∉ s.free
  pending : b ∉ V.pending page s
  waiting : b ∉ V.waiting page s

theorem Lost.not_placed {n b : Nat} {s : Pooled σ} (h : Lost V page n s b) : ¬ V.Placed page n s := by
  intro hp
  have hm := hp.mem_iff.mpr (List.mem_range.mpr h.lt)
  rw [List.mem_append, List.mem_append] at hm
  rcases hm with (hm | hm) | hm
  · exact h.free hm
  · exact h.pending hm
  · exact h.waiting hm

/-- in the states `G` nothing is unprocessed, and one more data completion can be delivered and processed -/
structure Streams (V : Loop σ) (G : σ → Prop) : Prop where
  cq : ∀ s, G s → V.cq s = []
  chunk : ∀ s c, G s → isData c = true → c.notif = false →
    ∃ u t, V.step s (.post 0 c) = some u ∧ V.step u .cqe = some t ∧ G t

/-- a data completion with the `j`-th buffer -/
def chunkAt (page j : Nat) : Completion := ⟨1, true, false, some (j * page)⟩

/-- after `j` data completions, none of whose buffers the kernel has taken back -/
structure Flooded (V : Loop σ) (page n j : Nat) (entries : UInt32) (s : Pooled σ) : Prop where
  free : s.free = List.range' j (n - j)
  waiting : V.waiting page s = List.range (min j entries.toNat)

theorem Flooded.step (hV : V.Processes I) {G : σ → Prop} (hG : V.Streams G) (hp : 0 < page)
    (ht : token.toNat % 2^48 = 0) {n j : Nat} (hn : n * page ≤ 2^48) (hj : j < n) {s : Pooled σ}
    (hs : Shaped V I token entries s) (hg : G s.loop) (h : Flooded V page n j entries s) :
    ∃ t, Trans.Reach (V.pooled page) s t ∧ Shaped V I token entries t ∧ G t.loop ∧
      Flooded V page n (j+1) entries t := by
  have hb : bufferOf page (offset (chunkAt page j)) = j :=
    bufferOf_mul page hp (Nat.lt_of_lt_of_le (Nat.mul_lt_mul_of_pos_right hj hp) hn)
  have hd : isData (chunkAt page j) = true := rfl
  obtain ⟨u, t, hu, hst, hgt⟩ := hG.chunk s.loop (chunkAt page j) hg hd rfl
  have hfree : s.free = j :: List.range' (j+1) (n - (j+1)) := by
    rw [h.free, ← List.range'_succ]
    congr 1
    omega
  have hpu : V.pooled page s (.post 0 (chunkAt page j)) = some ⟨u, List.range' (j+1) (n - (j+1))⟩ := by
    simp only [pooled]
    rw [if_pos hd, hb, if_pos ⟨rfl, by rw [hfree]; exact List.mem_cons_self⟩, hu, hfree,
      List.erase_cons_head]
    rfl
  have hpt : V.pooled page ⟨u, List.range' (j+1) (n - (j+1))⟩ .cqe =
      some ⟨t, List.range' (j+1) (n - (j+1))⟩ := by
    simp only [pooled]
    rw [hst]
    rfl
  have hsu := hV.shaped _ _ _ hs hpu
  refine ⟨_, (Trans.Reach.refl.tail hpu).tail hpt, hV.shaped _ _ _ hsu hpt, hgt, rfl, ?_⟩
  obtain ⟨hrq, op, hcq⟩ := hV.post _ _ _ _ hs.inv hu
  rw [hG.cq _ hg] at hcq
  obtain ⟨c, cs, hcq', -, hrq'⟩ := hV.cqe _ _ hsu.inv hst
  obtain ⟨rfl, rfl⟩ := List.cons.inj (hcq.symm.trans hcq')
  replace hrq' : V.rq t = refilled (V.rq u) (chunkAt page j) := hrq'
  have hwu : V.waiting page ⟨u, List.range' (j+1) (n - (j+1))⟩ = List.range (min j entries.toNat) := by
    rw [← h.waiting]
    unfold Loop.waiting
    rw [hrq]
  have hlen : (V.rq u).nrQueued.toNat = min j entries.toNat := by
    have e : (V.waiting page _).length = (V.rq u).nrQueued.toNat := hsu.waiting_length
    rw [hwu, List.length_range] at e
    exact e.symm
  by_cases hf : (V.rq u).nrQueued = (V.rq u).ringEntries
  · -- the queue is full: the buffer is dropped
    have hw : V.waiting page ⟨t, List.range' (j+1) (n - (j+1))⟩ = List.range (min j entries.toNat) := by
      rw [← hwu]
      unfold Loop.waiting
      rw [hrq', refilled, if_pos hd, RefillQueue.return_full hf]
    have e : (V.rq u).ringEntries = entries := hsu.entries_eq
    rw [hf, e] at hlen
    rw [hw]
    congr 1
    omega
  · have e : (V.rq u).ringEntries = entries := hsu.entries_eq
    have hlt : j < entries.toNat := by
      by_contra hge
      refine hf (UInt32.toNat_inj.mp ?_)
      rw [hlen, e]
      omega
    rw [hsu.waiting_return (t := ⟨t, List.range' (j+1) (n - (j+1))⟩) ht hd hrq' hf, hwu, hb,
      Nat.min_eq_left (Nat.le_of_lt hlt), Nat.min_eq_left hlt, List.range_succ]

theorem Flooded.run (hV : V.Processes I) {G : σ → Prop} (hG : V.Streams G) (hp : 0 < page)
    (ht : token.toNat % 2^48 = 0) {n : Nat} (hn : n * page ≤ 2^48) {s : Pooled σ}
    (hs : Shaped V I token entries s) (hg : G s.loop) (h : Flooded V page n 0 entries s) (j : Nat)
    (hj : j ≤ n) : ∃ t, Trans.Reach (V.pooled page) s t ∧ Shaped V I token entries t ∧ G t.loop ∧
      Flooded V page n j entries t := by
  induction j with
  | zero => exact ⟨s, Trans.Reach.refl, hs, hg, h⟩
  | succ j ih =>
    obtain ⟨t, h1, h2, h3, h4⟩ := ih (Nat.le_of_succ_le hj)
    obtain ⟨t', h1', h2', h3', h4'⟩ := h4.step hV hG hp ht hn hj h2 h3
    exact ⟨t', h1.trans h1', h2', h3', h4'⟩

/-- **In a queue with fewer entries than buffers one is lost.**  The kernel takes nothing back until the loop has
processed one data completion more than there are entries: the last of these buffers is lost. -/
theorem Streams.lost (hV : V.Processes I) {G : σ → Prop} (hG : V.Streams G) (hp : 0 < page)
    (hk : ∃ k ≤ 31, entries.toNat = 2^k) (ht : token.toNat % 2^48 = 0) {n : Nat} (hn : n * page ≤ 2^48)
    (hlt : entries.toNat < n) {l₀ l₁ : σ} (h0 : Fresh V I token entries l₀)
    (hr : Trans.Reach (V.pooled page) ⟨l₀, List.range n⟩ ⟨l₁, List.range n⟩) (hg : G l₁)
    (hrq : V.rq l₁ = V.rq l₀) :
    ∃ s, Trans.Reach (V.pooled page) ⟨l₀, List.range n⟩ s ∧ Lost V page n s entries.toNat := by
  obtain ⟨h1, h2, -⟩ := h0.shaped hk page (List.range n)
  have hs := hr.inv h1 fun s a t => hV.shaped s a t
  have hw : V.waiting page ⟨l₁, List.range n⟩ = [] := by
    rw [← h2]
    unfold waiting
    rw [hrq]
  have hf : Flooded V page n 0 entries ⟨l₁, List.range n⟩ := by
    refine ⟨List.range_eq_range', ?_⟩
    rw [hw, Nat.zero_min]
    rfl
  obtain ⟨t, ht1, ht2, ht3, ht4⟩ := hf.run hV hG hp ht hn hs hg (entries.toNat + 1) hlt
  refine ⟨t, hr.trans ht1, hlt, ?_, ?_, ?_⟩
  · rw [ht4.free, List.mem_range'_1]
    omega
  · unfold Loop.pending
    rw [hG.cq _ ht3]
    exact List.not_mem_nil
  · rw [ht4.waiting, List.mem_range]
    omega

end
end Loop

/-- the action neither delivers nor frees a buffer -/
def Act.plain : Act → Bool
  | .post _ c => !isData c && c.buffer.isNone
  | .refill => false
  | _ => true

theorem Loop.pooled_plain {σ : Type*} {V : Loop σ} {l l' : σ} {a : Act} (page : Nat) (free : List Nat)
    (ha : a.plain = true) (h : V.step l a = some l') : V.pooled page ⟨l, free⟩ a = some ⟨l', free⟩ := by
  cases a with
  | post i c =>
    simp only [Act.plain, Bool.and_eq_true, Bool.not_eq_true', Option.isNone_iff_eq_none] at ha
    simp only [Loop.pooled, ha.1, ha.2, h, Bool.false_eq_true, if_false, if_true, Option.map_some]
  | refill => cases ha
  | _ =>
    simp only [Loop.pooled]
    rw [h]
    rfl

theorem Loop.reach_plain {σ : Type*} {V : Loop σ} {l l' : σ} {page : Nat} {free : List Nat} (as : List Act)
    (ha : ∀ a ∈ as, a.plain = true) (h : Trans.runFrom V.step l as = some l') :
    Trans.Reach (V.pooled page) ⟨l, free⟩ ⟨l', free⟩ := by
  induction as generalizing l with
  | nil =>
    cases h
    exact Trans.Reach.refl
  | cons a as ih =>
    rw [Trans.runFrom_cons] at h
    obtain ⟨u, hu, hr⟩ := Option.bind_eq_some_iff.mp h
    have h1 := Loop.pooled_plain page free (ha a List.mem_cons_self) hu
    exact (Trans.Reach.refl.tail h1).trans (ih (fun b hb => ha b (List.mem_cons_of_mem a hb)) hr)

end Zcrx
end UringPerf
