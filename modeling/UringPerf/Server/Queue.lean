import UringPerf.Server.Preserve

/-!
# The submission queue of the server (TCP, without a polling kernel)

A batch starts with an empty queue.  Every completion queues at most one entry, except the accept,
which may queue a whole session and itself; and at most one accept is in a batch.

* `queued_length`        the entries one completion asks for;
* `Budget`               what is queued, plus what the rest of the batch may still queue, is at most
                         twice the number of buffers;
* `budget_step`          every action keeps it;
* `nulls_step`           with a queue of that size no entry is refused;
* `accept_conserved`     while no entry has been refused, exactly one accept is outstanding.
-/

namespace UringPerf
namespace Server
open Uring

section
variable {L : Setup}

/-! ## the entries of one completion -/

theorem sessionOps_length (hN : 1 ≤ L.config.inFlight) (e : UringEngine) (conn : Conn)
    (reverse : Bool) : (sessionOps L e conn reverse).length ≤ L.config.inFlight := by
  unfold sessionOps Setup.sessionCtxs
  split
  · rw [List.length_map, List.length_map, List.length_range]
  · split
    · exact hN
    · rw [List.length_map, List.length_map, List.length_range]

theorem connectOps_length (hN : 1 ≤ L.config.inFlight) (hs : Option (Bool × Nat)) (s : St) (fd : Int) :
    (connectOps L hs s fd).length ≤ L.config.inFlight := by
  unfold connectOps
  cases handshake L hs with
  | none => exact Nat.zero_le _
  | some h => exact sessionOps_length hN _ _ _

/-- the completion of an accept -/
def isAccept (c : Cqe Sqe) : Bool := c.op.opcode == .accept

theorem queued_length (hN : 1 ≤ L.config.inFlight) {now : Nat} {hs : Option (Bool × Nat)} {s : St}
    {c : Cqe Sqe} (h : Shape L c.op) :
    (queued L now hs s c).length ≤ 1 + if isAccept c then L.config.inFlight else 0 := by
  cases h with
  | accept h =>
    have ha : isAccept c = true := by unfold isAccept; rw [h]; rfl
    have hq : queued L now hs s c = _ := queued_accept h
    rw [hq, ha, if_pos rfl, List.length_append, List.length_singleton]
    split
    · have := connectOps_length hN hs s c.res
      omega
    · rw [List.length_nil]
      omega
  | session conn h =>
    rcases queued_again h with hq | ⟨o, hq, -, -⟩
    · rw [hq]
      exact Nat.zero_le _
    · rw [hq, List.length_singleton]
      omega

/-! ## the budget of a batch -/

/-- the accepts among the first `k` completions -/
def acceptsIn (s : St) (k : Nat) : Nat := (s.ring.cq.take k).countP isAccept

structure Budget (L : Setup) (s : St) : Prop where
  off : s.ring.sqpoll = false
  idle : (∀ k, s.pc ≠ .batch k) → s.ring.sq = []
  batch : ∀ k, s.pc = .batch k → k ≤ s.ring.cq.length ∧
    s.ring.sq.length + k + L.config.inFlight * acceptsIn s k ≤ 2 * L.config.inFlight

theorem accKey_once (o : Sqe) (h : accKey o = some ()) : o.kind = .once := by
  unfold accKey at h
  split at h
  · rename_i ho
    unfold Sqe.kind
    rw [ho]
    rfl
  · cases h

theorem accKey_iff (o : Sqe) : accKey o = some () ↔ o.opcode = .accept := by
  unfold accKey
  split <;> simp_all

/-- at most one accept is outstanding, so at most one is in the completion queue -/
theorem acceptsIn_le {s : St} (hi : Inv L s) (k : Nat) : acceptsIn s k ≤ 1 := by
  have h1 : acceptsIn s k ≤ s.ring.cq.countP isAccept := (List.take_sublist k _).countP_le
  have h2 : s.ring.cq.countP isAccept
      = (s.ring.cq.map (·.op)).countP fun o => accKey o = some () := by
    rw [List.countP_map]
    congr 1
    funext c
    unfold isAccept
    simp only [Function.comp_apply, accKey_iff]
    rfl
  have h3 := hi.acc.outstanding_count accKey_once
  have h4 := hi.acc.once ()
  unfold IoRing.outstanding at h3
  rw [List.countP_append] at h3
  omega

theorem Budget.bound {s : St} (hb : Budget L s) (k : Nat) (hk : s.pc = .batch k) :
    s.ring.sq.length ≤ 2 * L.config.inFlight := by
  have := (hb.batch k hk).2
  omega

theorem budget_head {s : St} (hoff : s.ring.sqpoll = false) (hsq : s.ring.sq = [])
    (hpc : ∀ k, s.pc ≠ .batch k) : Budget L s := ⟨hoff, fun _ => hsq, fun k hk => absurd hk (hpc k)⟩

theorem submit_empty {s : St} (hoff : s.ring.sqpoll = false) :
    s.ring.submit.sqpoll = false ∧ s.ring.submit.sq = [] := by
  rw [IoRing.submit_sqpoll]
  exact ⟨hoff, (IoRing.submit_off _ hoff).1⟩

/-- a batch begins with at most as many completions as there are buffers, and one accept -/
theorem budget_reap {s : St} (hi : Inv L s) (hb : Budget L s) (hpc : s.pc = .reap) :
    Budget L { s with pc := .batch (reaped L s) } := by
  have hsq := hb.idle (by rw [hpc]; exact fun k => Pc.noConfusion)
  refine ⟨hb.off, fun h => absurd rfl (h _), ?_⟩
  intro k hk
  cases hk
  have h1 : reaped L s ≤ L.config.inFlight := Nat.min_le_left _ _
  have h2 : reaped L s ≤ s.ring.cq.length := Nat.min_le_right _ _
  have h3 := Nat.mul_le_mul_left L.config.inFlight (acceptsIn_le hi (reaped L s))
  refine ⟨h2, ?_⟩
  show s.ring.sq.length + reaped L s + L.config.inFlight * acceptsIn s (reaped L s) ≤ _
  rw [hsq, List.length_nil]
  omega

/-- what one completion queues was in the budget -/
theorem budget_cqe (hN : 1 ≤ L.config.inFlight) {now : Nat} {hs : Option (Bool × Nat)} {s t : St}
    {c : Cqe Sqe} {cs : List (Cqe Sqe)} {n : Nat} (hi : Inv L s) (hb : Budget L s)
    (h : CqeStep L now hs s t n c cs) :
    Budget L t ∧ s.ring.sq.length + (queued L now hs s c).length ≤ 2 * L.config.inFlight := by
  have hcq := h.cq
  have hr := h.ring
  obtain ⟨h1, h2⟩ := hb.batch _ h.pc
  have h3 : (queued L now hs s c).length ≤ _ :=
    queued_length hN (hi.ops _ (head_outstanding hcq)).shape
  have hcq' : t.ring.cq = cs := by
    rw [hr, IoRing.pushAll_cq]
    show s.ring.cq.tail = cs
    rw [hcq]
    rfl
  have h4 : acceptsIn s (n+1) = acceptsIn t n + if isAccept c then 1 else 0 := by
    unfold acceptsIn
    rw [hcq, hcq', List.take_succ_cons, List.countP_cons]
  have h5 : L.config.inFlight * acceptsIn s (n+1)
      = L.config.inFlight * acceptsIn t n + if isAccept c then L.config.inFlight else 0 := by
    rw [h4, Nat.mul_add]
    split
    · rw [Nat.mul_one]
    · rw [Nat.mul_zero]
  have h6 : t.ring.sq.length ≤ s.ring.sq.length + (queued L now hs s c).length := by
    rw [hr]
    exact IoRing.pushAll_sq_length s.ring.seen _
  refine ⟨⟨?_, fun hn => absurd h.pc' (hn n), ?_⟩, by omega⟩
  · rw [hr, IoRing.pushAll_sqpoll]
    exact hb.off
  · intro k hk
    rw [h.pc'] at hk
    cases hk
    refine ⟨?_, by omega⟩
    rw [hcq] at h1
    rw [hcq']
    exact Nat.le_of_succ_le_succ h1

/-- a completion that is posted during a batch stands behind it -/
theorem budget_post {s t : St} {d : Cqe Sqe} (hb : Budget L s) (hpc : t.pc = s.pc)
    (hsq : t.ring.sq = s.ring.sq) (hoff : t.ring.sqpoll = s.ring.sqpoll)
    (hcq : t.ring.cq = s.ring.cq ++ [d]) : Budget L t := by
  refine ⟨hoff.trans hb.off, ?_, ?_⟩
  · intro h
    rw [hsq]
    exact hb.idle (fun k => by rw [← hpc]; exact h k)
  · intro k hk
    rw [hpc] at hk
    obtain ⟨h1, h2⟩ := hb.batch k hk
    have h3 : acceptsIn t k = acceptsIn s k := by
      unfold acceptsIn
      rw [hcq, List.take_append_of_le_length h1]
    rw [hsq, h3, hcq, List.length_append]
    exact ⟨by omega, h2⟩

/-- the completion of the accept stands behind the batch, like every other -/
theorem post_ring {s t : St} {i : Nat} {c : Completion} (h : step L s (.post i c) = some t) :
    t.pc = s.pc ∧ ∃ r, s.ring.post Sqe.kind i c = some r ∧ t.ring = r := by
  obtain ⟨-, p, r, -, hr, ⟨-, -, -, -, rfl⟩ | ⟨-, rfl⟩⟩ := step_post h
  · exact ⟨rfl, r, hr, rfl⟩
  · exact ⟨rfl, r, hr, rfl⟩

/-- **Every action keeps the budget.** -/
theorem budget_step (hN : 1 ≤ L.config.inFlight) {s t : St} {a : Act} (hi : Inv L s)
    (hb : Budget L s) (h : step L s a = some t) : Budget L t := by
  cases a with
  | sweep now =>
    obtain ⟨hpc, -, rfl⟩ := step_sweep h
    have hring : (sweep now s).ring = s.ring := by rw [sweep_eq]; rfl
    refine budget_head ?_ ?_ (fun k => Pc.noConfusion)
    · show (sweep now s).ring.sqpoll = false
      rw [hring]
      exact hb.off
    · show (sweep now s).ring.sq = []
      rw [hring]
      exact hb.idle (by rw [hpc]; exact fun k => Pc.noConfusion)
  | reap =>
    obtain ⟨hpc, ⟨-, rfl⟩ | ⟨-, rfl⟩⟩ := step_reap h
    · exact budget_head (submit_empty hb.off).1 (submit_empty hb.off).2 (fun k => Pc.noConfusion)
    · exact budget_reap hi hb hpc
  | cqe now hs =>
    obtain ⟨n, c, cs, hc⟩ := step_cqe h
    exact (budget_cqe hN hi hb hc).1
  | submit =>
    obtain ⟨-, rfl⟩ := step_submit h
    exact budget_head (submit_empty hb.off).1 (submit_empty hb.off).2 (fun k => Pc.noConfusion)
  | finish =>
    obtain ⟨hpc, -, rfl⟩ := step_finish h
    have hring : (cleanup s).ring = s.ring := by rw [cleanup_eq]; rfl
    refine budget_head ?_ ?_ (fun k => Pc.noConfusion)
    · show (cleanup s).ring.sqpoll = false
      rw [hring]
      exact hb.off
    · show (cleanup s).ring.sq = []
      rw [hring]
      exact hb.idle (by rw [hpc]; exact fun k => Pc.noConfusion)
  | signal =>
    obtain ⟨-, rfl⟩ := step_signal h
    exact ⟨hb.off, hb.idle, hb.batch⟩
  | post i c =>
    obtain ⟨hpc, r, hr, hring⟩ := post_ring h
    obtain ⟨p, rest, -, -, -, -, hcq, hsq, -, hoff, -⟩ := IoRing.post_some hr
    rw [← hring] at hcq hsq hoff
    exact budget_post hb hpc hsq hoff hcq
  | consume =>
    obtain ⟨-, r, hr, -⟩ := step_consume h
    obtain ⟨op, -, -, -, -, -, -, hon⟩ := IoRing.consume_some hr
    rw [hb.off] at hon
    cases hon

theorem budget_start (htcp : L.config.protocol = .tcp) (hoff : L.sqpoll = false) (cap : Nat) :
    Budget L (start L cap) := by
  have h1 : ((IoRing.init cap L.sqpoll).pushAll [acceptSqe L.listenFd L.acceptCtx]).sqpoll = false := by
    rw [IoRing.pushAll_sqpoll]
    exact hoff
  refine budget_head ?_ ?_ (fun k => Pc.noConfusion)
  · rw [start_ring htcp, IoRing.submit_sqpoll]
    exact h1
  · rw [start_ring htcp]
    exact (IoRing.submit_off _ h1).1

/-! ## no entry is refused -/

/-- what the actions that process no completion leave alone -/
structure Quiet (s t : St) : Prop where
  cap : t.ring.cap = s.ring.cap
  nulls : t.ring.nulls = s.ring.nulls
  armedIn : ∀ {κ : Type} [DecidableEq κ] (key : Sqe → Option κ) (k : κ),
    t.ring.armedIn Sqe.kind key k = s.ring.armedIn Sqe.kind key k
  outstanding : ∀ o, o ∈ t.ring.outstanding → o ∈ s.ring.outstanding
  sessions : ∀ f ss, t.sessions.lookup f = some ss → s.sessions.lookup f = some ss
  stop : t.stop = false → s.stop = false

theorem Quiet.of_ring {s t : St} (h : t.ring = s.ring)
    (hs : ∀ f ss, t.sessions.lookup f = some ss → s.sessions.lookup f = some ss)
    (hstop : t.stop = false → s.stop = false) : Quiet s t :=
  ⟨by rw [h], by rw [h], fun key k => by rw [h], fun o ho => by rwa [h] at ho, hs, hstop⟩

theorem Quiet.of_submit {s t : St} (h : t.ring = s.ring.submit)
    (hs : ∀ f ss, t.sessions.lookup f = some ss → s.sessions.lookup f = some ss)
    (hstop : t.stop = false → s.stop = false) : Quiet s t :=
  ⟨by rw [h, IoRing.submit_cap], by rw [h, IoRing.submit_nulls],
    fun key k => by rw [h, IoRing.armedIn_submit],
    fun o ho => by rwa [h, IoRing.mem_outstanding_submit] at ho, hs, hstop⟩

/-- every action processes a completion or is quiet -/
theorem step_quiet {s t : St} {a : Act} (h : step L s a = some t) :
    (∃ now hs n c cs, a = .cqe now hs ∧ CqeStep L now hs s t n c cs) ∨
      ((∀ now hs, a ≠ .cqe now hs) ∧ Quiet s t) := by
  cases a with
  | sweep now =>
    obtain ⟨-, -, rfl⟩ := step_sweep h
    have hring : (sweep now s).ring = s.ring := by rw [sweep_eq]; rfl
    have hstop : (sweep now s).stop = s.stop := by rw [sweep_eq]
    exact Or.inr ⟨nofun, .of_ring hring (fun f ss hl => ((lookup_sweep now s f ss).mp hl).1)
      hstop.symm.trans⟩
  | reap =>
    obtain ⟨-, ⟨-, rfl⟩ | ⟨-, rfl⟩⟩ := step_reap h
    · exact Or.inr ⟨nofun, .of_submit rfl (fun f ss hl => hl) id⟩
    · exact Or.inr ⟨nofun, .of_ring rfl (fun f ss hl => hl) id⟩
  | cqe now hs =>
    obtain ⟨n, c, cs, hc⟩ := step_cqe h
    exact Or.inl ⟨now, hs, n, c, cs, rfl, hc⟩
  | submit =>
    obtain ⟨-, rfl⟩ := step_submit h
    exact Or.inr ⟨nofun, .of_submit rfl (fun f ss hl => hl) id⟩
  | finish =>
    obtain ⟨-, -, rfl⟩ := step_finish h
    have hring : (cleanup s).ring = s.ring := by rw [cleanup_eq]; rfl
    have hsess : (cleanup s).sessions = s.sessions := by rw [cleanup_eq]
    have hstop : (cleanup s).stop = s.stop := by rw [cleanup_eq]
    refine Or.inr ⟨nofun, .of_ring hring (fun f ss hl => ?_) hstop.symm.trans⟩
    rw [← hsess]
    exact hl
  | signal =>
    obtain ⟨-, rfl⟩ := step_signal h
    exact Or.inr ⟨nofun, .of_ring rfl (fun f ss hl => hl) nofun⟩
  | post i c =>
    obtain ⟨-, r, hr, hring⟩ := post_ring h
    obtain ⟨p, rest, -, -, -, -, -, -, hcap, -, hnulls⟩ := IoRing.post_some hr
    have hrest : (∀ f ss, t.sessions.lookup f = some ss → s.sessions.lookup f = some ss) ∧
        (t.stop = false → s.stop = false) := by
      obtain ⟨-, p, r, -, -, ⟨-, -, -, -, rfl⟩ | ⟨-, rfl⟩⟩ := step_post h
      · exact ⟨fun f ss hl => hl, id⟩
      · exact ⟨fun f ss hl => hl, id⟩
    refine Or.inr ⟨nofun, by rw [hring, hcap], by rw [hring, hnulls],
      fun key k => by rw [hring, IoRing.armedIn_post hr], fun o ho => ?_, hrest.1, hrest.2⟩
    rw [hring] at ho
    exact (IoRing.mem_outstanding_post hr).mp ho
  | consume =>
    obtain ⟨-, r, hr, rfl⟩ := step_consume h
    obtain ⟨op, -, -, -, hcap, -, hnulls, -⟩ := IoRing.consume_some hr
    exact Or.inr ⟨nofun, hcap, hnulls, fun key k => IoRing.armedIn_consume hr k,
      fun o ho => (IoRing.mem_outstanding_consume hr).mp ho, fun f ss hl => hl, id⟩

theorem step_cap {s t : St} {a : Act} (h : step L s a = some t) : t.ring.cap = s.ring.cap := by
  rcases step_quiet h with ⟨now, hs, n, c, cs, -, hc⟩ | ⟨-, hq⟩
  · rw [hc.ring, IoRing.pushAll_cap]
    rfl
  · exact hq.cap

theorem nulls_step (hN : 1 ≤ L.config.inFlight) {s t : St} {a : Act} (hi : Inv L s)
    (hb : Budget L s) (hcap : 2 * L.config.inFlight ≤ s.ring.cap) (h : step L s a = some t) :
    t.ring.nulls = s.ring.nulls := by
  rcases step_quiet h with ⟨now, hs, n, c, cs, -, hc⟩ | ⟨-, hq⟩
  · have h1 := (budget_cqe hN hi hb hc).2
    rw [hc.ring]
    exact (IoRing.pushAll_fits s.ring.seen _ (le_trans h1 hcap)).2
  · exact hq.nulls

/-- the invariants of a server whose kernel does not poll -/
structure QueueInv (L : Setup) (cap : Nat) (s : St) : Prop where
  inv : Inv L s
  budget : Budget L s
  cap : s.ring.cap = cap

theorem queueInv_start (htcp : L.config.protocol = .tcp) (hoff : L.sqpoll = false) (cap : Nat) :
    QueueInv L cap (start L cap) := by
  refine ⟨inv_start htcp cap, budget_start htcp hoff cap, ?_⟩
  rw [start_ring htcp, IoRing.submit_cap, IoRing.pushAll_cap]
  rfl

theorem queueInv_step (hN : 1 ≤ L.config.inFlight) {cap : Nat} (s : St) (a : Act) (t : St)
    (h : QueueInv L cap s) (hst : step L s a = some t) : QueueInv L cap t :=
  ⟨inv_step s a t h.inv hst, budget_step hN h.inv h.budget hst,
    (step_cap hst).trans h.cap⟩

theorem start_nulls (htcp : L.config.protocol = .tcp) {cap : Nat} (hcap : 1 ≤ cap) :
    (start L cap).ring.nulls = 0 := by
  rw [start_ring htcp, IoRing.submit_nulls]
  refine (IoRing.pushAll_fits (IoRing.init cap L.sqpoll) [acceptSqe L.listenFd L.acceptCtx] ?_).2
  exact hcap

/-! ## the accept -/

/-- the accepts that are queued, in the kernel, or completed and not yet processed -/
def acceptsOut (s : St) : Nat := s.ring.outstanding.countP fun o => o.opcode == .accept

theorem acceptsOut_eq {s : St} (hi : Inv L s) :
    acceptsOut s = s.ring.armedIn Sqe.kind accKey () := by
  rw [← hi.acc.outstanding_count accKey_once]
  unfold acceptsOut
  congr 1
  funext o
  simp only [accKey_iff]
  rfl

/-- the completion of the accept queues it again, other completions do not touch it -/
theorem queued_accepts {now : Nat} {hs : Option (Bool × Nat)} {s : St} {c : Cqe Sqe}
    {cs : List (Cqe Sqe)} (hi : Inv L s) (hpc : s.pc ≠ .done) (hcq : s.ring.cq = c :: cs) :
    (queued L now hs s c).countP (fun o => accKey o = some ())
      = if accKey c.op = some () ∧ (Sqe.kind c.op).closes c.toCompletion = true then 1 else 0 := by
  cases (hi.ops _ (head_outstanding hcq)).shape with
  | accept h =>
    rw [h, if_pos ⟨rfl, rfl⟩]
    rcases accept_cases now hs hi hpc hcq h with ha | ⟨ss, ops, ha⟩
    · rw [ha.queued]
      rfl
    · have h0 : ops.countP (fun o => accKey o = some ()) = 0 := by
        apply List.countP_eq_zero.mpr
        intro o ho
        simp [accKey_ofConn (ha.first o ho).ofConn]
      rw [ha.queued, List.countP_append, h0]
      rfl
  | session conn h =>
    rw [accKey_ofConn h, if_neg (fun hc => by cases hc.1)]
    rcases queued_again h with hq | ⟨o, hq, ho, -⟩
    · rw [hq]
      rfl
    · rw [hq, List.countP_singleton, accKey_ofConn ho.ofConn]
      rfl

/-- how the armed entries of a group change when a completion is processed and no entry is refused -/
theorem CqeStep.armedIn {now : Nat} {hs : Option (Bool × Nat)} {s t : St} {n : Nat} {c : Cqe Sqe}
    {cs : List (Cqe Sqe)} (h : CqeStep L now hs s t n c cs) (hn : t.ring.nulls = 0) {κ : Type}
    [DecidableEq κ] (key : Sqe → Option κ) (k : κ) :
    s.ring.nulls = 0 ∧ t.ring.armedIn Sqe.kind key k +
        (if key c.op = some k ∧ (Sqe.kind c.op).closes c.toCompletion = true then 1 else 0) =
      (queued L now hs s c).countP (fun o => key o = some k) + s.ring.armedIn Sqe.kind key k := by
  rw [h.ring] at hn
  have h1 : s.ring.nulls = 0 := (IoRing.pushAll_nulls_zero _ _ hn).1
  have h2 : s.ring.armedIn Sqe.kind key k = _ := IoRing.armedIn_seen h.cq k
  refine ⟨h1, ?_⟩
  rw [h.ring, IoRing.armedIn_pushAll _ _ _ hn, h2]
  omega

/-- **While no entry has been refused, exactly one accept is outstanding.** -/
theorem accept_conserved {s t : St} {a : Act} (hi : Inv L s) (h : step L s a = some t)
    (hs : s.ring.nulls = 0 → s.ring.armedIn Sqe.kind accKey () = 1) :
    t.ring.nulls = 0 → t.ring.armedIn Sqe.kind accKey () = 1 := by
  intro hn
  rcases step_quiet h with ⟨now, hs', n, c, cs, -, hc⟩ | ⟨-, hq⟩
  · obtain ⟨h1, h2⟩ := hc.armedIn hn accKey ()
    have h3 : (queued L now hs' s c).countP (fun o => accKey o = some ()) = _ :=
      queued_accepts hi hc.not_done.1 hc.cq
    have h4 := hs h1
    omega
  · rw [hq.armedIn]
    exact hs (hq.nulls.symm.trans hn)

theorem accept_start (htcp : L.config.protocol = .tcp) {cap : Nat} (hcap : 1 ≤ cap) :
    (start L cap).ring.armedIn Sqe.kind accKey () = 1 := by
  have hf := IoRing.pushAll_fits (IoRing.init cap L.sqpoll) [acceptSqe L.listenFd L.acceptCtx] hcap
  rw [start_ring htcp, IoRing.armedIn_submit, IoRing.armedIn_pushAll _ _ _ hf.2]
  rfl

/-- **A queue of twice the buffers is enough**: no entry is ever refused and the accept is never lost. -/
theorem queue_enough (htcp : L.config.protocol = .tcp) (hoff : L.sqpoll = false)
    (hN : 1 ≤ L.config.inFlight) {cap : Nat} (hcap : 2 * L.config.inFlight ≤ cap) {s : St}
    (h : Trans.Reach (step L) (start L cap) s) :
    QueueInv L cap s ∧ s.ring.nulls = 0 ∧ acceptsOut s = 1 := by
  have hall := h.inv (I := fun s => QueueInv L cap s ∧ s.ring.nulls = 0 ∧
    (s.ring.nulls = 0 → s.ring.armedIn Sqe.kind accKey () = 1)) ?_ ?_
  · obtain ⟨h1, h2, h3⟩ := hall
    exact ⟨h1, h2, (acceptsOut_eq h1.inv).trans (h3 h2)⟩
  · have h1 : 1 ≤ cap := by omega
    exact ⟨queueInv_start htcp hoff cap, start_nulls htcp h1, fun _ => accept_start htcp h1⟩
  · rintro s a t ⟨h1, h2, h3⟩ hst
    refine ⟨queueInv_step hN s a t h1 hst, ?_, accept_conserved h1.inv hst h3⟩
    rw [nulls_step hN h1.inv h1.budget (by rw [h1.cap]; exact hcap) hst]
    exact h2

end
end Server
end UringPerf
