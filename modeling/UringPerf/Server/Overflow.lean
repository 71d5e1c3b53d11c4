import UringPerf.Server.Queue

/-!
# Runs that fill the submission queue (TCP)

One reverse connection queues a send for each buffer and the accept; while its sends are repeated, a
second one in the same batch does the same once more.  This fills a queue of twice the number of
buffers exactly, and a smaller one overflows.  A polling kernel that takes no entry for a while lets
any queue overflow: enough connections are open, and their sends are repeated one after the other.

* `Snap`           the part of a state that these runs depend on;
* `first_accept`   the first reverse connection is about to be processed;
* `sessions_open`  any number of reverse connections have their sends in the kernel;
* `second_accept`  all but one of the sends of the first one have been repeated and the second one is
                   about to be processed;
* `sq_bound_iff`   the exact bound of the queue;
* `polling_deaf`   with a polling kernel a queue of any size loses the accept;
* `never_deaf_iff` with the default number of buffers the accept survives every run exactly if the
                   kernel does not poll and the queue depth is above 32.
-/

namespace UringPerf
namespace Server
open Uring

section
variable {L : Setup}

/-! ## single actions -/

structure Snap (L : Setup) (cap : Nat) (s : St) (pc : Pc) (sq : List Sqe) (kern : List (Pending Sqe))
    (cq : List (Cqe Sqe)) : Prop where
  pc : s.pc = pc
  sq : s.ring.sq = sq
  kern : s.ring.kern = kern
  cq : s.ring.cq = cq
  cap : s.ring.cap = cap
  poll : s.ring.sqpoll = L.sqpoll
  stop : s.stop = false
  reg : s.engine.reg = L.reg
  deadline : ∀ f ss, s.sessions.lookup f = some ss → 0 < ss.deadline

variable {cap : Nat} {s : St} {sq : List Sqe} {kern : List (Pending Sqe)} {cq : List (Cqe Sqe)}

/-- nothing is expired when the clock still reads zero -/
theorem sweep_zero (h : ∀ f ss, s.sessions.lookup f = some ss → 0 < ss.deadline) : sweep 0 s = s := by
  have h0 : sweptOut 0 s = [] := by
    apply List.filter_eq_nil_iff.mpr
    rintro ⟨f, ss⟩ he hx
    have := h f ss (mem_entries.mp he)
    unfold expired at hx
    rw [Bool.and_eq_true, decide_eq_true_eq] at hx
    have hle : ss.deadline ≤ 0 := hx.2
    omega
  rw [sweep_eq, h0]
  simp [AList.eraseAll, closeAll]

/-- the loop head: sweep, then a batch of all completions -/
theorem snap_batch (hs : Snap L cap s .head sq kern cq) (h0 : cq ≠ [])
    (hN : cq.length ≤ L.config.inFlight) :
    ∃ t, Trans.Reach (step L) s t ∧ Snap L cap t (.batch cq.length) sq kern cq ∧
      t.sessions = s.sessions ∧ t.isOpen = s.isOpen ∧ t.ring.nulls = s.ring.nulls := by
  have h1 : step L s (.sweep 0) = some { s with pc := .reap } := by
    simp only [step]
    rw [if_pos ⟨hs.pc, hs.stop⟩, sweep_zero hs.deadline]
  have h2 : reaped L { s with pc := .reap } = cq.length := by
    show min L.config.inFlight s.ring.cq.length = _
    rw [hs.cq]
    exact Nat.min_eq_right hN
  have h3 : step L { s with pc := .reap } .reap = some { s with pc := .batch cq.length } := by
    have hne : ¬ cq.length = 0 := by
      intro e
      exact h0 (List.length_eq_zero_iff.mp e)
    simp only [step, if_true, h2]
    rw [if_neg hne]
  refine ⟨_, (Trans.Reach.refl.tail h1).tail h3, ?_, rfl, rfl, rfl⟩
  exact ⟨rfl, hs.sq, hs.kern, hs.cq, hs.cap, hs.poll, hs.stop, hs.reg, hs.deadline⟩

/-- the batch is submitted; a polling kernel need not have taken anything yet -/
theorem snap_publish (hs : Snap L cap s (.batch 0) sq kern cq) (hon : L.sqpoll = true) :
    ∃ t, Trans.Reach (step L) s t ∧ Snap L cap t .head sq kern cq ∧ t.ring.pub = sq.length ∧
      t.sessions = s.sessions ∧ t.isOpen = s.isOpen ∧ t.ring.nulls = s.ring.nulls := by
  have h1 : step L s .submit = some { s with engine := s.engine.submit, pc := .head } := by
    simp only [step]
    rw [if_pos hs.pc]
  have hpoll : s.ring.sqpoll = true := hs.poll.trans hon
  obtain ⟨h2, h3⟩ := IoRing.submit_on s.ring hpoll
  refine ⟨_, Trans.Reach.refl.tail h1, ?_, ?_, rfl, rfl, IoRing.submit_nulls s.ring⟩
  · exact ⟨rfl, h2.trans hs.sq, h3.trans hs.kern, (IoRing.submit_cq s.ring).trans hs.cq,
      (IoRing.submit_cap s.ring).trans hs.cap, (IoRing.submit_sqpoll s.ring).trans hs.poll, hs.stop, hs.reg,
      hs.deadline⟩
  · show s.ring.submit.pub = _
    rw [IoRing.submit_pub s.ring hpoll, hs.sq]

/-- a polling kernel takes all that is published -/
theorem snap_drain {pc : Pc} (hpc : pc ≠ .done) (sq : List Sqe) : ∀ {s : St} {kern : List (Pending Sqe)},
    Snap L cap s pc sq kern cq → s.ring.pub = sq.length →
    ∃ t, Trans.Reach (step L) s t ∧ Snap L cap t pc [] (kern ++ sq.map (⟨·, false⟩)) cq ∧
      t.sessions = s.sessions ∧ t.isOpen = s.isOpen ∧ t.ring.nulls = s.ring.nulls := by
  induction sq with
  | nil =>
    intro s kern hs _
    refine ⟨s, Trans.Reach.refl, ?_, rfl, rfl, rfl⟩
    rwa [List.map_nil, List.append_nil]
  | cons o sq ih =>
    intro s kern hs hpub
    obtain ⟨r, hr, h1, h2, h3, h4, h5, h6, h7⟩ := IoRing.consume_ok hs.sq hpub
    have hd : ¬ s.pc = .done := by rw [hs.pc]; exact hpc
    have hstep : step L s .consume = some (s.withRing r) := by
      simp only [step]
      rw [if_neg hd, hr]
      rfl
    have hsr : Snap L cap (s.withRing r) pc sq (kern ++ [⟨o, false⟩]) cq :=
      ⟨hs.pc, h1, h3.trans (by rw [hs.kern]), h4.trans hs.cq, h5.trans hs.cap, h6.trans hs.poll, hs.stop, hs.reg,
        hs.deadline⟩
    obtain ⟨t, ht, hst, k1, k2, k3⟩ := ih hsr h2
    refine ⟨t, (Trans.Reach.single hstep).trans ht, ?_, k1, k2, k3.trans h7⟩
    rwa [List.append_assoc] at hst

/-- the batch is submitted and the kernel has taken all of it -/
theorem snap_submit (hs : Snap L cap s (.batch 0) sq kern cq) :
    ∃ t, Trans.Reach (step L) s t ∧ Snap L cap t .head [] (kern ++ sq.map (⟨·, false⟩)) cq ∧
      t.sessions = s.sessions ∧ t.isOpen = s.isOpen ∧ t.ring.nulls = s.ring.nulls := by
  cases hq : L.sqpoll with
  | true =>
    obtain ⟨u, hu, hsu, hpub, k1, k2, k3⟩ := snap_publish hs hq
    obtain ⟨t, ht, hst, h1, h2, h3⟩ := snap_drain Pc.noConfusion sq hsu hpub
    exact ⟨t, hu.trans ht, hst, h1.trans k1, h2.trans k2, h3.trans k3⟩
  | false =>
    have h1 : step L s .submit = some { s with engine := s.engine.submit, pc := .head } := by
      simp only [step]
      rw [if_pos hs.pc]
    obtain ⟨h2, h3⟩ := IoRing.submit_off s.ring (hs.poll.trans hq)
    rw [hs.sq, hs.kern] at h3
    refine ⟨_, Trans.Reach.refl.tail h1, ?_, rfl, rfl, IoRing.submit_nulls s.ring⟩
    exact ⟨rfl, h2, h3, (IoRing.submit_cq s.ring).trans hs.cq, (IoRing.submit_cap s.ring).trans hs.cap,
      (IoRing.submit_sqpoll s.ring).trans hs.poll, hs.stop, hs.reg, hs.deadline⟩

/-- the accept completes with a descriptor that is not open -/
theorem snap_post_accept {i : Nat} {f : Int} {pc : Pc} (hs : Snap L cap s pc sq kern cq)
    (hpc : pc ≠ .done) (hk : kern[i]? = some ⟨acceptSqe L.listenFd L.acceptCtx, false⟩)
    (hf : 0 ≤ f) (ho : s.isOpen f = false) (hl : f ≠ L.listenFd) :
    ∃ t, Trans.Reach (step L) s t ∧ Snap L cap t pc sq (kern.eraseIdx i)
        (cq ++ [⟨.plain f, acceptSqe L.listenFd L.acceptCtx⟩]) ∧
      t.sessions = s.sessions ∧ t.isOpen = Function.update s.isOpen f true ∧
      t.ring.nulls = s.ring.nulls := by
  rw [← hs.kern] at hk
  obtain ⟨r, hr, h1, h2, h3, h4, h5, h6⟩ := IoRing.post_ok Sqe.kind (.plain f) hk rfl rfl
  have hd : ¬ s.pc = .done := by rw [hs.pc]; exact hpc
  have hstep : step L s (.post i (.plain f)) = some { s.withRing r with
      gen := Function.update s.gen f (s.gen f + 1)
      isOpen := Function.update s.isOpen f true } := by
    simp only [step]
    rw [if_neg hd]
    unfold kernelPost
    rw [hk, hr]
    dsimp only
    rw [if_pos ⟨rfl, hf⟩]
    exact if_pos ⟨ho, hl⟩
  refine ⟨_, Trans.Reach.refl.tail hstep, ?_, rfl, rfl, h6⟩
  exact ⟨hs.pc, h3.trans hs.sq, h1.trans (by rw [hs.kern]), h2.trans (by rw [hs.cq]), h4.trans hs.cap,
    h5.trans hs.poll, hs.stop, hs.reg, hs.deadline⟩

/-- a send in the kernel completes -/
theorem snap_post_send {o : Sqe} {pc : Pc} (hs : Snap L cap s pc sq (⟨o, false⟩ :: kern) cq)
    (hpc : pc ≠ .done) (hop : o.opcode = .send ∨ o.opcode = .sendZc) :
    ∃ t, Trans.Reach (step L) s t ∧ Snap L cap t pc sq kern (cq ++ [⟨.plain 1, o⟩]) ∧
      t.sessions = s.sessions ∧ t.isOpen = s.isOpen ∧ t.ring.nulls = s.ring.nulls := by
  have hk : s.ring.kern[0]? = some ⟨o, false⟩ := by rw [hs.kern]; rfl
  have ha : (Sqe.kind o).allows false (.plain 1) = true ∧
      (Sqe.kind o).stays false (.plain 1) = none := by
    unfold Sqe.kind
    rcases hop with h | h <;> rw [h] <;> exact ⟨rfl, rfl⟩
  obtain ⟨r, hr, h1, h2, h3, h4, h5, h6⟩ := IoRing.post_ok Sqe.kind (.plain 1) hk ha.1 ha.2
  have hd : ¬ s.pc = .done := by rw [hs.pc]; exact hpc
  have hna : ¬ (o.opcode = .accept ∧ 0 ≤ (Completion.plain 1).res) := by
    rcases hop with h | h <;> rw [h] <;> exact fun h => Opcode.noConfusion h.1
  have hstep : step L s (.post 0 (.plain 1)) = some (s.withRing r) := by
    simp only [step]
    rw [if_neg hd]
    unfold kernelPost
    rw [hk, hr]
    exact if_neg hna
  refine ⟨_, Trans.Reach.refl.tail hstep, ?_, rfl, rfl, h6⟩
  exact ⟨hs.pc, h3.trans hs.sq, h1.trans (by rw [hs.kern]; rfl), h2.trans (by rw [hs.cq]),
    h4.trans hs.cap, h5.trans hs.poll, hs.stop, hs.reg, hs.deadline⟩

/-- sends complete one after the other -/
theorem snap_post_sends {pc : Pc} (hpc : pc ≠ .done) (os : List Sqe)
    (hop : ∀ o ∈ os, o.opcode = .send ∨ o.opcode = .sendZc) : ∀ {s : St} {cq : List (Cqe Sqe)},
    Snap L cap s pc sq (os.map (⟨·, false⟩) ++ kern) cq →
    ∃ t, Trans.Reach (step L) s t ∧ Snap L cap t pc sq kern (cq ++ os.map (⟨.plain 1, ·⟩)) ∧
      t.sessions = s.sessions ∧ t.isOpen = s.isOpen ∧ t.ring.nulls = s.ring.nulls := by
  induction os with
  | nil =>
    intro s cq hs
    refine ⟨s, Trans.Reach.refl, ?_, rfl, rfl, rfl⟩
    rwa [List.map_nil, List.append_nil]
  | cons o os ih =>
    intro s cq hs
    obtain ⟨t, hr, ht, h1, h2, h3⟩ := snap_post_send hs hpc (hop o List.mem_cons_self)
    obtain ⟨u, hru, hu, k1, k2, k3⟩ := ih (fun o ho => hop o (List.mem_cons_of_mem _ ho)) ht
    refine ⟨u, hr.trans hru, ?_, k1.trans h1, k2.trans h2, k3.trans h3⟩
    rwa [List.append_assoc] at hu

/-- the first completion of the batch is processed -/
theorem snap_cqe {n : Nat} {c : Cqe Sqe} (hs : Snap L cap s (.batch (n+1)) sq kern (c :: cq))
    (hs' : Option (Bool × Nat)) : ∃ t, step L s (.cqe 0 hs') = some t ∧ CqeStep L 0 hs' s t n c cq := by
  have h : ∃ t, step L s (.cqe 0 hs') = some t := by
    simp only [step]
    rw [hs.pc, hs.cq]
    exact ⟨_, rfl⟩
  obtain ⟨t, ht⟩ := h
  obtain ⟨n', c', cs', hc⟩ := step_cqe ht
  have hpc := hs.pc.symm.trans hc.pc
  have hcq := hs.cq.symm.trans hc.cq
  cases hpc
  cases hcq
  exact ⟨t, ht, hc⟩

theorem book_send {now : Nat} {hs : Option (Bool × Nat)} {c : Cqe Sqe}
    (h : c.op.userData.type = .send) : book L now hs s c = s := by
  unfold book accepts ended
  rw [h]
  rfl

/-- a send is repeated -/
theorem snap_resend {n : Nat} {o : Sqe} (hs : Snap L cap s (.batch (n+1)) sq kern (⟨.plain 1, o⟩ :: cq))
    (ht : o.userData.type = .send) (hl : (s.sessions.lookup o.userData.fd).isSome = true)
    (hroom : sq.length < cap) : ∃ t, Trans.Reach (step L) s t ∧
      Snap L cap t (.batch n) (sq ++ [sendSqe L.reg L.config.zeroCopy o.userData false]) kern cq ∧
      t.sessions = s.sessions ∧ t.isOpen = s.isOpen ∧ t.ring.nulls = s.ring.nulls := by
  obtain ⟨t, hst, hc⟩ := snap_cqe hs none
  obtain ⟨ss, hss⟩ := Option.isSome_iff_exists.mp hl
  have hkeep : keepSending 0 s o.userData = true :=
    keepSending_iff.mpr ⟨ss, hss, hs.deadline _ ss hss, hs.stop⟩
  have hq : queued L 0 none s ⟨.plain 1, o⟩ = [sendSqe L.reg L.config.zeroCopy o.userData false] := by
    unfold queued
    rw [ht]
    dsimp only
    rw [hkeep, hs.reg]
    rfl
  have hb : book L 0 none s ⟨.plain 1, o⟩ = s := book_send ht
  have hring := hc.ring
  rw [hq] at hring
  have hfit := IoRing.pushAll_fits s.ring.seen [sendSqe L.reg L.config.zeroCopy o.userData false] (by
    show s.ring.sq.length + 1 ≤ s.ring.cap
    rw [hs.sq, hs.cap]
    exact hroom)
  rw [← hring] at hfit
  refine ⟨t, Trans.Reach.refl.tail hst, ?_, by rw [hc.sessions, hb], by rw [hc.isOpen, hb], hfit.2⟩
  refine ⟨hc.pc', hfit.1.trans (by rw [← hs.sq]; rfl), ?_, ?_, ?_, ?_, ?_, hc.reg.trans hs.reg, ?_⟩
  · rw [hring, IoRing.pushAll_kern]
    exact hs.kern
  · rw [hring, IoRing.pushAll_cq]
    show s.ring.cq.tail = cq
    rw [hs.cq]
    rfl
  · rw [hring, IoRing.pushAll_cap]
    exact hs.cap
  · rw [hring, IoRing.pushAll_sqpoll]
    exact hs.poll
  · rw [hc.stop, hb]
    exact hs.stop
  · rw [hc.sessions, hb]
    exact hs.deadline

/-- sends are repeated one after the other, while there is room -/
theorem snap_resends {n : Nat} (os : List Sqe) (ht : ∀ o ∈ os, o.userData.type = .send) :
    ∀ {s : St} {sq : List Sqe}, (∀ o ∈ os, (s.sessions.lookup o.userData.fd).isSome = true) →
    sq.length + os.length ≤ cap →
    Snap L cap s (.batch (os.length + n)) sq kern (os.map (⟨.plain 1, ·⟩) ++ cq) →
    ∃ t sq', Trans.Reach (step L) s t ∧ sq'.length = sq.length + os.length ∧
      Snap L cap t (.batch n) sq' kern cq ∧
      t.sessions = s.sessions ∧ t.isOpen = s.isOpen ∧ t.ring.nulls = s.ring.nulls := by
  induction os with
  | nil =>
    intro s sq _ _ hs
    rw [List.length_nil, Nat.zero_add] at hs
    exact ⟨s, sq, Trans.Reach.refl, rfl, hs, rfl, rfl, rfl⟩
  | cons o os ih =>
    intro s sq hl hroom hs
    rw [List.length_cons] at hroom
    rw [List.length_cons, Nat.add_right_comm] at hs
    obtain ⟨t, hr, hsn, h1, h2, h3⟩ := snap_resend hs (ht o List.mem_cons_self)
      (hl o List.mem_cons_self) (by omega)
    obtain ⟨u, sq', hru, hlen, hu, k1, k2, k3⟩ := ih (fun o ho => ht o (List.mem_cons_of_mem _ ho))
      (fun o ho => by rw [h1]; exact hl o (List.mem_cons_of_mem _ ho))
      (by rw [List.length_append, List.length_singleton]; omega) hsn
    refine ⟨u, sq', hr.trans hru, ?_, hu, k1.trans h1, k2.trans h2, k3.trans h3⟩
    rw [hlen, List.length_append, List.length_singleton, List.length_cons]
    omega

/-! ## the two reverse connections -/

/-- the sends of a reverse connection on the descriptor `f` -/
def sendOps (L : Setup) (conn : Conn) : List Sqe :=
  (L.sessionCtxs .send conn).map (sendSqe L.reg L.config.zeroCopy · false)

theorem sendOps_length (conn : Conn) : (sendOps L conn).length = L.config.inFlight := by
  unfold sendOps Setup.sessionCtxs
  rw [List.length_map, List.length_map, List.length_range]

theorem sendOps_mem {conn : Conn} {o : Sqe} (h : o ∈ sendOps L conn) :
    (o.opcode = .send ∨ o.opcode = .sendZc) ∧ o.userData.type = .send ∧ o.userData.fd = conn.fd := by
  obtain ⟨ctx, hctx, rfl⟩ := List.mem_map.mp h
  rw [sendSqe_userData]
  exact ⟨sendSqe_opcode _ _ _ _, (sessionCtxs_buf conn hctx).1, sessionCtxs_fd L hctx⟩

/-- a reverse connection is processed -/
theorem reverse_accept (htcp : L.config.protocol = .tcp) {n : Nat} {f : Int} (hf : 0 ≤ f)
    (hs : Snap L cap s (.batch (n+1)) sq kern
      (⟨.plain f, acceptSqe L.listenFd L.acceptCtx⟩ :: cq)) :
    ∃ t conn, conn.fd = f ∧ step L s (.cqe 0 (some (true, 1))) = some t ∧ t.pc = .batch n ∧
      t.ring = s.ring.seen.pushAll (sendOps L conn ++ [acceptSqe L.listenFd L.acceptCtx]) ∧
      t.sessions = s.sessions.insert f (newSession L 0 conn true 1) ∧ t.isOpen = s.isOpen ∧
      t.stop = false ∧ t.engine.reg = L.reg := by
  obtain ⟨t, hst, hc⟩ := snap_cqe hs (some (true, 1))
  have hh : handshake L (some (true, 1)) = some (true, 1) := by
    unfold handshake
    rw [if_pos htcp]
  have hq : queued L 0 (some (true, 1)) s ⟨.plain f, acceptSqe L.listenFd L.acceptCtx⟩
      = sendOps L ⟨f, s.gen f⟩ ++ [acceptSqe L.listenFd L.acceptCtx] := by
    rw [queued_accept rfl]
    show (if 0 ≤ f then _ else _) ++ _ = _
    rw [if_pos hf]
    unfold connectOps
    rw [hh]
    show (L.sessionCtxs .send ⟨f, s.gen f⟩).map (sendSqe s.engine.reg L.config.zeroCopy · false) ++ _ = _
    rw [hs.reg]
    rfl
  have hb : book L 0 (some (true, 1)) s ⟨.plain f, acceptSqe L.listenFd L.acceptCtx⟩ =
      { s.noteAccepted f with
        sessions := s.sessions.insert f (newSession L 0 ⟨f, s.gen f⟩ true 1) } := by
    have ha : accepts ⟨.plain f, acceptSqe L.listenFd L.acceptCtx⟩ = true := by
      unfold accepts
      show (true && decide (0 ≤ f)) = true
      rw [decide_eq_true hf]
      rfl
    unfold book
    rw [if_pos ha]
    unfold bookConnect
    rw [hh]
    rfl
  refine ⟨t, ⟨f, s.gen f⟩, rfl, hst, hc.pc', by rw [hc.ring, hq], by rw [hc.sessions, hb],
    by rw [hc.isOpen, hb]; rfl, ?_, hc.reg.trans hs.reg⟩
  rw [hc.stop, hb]
  exact hs.stop

/-- descriptor numbers other than the listening one -/
def freshFd (L : Setup) (i : Nat) : Int := (L.listenFd.natAbs + 1 + i : Nat)

theorem freshFd_spec (i : Nat) : 0 ≤ freshFd L i ∧ freshFd L i ≠ L.listenFd := by
  unfold freshFd
  omega

theorem freshFd_inj {i j : Nat} (h : i ≠ j) : freshFd L i ≠ freshFd L j := by
  unfold freshFd
  omega

/-- the accept is in the kernel and nothing else has happened -/
theorem snap_start (htcp : L.config.protocol = .tcp) (hcap : 1 ≤ cap) :
    ∃ s, Trans.Reach (step L) (start L cap) s ∧
      Snap L cap s .head [] [⟨acceptSqe L.listenFd L.acceptCtx, false⟩] [] ∧
      (∀ f, s.isOpen f = false) ∧ s.ring.nulls = 0 := by
  have hring := start_ring (L := L) htcp cap
  have hf := IoRing.pushAll_fits (IoRing.init cap L.sqpoll) [acceptSqe L.listenFd L.acceptCtx] hcap
  have hkern : ((IoRing.init cap L.sqpoll).pushAll [acceptSqe L.listenFd L.acceptCtx]).kern = [] :=
    IoRing.pushAll_kern _ _
  have hpoll : ((IoRing.init cap L.sqpoll).pushAll [acceptSqe L.listenFd L.acceptCtx]).sqpoll = L.sqpoll :=
    IoRing.pushAll_sqpoll _ _
  have hsnap : ∀ {sq kern}, (start L cap).ring.sq = sq → (start L cap).ring.kern = kern →
      Snap L cap (start L cap) .head sq kern [] := by
    intro sq kern hsq hk
    refine ⟨rfl, hsq, hk, ?_, ?_, ?_, rfl, ?_, ?_⟩
    · rw [hring, IoRing.submit_cq, IoRing.pushAll_cq]
      rfl
    · rw [hring, IoRing.submit_cap, IoRing.pushAll_cap]
      rfl
    · rw [hring, IoRing.submit_sqpoll]
      exact hpoll
    · unfold start primed
      rw [htcp]
      rfl
    · intro f ss hl
      exact absurd hl (by rw [show (start L cap).sessions = ∅ from rfl, AList.lookup_empty]; nofun)
  have hn := start_nulls (L := L) htcp hcap
  cases hq : L.sqpoll with
  | true =>
    obtain ⟨h2, h3⟩ := IoRing.submit_on _ (hpoll.trans hq)
    have hpub := IoRing.submit_pub _ (hpoll.trans hq)
    rw [← hring] at h2 h3 hpub
    rw [hf.1] at h2 hpub
    obtain ⟨t, ht, hst, -, hop, hnulls⟩ :=
      snap_drain Pc.noConfusion _ (hsnap h2 (h3.trans hkern)) hpub
    exact ⟨t, ht, hst, fun f => by rw [hop]; rfl, hnulls.trans hn⟩
  | false =>
    obtain ⟨h2, h3⟩ := IoRing.submit_off _ (hpoll.trans hq)
    rw [← hring] at h2 h3
    rw [hf.1, hkern] at h3
    exact ⟨_, Trans.Reach.refl, hsnap h2 h3, fun _ => rfl, hn⟩

theorem first_accept (htcp : L.config.protocol = .tcp) (hN : 1 ≤ L.config.inFlight) (hcap : 1 ≤ cap) :
    ∃ s, Trans.Reach (step L) (start L cap) s ∧ Snap L cap s (.batch 1) [] []
        [⟨.plain (freshFd L 0), acceptSqe L.listenFd L.acceptCtx⟩] := by
  obtain ⟨s0, r0, h0, ho0, -⟩ := snap_start (L := L) htcp hcap
  obtain ⟨hf, hl⟩ := freshFd_spec (L := L) 0
  obtain ⟨s1, r1, hs1, -⟩ := snap_post_accept (i := 0) h0 Pc.noConfusion rfl hf (ho0 _) hl
  obtain ⟨s2, r2, hs2, -⟩ := snap_batch hs1 (List.cons_ne_nil _ _) hN
  exact ⟨s2, (r0.trans r1).trans r2, hs2⟩

/-- entries that are sends of sessions in the table -/
def LiveSends (s : St) (os : List Sqe) : Prop :=
  ∀ o ∈ os, (o.opcode = .send ∨ o.opcode = .sendZc) ∧ o.userData.type = .send ∧
    (s.sessions.lookup o.userData.fd).isSome = true

theorem LiveSends.of_eq {s t : St} {os : List Sqe} (h : LiveSends s os) (hss : t.sessions = s.sessions) :
    LiveSends t os := by
  intro o ho
  rw [hss]
  exact h o ho

/-- one more reverse connection: the whole session and the accept fit, and the kernel takes them -/
theorem snap_connect (htcp : L.config.protocol = .tcp) (hN : 1 ≤ L.config.inFlight)
    (hcap : L.config.inFlight + 1 ≤ cap) {os : List Sqe} {i : Nat}
    (hs : Snap L cap s .head [] ((os ++ [acceptSqe L.listenFd L.acceptCtx]).map (⟨·, false⟩)) [])
    (hl : LiveSends s os) (ho : s.isOpen (freshFd L i) = false) :
    ∃ t os', Trans.Reach (step L) s t ∧
      Snap L cap t .head [] ((os' ++ [acceptSqe L.listenFd L.acceptCtx]).map (⟨·, false⟩)) [] ∧
      os'.length = os.length + L.config.inFlight ∧ LiveSends t os' ∧
      t.isOpen = Function.update s.isOpen (freshFd L i) true ∧ t.ring.nulls = s.ring.nulls := by
  obtain ⟨hf, hne⟩ := freshFd_spec (L := L) i
  have hk : ((os ++ [acceptSqe L.listenFd L.acceptCtx]).map (Pending.mk · false))[os.length]?
      = some ⟨acceptSqe L.listenFd L.acceptCtx, false⟩ := by simp
  have herase : ((os ++ [acceptSqe L.listenFd L.acceptCtx]).map (Pending.mk · false)).eraseIdx os.length
      = os.map (⟨·, false⟩) := by
    rw [List.map_append, List.eraseIdx_append_of_length_le (by rw [List.length_map]), List.length_map, Nat.sub_self]
    exact List.append_nil _
  obtain ⟨s1, r1, hs1, hss1, ho1, hn1⟩ := snap_post_accept hs Pc.noConfusion hk hf ho hne
  rw [herase] at hs1
  obtain ⟨s2, r2, hs2, hss2, ho2, hn2⟩ := snap_batch hs1 (List.cons_ne_nil _ _) hN
  obtain ⟨s3, conn, hfd, hst, hpc, hring, hss, hop, hstop, hreg⟩ := reverse_accept htcp hf hs2
  have hfit := IoRing.pushAll_fits s2.ring.seen (sendOps L conn ++ [acceptSqe L.listenFd L.acceptCtx]) (by
    show s2.ring.sq.length + _ ≤ s2.ring.cap
    rw [hs2.sq, hs2.cap, List.length_append, sendOps_length, List.length_nil, List.length_singleton]
    omega)
  rw [← hring] at hfit
  have hs3 : Snap L cap s3 (.batch 0) (sendOps L conn ++ [acceptSqe L.listenFd L.acceptCtx])
      (os.map (⟨·, false⟩)) [] := by
    refine ⟨hpc, ?_, ?_, ?_, ?_, ?_, hstop, hreg, ?_⟩
    · rw [hfit.1]
      show s2.ring.sq ++ _ = _
      rw [hs2.sq, List.nil_append]
    · rw [hring, IoRing.pushAll_kern]
      exact hs2.kern
    · rw [hring, IoRing.pushAll_cq]
      show s2.ring.cq.tail = []
      rw [hs2.cq]
      rfl
    · rw [hring, IoRing.pushAll_cap]
      exact hs2.cap
    · rw [hring, IoRing.pushAll_sqpoll]
      exact hs2.poll
    · intro f ss hl
      rw [hss, AList.lookup_insert_eq] at hl
      split at hl
      · cases hl
        show 0 < 0 + 1 * second
        decide
      · exact hs2.deadline f ss hl
  obtain ⟨s4, r4, hs4, hss4, ho4, hn4⟩ := snap_submit hs3
  rw [← List.map_append, ← List.append_assoc] at hs4
  refine ⟨s4, os ++ sendOps L conn, ((r1.trans r2).tail hst).trans r4, hs4, ?_, ?_, ?_, ?_⟩
  · rw [List.length_append, sendOps_length]
  · intro o ho
    rw [hss4, hss, AList.lookup_insert_eq]
    rcases List.mem_append.mp ho with ho | ho
    · obtain ⟨h1, h2, h3⟩ := hl o ho
      refine ⟨h1, h2, ?_⟩
      rw [hss2, hss1]
      split
      · rfl
      · exact h3
    · obtain ⟨h1, h2, h3⟩ := sendOps_mem ho
      exact ⟨h1, h2, by rw [if_pos (h3.trans hfd)]; rfl⟩
  · rw [ho4, hop, ho2, ho1]
  · rw [hn4, hfit.2]
    exact hn2.trans hn1

/-- any number of reverse connections are open, with all their sends in the kernel -/
theorem sessions_open (htcp : L.config.protocol = .tcp) (hN : 1 ≤ L.config.inFlight)
    (hcap : L.config.inFlight + 1 ≤ cap) (k : Nat) :
    ∃ s os, Trans.Reach (step L) (start L cap) s ∧
      Snap L cap s .head [] ((os ++ [acceptSqe L.listenFd L.acceptCtx]).map (⟨·, false⟩)) [] ∧
      os.length = k * L.config.inFlight ∧ LiveSends s os ∧
      (∀ i, k ≤ i → s.isOpen (freshFd L i) = false) ∧ s.ring.nulls = 0 := by
  induction k with
  | zero =>
    obtain ⟨s, hr, hs, ho, hn⟩ := snap_start (L := L) htcp (by omega : 1 ≤ cap)
    refine ⟨s, [], hr, hs, ?_, fun o ho => absurd ho List.not_mem_nil, fun i _ => ho _, hn⟩
    rw [Nat.zero_mul, List.length_nil]
  | succ k ih =>
    obtain ⟨s, os, hr, hs, hlen, hl, ho, hn⟩ := ih
    obtain ⟨t, os', hr', ht, hlen', hl', ho', hn'⟩ := snap_connect htcp hN hcap hs hl (ho k (Nat.le_refl k))
    refine ⟨t, os', hr.trans hr', ht, by rw [hlen', hlen, Nat.succ_mul], hl', fun i hi => ?_, hn'.trans hn⟩
    rw [ho', Function.update_of_ne (freshFd_inj (by omega))]
    exact ho i (by omega)

/-- all sends but one have been repeated, and the next connection is about to be processed -/
theorem second_accept (htcp : L.config.protocol = .tcp) (hN : 1 ≤ L.config.inFlight)
    (hcap : L.config.inFlight + 1 ≤ cap) :
    ∃ s sq kern, Trans.Reach (step L) (start L cap) s ∧ sq.length + 1 = L.config.inFlight ∧
      Snap L cap s (.batch 1) sq kern [⟨.plain (freshFd L 1), acceptSqe L.listenFd L.acceptCtx⟩] := by
  obtain ⟨s1, os, r1, hs1, hlen1, hl1, ho1, -⟩ := sessions_open (L := L) htcp hN hcap 1
  rw [Nat.one_mul] at hlen1
  have hne : os ≠ [] := by
    intro e
    rw [e, List.length_nil] at hlen1
    omega
  have hsplit := (List.dropLast_append_getLast hne).symm
  have hlen : os.dropLast.length + 1 = L.config.inFlight := by
    rw [List.length_dropLast, hlen1]
    omega
  have hmem : ∀ o ∈ os.dropLast, o ∈ os := fun o ho => (List.dropLast_sublist _).subset ho
  generalize os.getLast hne = last at hsplit
  rw [hsplit, List.append_assoc, List.map_append] at hs1
  obtain ⟨s2, r2, hs2, hss2, ho2, -⟩ := snap_post_sends Pc.noConfusion _ (fun o ho => (hl1 o (hmem o ho)).1) hs1
  obtain ⟨s3, r3, hs3, hss3, -, -⟩ := snap_post_accept (i := 1) hs2 Pc.noConfusion rfl
    (freshFd_spec 1).1 (by rw [ho2]; exact ho1 1 (Nat.le_refl 1)) (freshFd_spec 1).2
  obtain ⟨s4, r4, hs4, hss4, -, -⟩ := snap_batch hs3 (by simp) (by
    rw [List.length_append, List.nil_append, List.length_map, List.length_singleton]
    omega)
  rw [List.length_append, List.nil_append, List.length_map, List.length_singleton] at hs4
  obtain ⟨s5, sq, r5, hsq, hs5, -, -, -⟩ := snap_resends (n := 1) _ (fun o ho => (hl1 o (hmem o ho)).2.1)
    (fun o ho => by rw [hss4, hss3, hss2]; exact (hl1 o (hmem o ho)).2.2) (by rw [List.length_nil]; omega) hs4
  refine ⟨s5, sq, _, (((r1.trans r2).trans r3).trans r4).trans r5, ?_, hs5⟩
  rw [hsq, List.length_nil]
  omega

/-! ## the exact bound -/

/-- a reverse connection that finds less room than it needs loses the accept -/
theorem reverse_refused (htcp : L.config.protocol = .tcp) {n : Nat} {f : Int} (hf : 0 ≤ f)
    (hs : Snap L cap s (.batch (n+1)) sq kern (⟨.plain f, acceptSqe L.listenFd L.acceptCtx⟩ :: cq))
    (hroom : cap < sq.length + L.config.inFlight + 1) :
    ∃ t conn, step L s (.cqe 0 (some (true, 1))) = some t ∧ t.stop = false ∧ t.ring.nulls ≠ 0 ∧
      t.ring.sq = sq ++ (sendOps L conn).take (cap - sq.length) ∧
      t.ring.kern = kern ∧ t.ring.cq = cq := by
  obtain ⟨t, conn, -, hst, -, hring, -, -, hstop, -⟩ := reverse_accept htcp hf hs
  have hlen := sendOps_length (L := L) conn
  have hsq : s.ring.seen.sq = sq := hs.sq
  have hcap : s.ring.seen.cap = cap := hs.cap
  obtain ⟨h1, h2⟩ := IoRing.pushAll_sq s.ring.seen (sendOps L conn ++ [acceptSqe L.listenFd L.acceptCtx])
  rw [← hring, hsq, hcap] at h1 h2
  refine ⟨t, conn, hst, hstop, ?_, ?_, ?_, ?_⟩
  · rw [h2, List.length_append, List.length_singleton, hlen]
    omega
  · rw [h1, List.take_append_of_le_length (by omega)]
  · rw [hring, IoRing.pushAll_kern]
    exact hs.kern
  · rw [hring, IoRing.pushAll_cq]
    show s.ring.cq.tail = cq
    rw [hs.cq]
    rfl

/-- with fewer entries some run is refused one -/
theorem queue_small (htcp : L.config.protocol = .tcp) (hN : 1 ≤ L.config.inFlight) (hcap : cap < 2 * L.config.inFlight) :
    ∃ s, Trans.Reach (step L) (start L cap) s ∧ s.ring.nulls ≠ 0 := by
  by_cases h0 : cap = 0
  · refine ⟨_, Trans.Reach.refl, ?_⟩
    rw [start_ring htcp, IoRing.submit_nulls, (IoRing.pushAll_sq _ _).2, h0]
    exact Nat.one_ne_zero
  · by_cases h1 : cap ≤ L.config.inFlight
    · obtain ⟨s, hr, hs⟩ := first_accept (L := L) htcp hN (by omega : 1 ≤ cap)
      obtain ⟨t, conn, hst, -, hn, -⟩ := reverse_refused htcp (freshFd_spec 0).1 hs (by
        rw [List.length_nil]
        omega)
      exact ⟨t, hr.tail hst, hn⟩
    · obtain ⟨s, sq, kern, hr, hlen, hs⟩ := second_accept (L := L) htcp hN (by omega : L.config.inFlight + 1 ≤ cap)
      obtain ⟨t, conn, hst, -, hn, -⟩ := reverse_refused htcp (freshFd_spec 1).1 hs (by omega)
      exact ⟨t, hr.tail hst, hn⟩

/-- **The exact bound of the submission queue.**  No entry is ever refused exactly if the queue holds
twice the number of buffers; a batch contains at most one accept and queues at most that much. -/
theorem sq_bound_iff (htcp : L.config.protocol = .tcp) (hoff : L.sqpoll = false)
    (hN : 1 ≤ L.config.inFlight) (cap : Nat) :
    ((∀ s, Trans.Reach (step L) (start L cap) s → s.ring.nulls = 0) ↔
      2 * L.config.inFlight ≤ cap) ∧
    ∀ s k, Trans.Reach (step L) (start L cap) s → s.pc = .batch k →
      acceptsIn s k ≤ 1 ∧ s.ring.sq.length ≤ 2 * L.config.inFlight := by
  refine ⟨⟨?_, ?_⟩, ?_⟩
  · intro hall
    by_contra hlt
    obtain ⟨s, hr, hn⟩ := queue_small (L := L) htcp hN (by omega : cap < 2 * L.config.inFlight)
    exact hn (hall s hr)
  · intro hcap s hr
    exact (queue_enough htcp hoff hN hcap hr).2.1
  · intro s k hr hk
    have h := hr.inv (queueInv_start htcp hoff cap) (queueInv_step hN)
    exact ⟨acceptsIn_le h.inv k, h.budget.bound k hk⟩

theorem sq_bound_iff_default : (defaultSetup.config.protocol = .tcp ∧ defaultSetup.sqpoll = false ∧
      1 ≤ defaultSetup.config.inFlight) ∧
    ((∀ s, Trans.Reach (step defaultSetup) (start defaultSetup 256) s → s.ring.nulls = 0) ↔
      2 * defaultSetup.config.inFlight ≤ 256) ∧
    ∀ s k, Trans.Reach (step defaultSetup) (start defaultSetup 256) s → s.pc = .batch k →
      acceptsIn s k ≤ 1 ∧ s.ring.sq.length ≤ 2 * defaultSetup.config.inFlight :=
  ⟨⟨rfl, rfl, by decide⟩, sq_bound_iff rfl rfl (by decide) 256⟩

/-! ## the accept -/

/-- the accept is not outstanding if only sends are -/
theorem acceptsOut_sends (h : ∀ o ∈ s.ring.outstanding, o.opcode = .send ∨ o.opcode = .sendZc) : acceptsOut s = 0 := by
  unfold acceptsOut
  apply List.countP_eq_zero.mpr
  intro o ho
  rcases h o ho with h | h <;> rw [h] <;> decide

/-- a queue that cannot hold a session and the accept loses the accept -/
theorem queue_deaf (htcp : L.config.protocol = .tcp) (hN : 1 ≤ L.config.inFlight) (h1 : 1 ≤ cap)
    (hcap : cap ≤ L.config.inFlight) :
    ∃ s, Trans.Reach (step L) (start L cap) s ∧ s.stop = false ∧ acceptsOut s = 0 := by
  obtain ⟨s, hr, hs⟩ := first_accept (L := L) htcp hN h1
  obtain ⟨t, conn, hst, hstop, -, hsq, hkern, hcq⟩ := reverse_refused htcp (freshFd_spec 0).1 hs (by
    rw [List.length_nil]
    omega)
  refine ⟨t, hr.tail hst, hstop, acceptsOut_sends fun o ho => ?_⟩
  unfold IoRing.outstanding at ho
  rw [hsq, hkern, hcq, List.nil_append, List.map_nil, List.map_nil, List.append_nil, List.append_nil] at ho
  exact (sendOps_mem (List.mem_of_mem_take ho)).1

/-- a send completes and is repeated, and a polling kernel takes nothing -/
theorem snap_cycle (hon : L.sqpoll = true) (hN : 1 ≤ L.config.inFlight) {o : Sqe}
    (hs : Snap L cap s .head sq (⟨o, false⟩ :: kern) []) (hl : LiveSends s [o]) (hroom : sq.length < cap) :
    ∃ t o', Trans.Reach (step L) s t ∧ Snap L cap t .head (sq ++ [o']) kern [] ∧
      (o'.opcode = .send ∨ o'.opcode = .sendZc) ∧ t.sessions = s.sessions ∧ t.isOpen = s.isOpen := by
  obtain ⟨hop, htype, hlook⟩ := hl o (List.mem_singleton_self o)
  obtain ⟨s1, r1, hs1, hss1, ho1, -⟩ := snap_post_send hs Pc.noConfusion hop
  obtain ⟨s2, r2, hs2, hss2, ho2, -⟩ := snap_batch hs1 (List.cons_ne_nil _ _) hN
  obtain ⟨s3, r3, hs3, hss3, ho3, -⟩ := snap_resend hs2 htype (by rw [hss2, hss1]; exact hlook) hroom
  obtain ⟨s4, r4, hs4, -, hss4, ho4, -⟩ := snap_publish hs3 hon
  exact ⟨s4, _, ((r1.trans r2).trans r3).trans r4, hs4, sendSqe_opcode _ _ _ _,
    by rw [hss4, hss3, hss2, hss1], by rw [ho4, ho3, ho2, ho1]⟩

/-- sends complete and are repeated one after the other, and the queue fills up -/
theorem snap_fill (hon : L.sqpoll = true) (hN : 1 ≤ L.config.inFlight) (os : List Sqe) :
    ∀ {s : St} {sq : List Sqe}, Snap L cap s .head sq (os.map (⟨·, false⟩) ++ kern) [] → LiveSends s os →
    (∀ o ∈ sq, o.opcode = .send ∨ o.opcode = .sendZc) → sq.length + os.length ≤ cap →
    ∃ t sq', Trans.Reach (step L) s t ∧ Snap L cap t .head sq' kern [] ∧ sq'.length = sq.length + os.length ∧
      (∀ o ∈ sq', o.opcode = .send ∨ o.opcode = .sendZc) ∧ t.isOpen = s.isOpen := by
  induction os with
  | nil =>
    intro s sq hs _ hsq _
    exact ⟨s, sq, Trans.Reach.refl, hs, rfl, hsq, rfl⟩
  | cons o os ih =>
    intro s sq hs hl hsq hroom
    rw [List.length_cons] at hroom
    obtain ⟨u, o', hu, hsu, hop, hss, hopen⟩ := snap_cycle hon hN hs
      (fun x hx => hl x (by rw [List.mem_singleton.mp hx]; exact List.mem_cons_self)) (by omega)
    have hl' : LiveSends u os := LiveSends.of_eq (fun x hx => hl x (List.mem_cons_of_mem _ hx)) hss
    have hsq' : ∀ x ∈ sq ++ [o'], x.opcode = .send ∨ x.opcode = .sendZc := by
      intro x hx
      rcases List.mem_append.mp hx with hx | hx
      · exact hsq x hx
      · rw [List.mem_singleton.mp hx]
        exact hop
    obtain ⟨t, sq', ht, hst, hlen, hall, hopen'⟩ := ih hsu hl' hsq' (by
      rw [List.length_append, List.length_singleton]
      omega)
    refine ⟨t, sq', hu.trans ht, hst, ?_, hall, hopen'.trans hopen⟩
    rw [hlen, List.length_append, List.length_singleton, List.length_cons]
    omega

/-- **A polling kernel lets a queue of any size overflow.**  As many connections are open as the queue has entries; the
kernel takes nothing while their sends complete and are repeated, and then the accept finds the queue full. -/
theorem polling_deaf (htcp : L.config.protocol = .tcp) (hon : L.sqpoll = true) (hN : 1 ≤ L.config.inFlight)
    (hcap : L.config.inFlight + 1 ≤ cap) :
    ∃ s, Trans.Reach (step L) (start L cap) s ∧ s.stop = false ∧ acceptsOut s = 0 := by
  obtain ⟨s1, os, r1, hs1, hlen, hl1, ho1, -⟩ := sessions_open (L := L) htcp hN hcap cap
  have hle : cap ≤ os.length := by
    rw [hlen]
    exact Nat.le_mul_of_pos_right cap hN
  have htake : (os.take cap).length = cap := by
    rw [List.length_take]
    omega
  rw [← List.take_append_drop cap os, List.append_assoc, List.map_append] at hs1
  obtain ⟨s2, sq, r2, hs2, hsq, hall, ho2⟩ := snap_fill hon hN (os.take cap) hs1
    (fun o ho => hl1 o (List.mem_of_mem_take ho)) (fun o ho => absurd ho List.not_mem_nil) (by
      rw [List.length_nil, htake]
      omega)
  rw [List.length_nil, Nat.zero_add, htake] at hsq
  obtain ⟨hf, hne⟩ := freshFd_spec (L := L) cap
  obtain ⟨s3, r3, hs3, -, -, -⟩ := snap_post_accept (i := (os.drop cap).length) hs2 Pc.noConfusion (by simp) hf
    (by rw [ho2]; exact ho1 cap (Nat.le_refl cap)) hne
  obtain ⟨s4, r4, hs4, -, -, -⟩ := snap_batch hs3 (List.cons_ne_nil _ _) hN
  obtain ⟨t, conn, hst, hstop, -, hsq', hkern, hcq⟩ := reverse_refused htcp hf hs4 (by omega)
  refine ⟨t, (((r1.trans r2).trans r3).trans r4).tail hst, hstop, acceptsOut_sends fun o ho => ?_⟩
  have hfull : (sendOps L conn).take (cap - sq.length) = [] := by
    rw [hsq, Nat.sub_self, List.take_zero]
  have herase : ((os.drop cap ++ [acceptSqe L.listenFd L.acceptCtx]).map (Pending.mk · false)).eraseIdx
      (os.drop cap).length = (os.drop cap).map (⟨·, false⟩) := by
    rw [List.map_append, List.eraseIdx_append_of_length_le (by rw [List.length_map]), List.length_map, Nat.sub_self]
    exact List.append_nil _
  unfold IoRing.outstanding at ho
  rw [hsq', hfull, hkern, herase, hcq, List.append_nil, List.map_nil, List.append_nil, List.map_map] at ho
  rcases List.mem_append.mp ho with ho | ho
  · exact hall o ho
  · obtain ⟨o', ho', rfl⟩ := List.mem_map.mp ho
    exact (hl1 o' (List.mem_of_mem_drop ho')).1

/-- **The server goes deaf.**  For a configuration from the command line, and whether or not the kernel grants it
polling, every state of every run has its accept exactly if the kernel does not poll and the queue depth is above 32. -/
theorem never_deaf_iff {opts : List Opt} (hargs : parseArgs opts = .ok L.config)
    (htcp : L.config.protocol = .tcp) :
    (∀ s, Trans.Reach (step L) (start L (sqEntries L.config.queueDepth)) s → s.stop = false →
      acceptsOut s = 1) ↔ L.sqpoll = false ∧ 32 < L.config.queueDepth := by
  obtain ⟨hN, hq⟩ := parseArgs_ok hargs
  have hpos : 1 ≤ sqEntries L.config.queueDepth := le_trans (by omega) (le_sqEntries L.config.queueDepth)
  constructor
  · intro hall
    have hdeaf : ¬ ∃ s, Trans.Reach (step L) (start L (sqEntries L.config.queueDepth)) s ∧ s.stop = false ∧
        acceptsOut s = 0 := by
      rintro ⟨s, hr, hstop, h0⟩
      have := hall s hr hstop
      omega
    by_cases hsmall : sqEntries L.config.queueDepth ≤ L.config.inFlight
    · exact absurd (queue_deaf htcp (by omega) hpos hsmall) hdeaf
    · refine ⟨?_, ?_⟩
      · cases hpoll : L.sqpoll with
        | false => rfl
        | true => exact absurd (polling_deaf htcp hpoll (by omega) (by omega)) hdeaf
      · by_contra hle
        exact hsmall (by rw [hN]; exact sqEntries_le L.config.queueDepth 5 (by omega))
  · rintro ⟨hoff, hlt⟩ s hr _
    have h1 : 2^6 ≤ sqEntries L.config.queueDepth := sqEntries_of_lt _ 5 hlt
    exact (queue_enough htcp hoff (by omega) (by omega) hr).2.2

theorem never_deaf_iff_default : (parseArgs [.server] = .ok defaultSetup.config ∧
      defaultSetup.config.protocol = .tcp) ∧
    ∀ s, Trans.Reach (step defaultSetup)
        (start defaultSetup (sqEntries defaultSetup.config.queueDepth)) s → s.stop = false →
      acceptsOut s = 1 :=
  ⟨⟨rfl, rfl⟩, (@never_deaf_iff defaultSetup [.server] rfl rfl).mpr ⟨rfl, by decide⟩⟩

/-- a server started with the smallest queue depth -/
def smallSetup : Setup := worker { mode := .server, queueDepth := 16 }

/-- the first reverse connection leaves it without an accept -/
theorem smallSetup_deaf : parseArgs [.server, .queueDepth "16"] = .ok smallSetup.config ∧
    ∃ s, Trans.Reach (step smallSetup) (start smallSetup (sqEntries smallSetup.config.queueDepth)) s ∧
      s.stop = false ∧ acceptsOut s = 0 := by
  refine ⟨by decide +kernel, queue_deaf rfl (by decide) ?_ (sqEntries_le 16 5 (by decide))⟩
  exact le_trans (by decide) (le_sqEntries 16)

end
end Server
end UringPerf
