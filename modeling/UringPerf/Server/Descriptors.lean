import UringPerf.Base.Ledger
import UringPerf.Base.Trace
import UringPerf.Server.Preserve

/-!
# Accepted descriptors are closed exactly once

The five places of `run_server` that close a descriptor (a failed handshake, the deadline sweep, the two ends of a
receive, the cleanup) keep one ledger, whatever the order of completions and however soon a number is used again.

* `Closing s`              the session table is the list of held descriptors of a sound ledger;
* `closing_step`           every action keeps it;
* `accepted_observed`      the accepted connections are those of the accept completions that have been processed;
* `accepted_closed_once`   the open accepted descriptors are the keys of the table, and all are closed at the end.
-/

namespace UringPerf
namespace Server
open Uring

/-- the descriptors of accept completions that have not been processed -/
def pendFds (r : IoRing Sqe) : List Int := r.cq.filterMap fun c => if accepts c then some c.res else none

structure Closing (s : St) : Prop where
  ledger : s.pc ≠ .done →
    Ledger.Sound Conn.mk s.gen s.isOpen (pendFds s.ring) s.sessions.keys s.accepted s.closed
  settled : s.pc = .done → s.closed.Perm s.accepted ∧ s.accepted.Nodup

section
variable {L : Setup} {s t : St}

theorem mk_inj (i j : Int) (n m : Nat) (h : Conn.mk i n = Conn.mk j m) : i = j ∧ n = m :=
  ⟨congrArg Conn.fd h, congrArg Conn.gen h⟩

/-- the other two records after a completion -/
theorem step_cqe_lists {now : Nat} {hs : Option (Bool × Nat)} (h : step L s (.cqe now hs) = some t) :
    ∀ c cs, s.ring.cq = c :: cs →
      t.closed = (book L now hs s c).closed ∧ t.accepted = (book L now hs s c).accepted := by
  intro c cs hcq
  simp only [step] at h
  split at h
  · next n c' cs' hpc hcq' =>
    obtain ⟨rfl, rfl⟩ := List.cons.inj (hcq.symm.trans hcq')
    obtain ⟨e, st, h1, -⟩ := onCqe_eq L now hs s c
    rw [h1] at h
    cases h
    exact ⟨rfl, rfl⟩
  · cases h

theorem pendFds_congr {r r' : IoRing Sqe} (h : r'.cq = r.cq) : pendFds r' = pendFds r :=
  IoRing.results_congr (fun c => accepts c = true) h

theorem pendFds_seen {r : IoRing Sqe} {c : Cqe Sqe} {cs : List (Cqe Sqe)} (hcq : r.cq = c :: cs) :
    pendFds r = (if accepts c then [c.res] else []) ++ pendFds r.seen :=
  IoRing.results_seen (fun c => accepts c = true) hcq

/-- steps that leave the table and the descriptors alone -/
theorem Closing.quiet (h : Closing s) (hpc : s.pc ≠ .done) (hpc' : t.pc ≠ .done) (hgen : t.gen = s.gen)
    (ho : t.isOpen = s.isOpen) (hp : pendFds t.ring = pendFds s.ring) (hss : t.sessions = s.sessions)
    (ha : t.accepted = s.accepted) (hc : t.closed = s.closed) : Closing t where
  ledger := fun _ => by
    rw [hgen, ho, hp, hss, ha, hc]
    exact h.ledger hpc
  settled := fun hd => absurd hd hpc'

/-- a processed accept: the descriptor is held in a session, or closed -/
theorem Closing.connect (h : Closing s) (hpc : s.pc ≠ .done) (hpc' : t.pc ≠ .done) {c : Cqe Sqe}
    {cs : List (Cqe Sqe)} (hcq : s.ring.cq = c :: cs) (hacc : accepts c = true) {now : Nat}
    {hs : Option (Bool × Nat)} (hgen : t.gen = (bookConnect L now hs s c.res).gen)
    (ho : t.isOpen = (bookConnect L now hs s c.res).isOpen) (hp : pendFds t.ring = pendFds s.ring.seen)
    (hss : t.sessions = (bookConnect L now hs s c.res).sessions)
    (ha : t.accepted = (bookConnect L now hs s c.res).accepted)
    (hc : t.closed = (bookConnect L now hs s c.res).closed) : Closing t := by
  refine ⟨fun _ => ?_, fun hd => absurd hd hpc'⟩
  have hled := h.ledger hpc
  rw [pendFds_seen hcq, if_pos hacc] at hled
  rw [hgen, ho, hp, hss, ha, hc]
  unfold bookConnect
  cases handshake L hs with
  | none => exact hled.refuse mk_inj
  | some hh =>
    show Ledger.Sound Conn.mk s.gen s.isOpen _ (s.sessions.insert c.res _).keys _ s.closed
    rw [AList.keys_insert_new (hled.apart List.mem_cons_self)]
    exact hled.take mk_inj

/-- a receive ends the session that has its descriptor now -/
theorem Closing.ends (h : Closing s) (hpc : s.pc ≠ .done) (hpc' : t.pc ≠ .done) {f : Int} (hf : f ∈ s.sessions.keys)
    (hgen : t.gen = s.gen) (ho : t.isOpen = Function.update s.isOpen f false)
    (hp : pendFds t.ring = pendFds s.ring) (hss : t.sessions = s.sessions.erase f)
    (ha : t.accepted = s.accepted) (hc : t.closed = s.closed ++ [⟨f, s.gen f⟩]) : Closing t := by
  refine ⟨fun _ => ?_, fun hd => absurd hd hpc'⟩
  rw [hgen, ho, hp, hss, ha, hc, AList.keys_erase]
  have hl : s.sessions.keys.Perm ([f] ++ s.sessions.keys.erase f) := List.perm_cons_erase hf
  refine (h.ledger hpc).drop hl fun i => ?_
  rw [Function.update_apply, List.mem_singleton]
  by_cases hi : i = f
  · simp [hi]
  · simp [hi]

theorem Closing.cqe (h : Closing s) {now : Nat} {hs : Option (Bool × Nat)}
    (hst : step L s (.cqe now hs) = some t) : Closing t := by
  obtain ⟨n, c, cs, hc⟩ := step_cqe hst
  obtain ⟨hclosed, haccepted⟩ := step_cqe_lists hst c cs hc.cq
  obtain ⟨hpc, hpc'⟩ := hc.not_done
  have hp : pendFds t.ring = pendFds s.ring.seen := by
    rw [hc.ring]
    exact pendFds_congr (IoRing.pushAll_cq _ _)
  cases hacc : accepts c with
  | true =>
    have hb : book L now hs s c = bookConnect L now hs s c.res := if_pos hacc
    have e1 := hc.gen
    have e2 := hc.isOpen
    have e3 := hc.sessions
    rw [hb] at e1 e2 e3 hclosed haccepted
    exact h.connect hpc hpc' hc.cq hacc e1 e2 hp e3 haccepted hclosed
  | false =>
    have hp' : pendFds t.ring = pendFds s.ring := by
      rw [hp, pendFds_seen hc.cq, hacc]
      rfl
    cases hend : ended L s c with
    | none =>
      have hb : book L now hs s c = s := by
        unfold book
        rw [hacc, hend]
        rfl
      have e1 := hc.gen
      have e2 := hc.isOpen
      have e3 := hc.sessions
      rw [hb] at e1 e2 e3 hclosed haccepted
      exact h.quiet hpc hpc' e1 e2 hp' e3 haccepted hclosed
    | some ss =>
      have hb : book L now hs s c =
          ((s.closeFd c.op.userData.fd).freeBuffers (released L ss)).erase c.op.userData.fd := by
        unfold book
        rw [hacc, hend]
        rfl
      have hf : c.op.userData.fd ∈ s.sessions.keys := by
        unfold ended at hend
        split at hend
        · exact AList.lookup_isSome.mp (by rw [hend]; rfl)
        · cases hend
      have e1 := hc.gen
      have e2 := hc.isOpen
      have e3 := hc.sessions
      rw [hb] at e1 e2 e3 hclosed haccepted
      exact h.ends hpc hpc' hf e1 e2 hp' e3 haccepted hclosed

theorem Closing.sweep (h : Closing s) {now : Nat} (hst : step L s (.sweep now) = some t) : Closing t := by
  obtain ⟨hpc, -, rfl⟩ := step_sweep hst
  refine ⟨fun _ => ?_, fun hd => Pc.noConfusion hd⟩
  have hled := h.ledger (by rw [hpc]; exact Pc.noConfusion)
  rw [sweep_eq]
  have e : (sweptOut now s).map (fun e => Conn.mk e.1 (s.gen e.1)) =
      ((sweptOut now s).map Sigma.fst).map fun f => ⟨f, s.gen f⟩ := by
    rw [List.map_map]
    rfl
  show Ledger.Sound Conn.mk s.gen (closeAll ((sweptOut now s).map Sigma.fst) s.isOpen) (pendFds s.ring)
    (AList.eraseAll (sweptOut now s) s.sessions).keys s.accepted (s.closed ++ (sweptOut now s).map _)
  rw [e]
  refine hled.drop (AList.keys_eraseAll_perm (expired now) s.sessions) fun f => ?_
  rw [closeAll_eq, Bool.and_eq_true, Bool.not_eq_true', decide_eq_false_iff_not]
  exact Iff.rfl

/-- **Every action keeps the ledger.** -/
theorem closing_step (s : St) (a : Act) (t : St) (h : Inv L s ∧ Closing s) (hst : step L s a = some t) :
    Inv L t ∧ Closing t := by
  obtain ⟨hi, h⟩ := h
  refine ⟨inv_step s a t hi hst, ?_⟩
  cases a with
  | sweep now => exact h.sweep hst
  | cqe now hs => exact h.cqe hst
  | reap =>
    obtain ⟨hpc, ⟨-, rfl⟩ | ⟨-, rfl⟩⟩ := step_reap hst
    · exact h.quiet (by rw [hpc]; exact Pc.noConfusion) Pc.noConfusion rfl rfl (pendFds_congr (IoRing.submit_cq _)) rfl rfl rfl
    · exact h.quiet (by rw [hpc]; exact Pc.noConfusion) Pc.noConfusion rfl rfl rfl rfl rfl rfl
  | submit =>
    obtain ⟨hpc, rfl⟩ := step_submit hst
    exact h.quiet (by rw [hpc]; exact Pc.noConfusion) Pc.noConfusion rfl rfl (pendFds_congr (IoRing.submit_cq _)) rfl rfl rfl
  | finish =>
    obtain ⟨hpc, -, rfl⟩ := step_finish hst
    have hs := (h.ledger (by rw [hpc]; exact Pc.noConfusion)).settled
    refine ⟨fun hd => absurd rfl hd, fun _ => ?_⟩
    have e : s.sessions.keys.map (fun f => Conn.mk f (s.gen f)) =
        s.sessions.entries.map fun e => ⟨e.1, s.gen e.1⟩ := List.map_map ..
    rw [e] at hs
    rw [cleanup_eq]
    exact hs
  | signal =>
    obtain ⟨hpc, rfl⟩ := step_signal hst
    exact h.quiet hpc hpc rfl rfl rfl rfl rfl rfl
  | consume =>
    obtain ⟨hpc, r, hr, rfl⟩ := step_consume hst
    obtain ⟨-, -, -, hcq, -⟩ := IoRing.consume_some hr
    exact h.quiet hpc hpc rfl rfl (pendFds_congr hcq) rfl rfl rfl
  | post i c =>
    obtain ⟨hpc, p, r, hp, hr, ht⟩ := step_post hst
    have hacc : accepts ⟨c, p.op⟩ = true ↔ p.op.opcode = .accept ∧ 0 ≤ c.res := by
      unfold accepts
      rw [Bool.and_eq_true, beq_iff_eq, decide_eq_true_eq,
        (hi.ops _ (kern_outstanding hp)).shape.accept_iff]
    have hpend : pendFds r = pendFds s.ring ++ if accepts ⟨c, p.op⟩ then [c.res] else [] :=
      IoRing.results_post (fun c => accepts c = true) hp hr
    rcases ht with ⟨h1, h2, h3, -, rfl⟩ | ⟨hna, rfl⟩
    · rw [if_pos (hacc.mpr ⟨h1, h2⟩)] at hpend
      refine ⟨fun _ => ?_, fun hd => absurd hd hpc⟩
      show Ledger.Sound Conn.mk _ _ (pendFds r) s.sessions.keys s.accepted s.closed
      rw [hpend]
      exact (h.ledger hpc).arrive h3
    · rw [if_neg fun hx => hna (hacc.mp hx), List.append_nil] at hpend
      exact h.quiet hpc hpc rfl rfl hpend rfl rfl rfl

theorem closing_run {as : List Act} (h : Inv L s ∧ Closing s) (hrun : Trans.runFrom (step L) s as = some t) :
    Inv L t ∧ Closing t :=
  (Trans.Reach.of_runFrom as hrun).inv (I := fun s => Inv L s ∧ Closing s) h closing_step

theorem closing_start (htcp : L.config.protocol = .tcp) (cap : Nat) : Closing (start L cap) := by
  have hpend : pendFds (start L cap).ring = [] := by
    rw [start_ring htcp cap, pendFds_congr (IoRing.submit_cq _), pendFds_congr (IoRing.pushAll_cq _ _)]
    rfl
  refine ⟨fun _ => ?_, fun hd => Pc.noConfusion hd⟩
  rw [hpend]
  exact Ledger.sound_nil Conn.mk _

theorem reach_closing (htcp : L.config.protocol = .tcp) {cap : Nat} (h : Trans.Reach (step L) (start L cap) s) :
    Inv L s ∧ Closing s :=
  h.inv (I := fun s => Inv L s ∧ Closing s) ⟨inv_start htcp cap, closing_start htcp cap⟩ closing_step

/-- the connection of a processed accept -/
def accepting (s : St) : Act → List Conn
  | .cqe _ _ =>
    match s.ring.cq with
    | [] => []
    | c :: _ => if accepts c then [⟨c.res, s.gen c.res⟩] else []
  | _ => []

theorem accepted_book (now : Nat) (hs : Option (Bool × Nat)) (s : St) (c : Cqe Sqe) :
    (book L now hs s c).accepted = s.accepted ++ if accepts c then [⟨c.res, s.gen c.res⟩] else [] := by
  unfold book
  cases accepts c with
  | true =>
    show (bookConnect L now hs s c.res).accepted = _
    unfold bookConnect
    split <;> rfl
  | false =>
    rw [if_neg Bool.false_ne_true, if_neg Bool.false_ne_true, List.append_nil]
    split <;> rfl

theorem accepted_step (s : St) (a : Act) (t : St) (hst : step L s a = some t) :
    t.accepted = s.accepted ++ accepting s a := by
  cases a with
  | cqe now hs =>
    obtain ⟨n, c, cs, hc⟩ := step_cqe hst
    rw [(step_cqe_lists hst c cs hc.cq).2, accepted_book]
    unfold accepting
    rw [hc.cq]
  | sweep now =>
    obtain ⟨-, -, rfl⟩ := step_sweep hst
    rw [sweep_eq]
    exact (List.append_nil _).symm
  | finish =>
    obtain ⟨-, -, rfl⟩ := step_finish hst
    rw [cleanup_eq]
    exact (List.append_nil _).symm
  | reap =>
    obtain ⟨-, ⟨-, rfl⟩ | ⟨-, rfl⟩⟩ := step_reap hst
    · exact (List.append_nil _).symm
    · exact (List.append_nil _).symm
  | submit =>
    obtain ⟨-, rfl⟩ := step_submit hst
    exact (List.append_nil _).symm
  | signal =>
    obtain ⟨-, rfl⟩ := step_signal hst
    exact (List.append_nil _).symm
  | consume =>
    obtain ⟨-, r, -, rfl⟩ := step_consume hst
    exact (List.append_nil _).symm
  | post i c =>
    obtain ⟨-, p, r, -, -, ⟨-, -, -, -, rfl⟩ | ⟨-, rfl⟩⟩ := step_post hst
    · exact (List.append_nil _).symm
    · exact (List.append_nil _).symm

/-- `accepted` is the record of the accepts that a run has processed -/
theorem accepted_observed {cap : Nat} {as : List Act} (hrun : Trans.runFrom (step L) (start L cap) as = some s) :
    s.accepted = Trans.observed (step L) accepting (start L cap) as :=
  Trans.observed_append (I := fun _ => True) (fun _ _ _ _ _ => trivial) (fun s a t _ => accepted_step s a t) as
    (start L cap) s trivial hrun

end

/-- **Every accepted descriptor is closed exactly once.**  In TCP mode, in every reachable state: the open
descriptors whose accept has been processed are the keys of the session table, each key is the descriptor of
its session, a processed accept finds no session under its number; and when the function has returned,
the closed connections are the accepted ones, each once. -/
theorem accepted_closed_once (L : Setup) (htcp : L.config.protocol = .tcp) (cap : Nat) (s : St)
    (h : Trans.Reach (step L) (start L cap) s) :
    (s.pc ≠ .done → ∀ f, (s.isOpen f = true ∧ ⟨f, s.gen f⟩ ∈ s.accepted) ↔ f ∈ s.sessions) ∧
    (∀ f ss, s.sessions.lookup f = some ss → ss.clientFd = f ∧ ss.conn = ⟨f, s.gen f⟩) ∧
    (s.pc ≠ .done → ∀ c cs, s.ring.cq = c :: cs → accepts c = true → s.sessions.lookup c.res = none) ∧
    (s.pc = .done → s.closed.Perm s.accepted ∧ s.accepted.Nodup) := by
  obtain ⟨hi, hc⟩ := reach_closing htcp h
  refine ⟨fun hpc f => ?_, fun f ss hl => ⟨(hi.sess f ss hl).fd, (hi.sess f ss hl).conn⟩, ?_, hc.settled⟩
  · rw [← (hc.ledger hpc).held_iff f]
    exact AList.mem_keys.symm
  · intro hpc c cs hcq hacc
    have hled := hc.ledger hpc
    rw [pendFds_seen hcq, if_pos hacc] at hled
    exact AList.lookup_eq_none.mpr fun hm => hled.apart List.mem_cons_self (AList.mem_keys.mp hm)

/-- descriptor 7 is refused after a failed handshake, accepted again, and closed by the cleanup -/
def refusedRun : List Act :=
  [.post 0 (.plain 7), .sweep 0, .reap, .cqe 0 none, .submit, .post 0 (.plain 7), .sweep 0, .reap,
    .cqe 0 (some (true, 10)), .submit, .signal, .finish]

theorem accepted_closed_refused : defaultSetup.config.protocol = .tcp ∧
    ∃ s, Trans.Reach (step defaultSetup) (start defaultSetup 256) s ∧ s.pc = .done ∧
      s.accepted = [⟨7, 1⟩, ⟨7, 2⟩] ∧ s.closed.Perm s.accepted := by
  have h : ∃ s, Trans.Reach (step defaultSetup) (start defaultSetup 256) s ∧ s.pc = .done ∧
      s.accepted = [⟨7, 1⟩, ⟨7, 2⟩] := Trans.exists_reach refusedRun (by decide +kernel)
  obtain ⟨s, hreach, h1, h2⟩ := h
  exact ⟨rfl, s, hreach, h1, h2, ((accepted_closed_once defaultSetup rfl 256 s hreach).2.2.2 h1).1⟩

end Server
end UringPerf
