import UringPerf.Server.Descriptors

/-!
# Reverse sessions and their deadline

With multishot receives a reverse session leaves the table only in the deadline sweep.

* `cqe_keeps_reverse`        no completion takes a reverse session out of the table;
* `step_reverse`             one action: the session stays, or this is a sweep at or after its deadline;
* `run_reverse`              a whole run: it stays exactly as long as every sweep read an earlier time;
* `no_resend`                a completion processed at or after the deadline queues nothing for the session;
* `reverse_until_deadline`   together, with the deadline of a new session.
-/

namespace UringPerf
namespace Server
open Uring

section
variable {L : Setup} {s t : St}

/-! ## the table -/

/-- a receive of the connection of a session means that the session is a forward one -/
theorem Inv.recv_forward (hi : Inv L s) (hm : L.useMultishot = true) {o : Sqe} {conn : Conn} (h : OfConn L o conn)
    (ho : o ∈ s.ring.outstanding) (ht : o.userData.type = .recv) {ss : ClientSession}
    (hl : s.sessions.lookup conn.fd = some ss) : ss.isReverse = false := by
  rcases h.recv ht with ⟨hop, -, -⟩ | ⟨-, hm'⟩
  · obtain ⟨ss', hl', -, hr⟩ := (hi.ops o ho).live conn (msKey_some.mpr ⟨hop, h.conn⟩)
    rw [hl] at hl'
    cases hl'
    exact hr
  · rw [hm] at hm'
    cases hm'

theorem cqe_keeps_reverse (hi : Inv L s) (hm : L.useMultishot = true) {now : Nat} {hs : Option (Bool × Nat)}
    {n : Nat} {c : Cqe Sqe} {cs : List (Cqe Sqe)} (hc : CqeStep L now hs s t n c cs) {f : Int}
    {ss : ClientSession} (hl : s.sessions.lookup f = some ss) (hr : ss.isReverse = true) :
    t.sessions.lookup f = some ss := by
  have hout := head_outstanding hc.cq
  rw [hc.sessions]
  cases (hi.ops _ hout).shape with
  | accept h =>
    rcases accept_cases now hs hi hc.not_done.1 hc.cq h with hb | ⟨ss', ops, hb⟩
    · rw [hb.sessions]
      exact hl
    · rw [hb.book]
      show (s.sessions.insert c.res ss').lookup f = some ss
      rw [AList.lookup_insert_eq, if_neg, hl]
      intro e
      rw [e, hb.free] at hl
      cases hl
  | session conn h =>
    rw [book_session h]
    cases he : ended L s c with
    | none => exact hl
    | some ss' =>
      obtain ⟨ht, -, hl'⟩ := ended_some h he
      show (s.sessions.erase conn.fd).lookup f = some ss
      rw [AList.lookup_erase_eq, if_neg, hl]
      intro e
      rw [e] at hl
      rw [hi.recv_forward hm h hout ht hl] at hr
      cases hr

/-- the actions that never change the table -/
theorem sessions_of_other {a : Act} (hst : step L s a = some t) (h1 : ∀ now, a ≠ .sweep now)
    (h2 : ∀ now hs, a ≠ .cqe now hs) : t.sessions = s.sessions := by
  cases a with
  | sweep now => exact absurd rfl (h1 now)
  | cqe now hs => exact absurd rfl (h2 now hs)
  | reap =>
    obtain ⟨-, ⟨-, rfl⟩ | ⟨-, rfl⟩⟩ := step_reap hst
    · rfl
    · rfl
  | submit =>
    obtain ⟨-, rfl⟩ := step_submit hst
    rfl
  | finish =>
    obtain ⟨-, -, rfl⟩ := step_finish hst
    rw [cleanup_eq]
  | signal =>
    obtain ⟨-, rfl⟩ := step_signal hst
    rfl
  | consume =>
    obtain ⟨-, r, -, rfl⟩ := step_consume hst
    rfl
  | post i c =>
    obtain ⟨-, p, r, -, -, ⟨-, -, -, -, rfl⟩ | ⟨-, rfl⟩⟩ := step_post hst
    · rfl
    · rfl

/-- **One action.** -/
theorem step_reverse (hi : Inv L s) (hm : L.useMultishot = true) {a : Act} (hst : step L s a = some t) {f : Int}
    {ss : ClientSession} (hl : s.sessions.lookup f = some ss) (hr : ss.isReverse = true) :
    t.sessions.lookup f = some ss ∨
      ∃ now, a = .sweep now ∧ ss.deadline ≤ now ∧ ⟨f, s.gen f⟩ ∈ t.closed := by
  by_cases h1 : ∃ now, a = .sweep now
  · obtain ⟨now, rfl⟩ := h1
    obtain ⟨-, -, rfl⟩ := step_sweep hst
    by_cases hd : ss.deadline ≤ now
    · refine Or.inr ⟨now, rfl, hd, ?_⟩
      rw [sweep_eq]
      refine List.mem_append_right _ (List.mem_map.mpr ⟨⟨f, ss⟩, List.mem_filter.mpr ⟨mem_entries.mpr hl, ?_⟩, rfl⟩)
      unfold expired
      rw [hr, decide_eq_true hd]
      rfl
    · refine Or.inl ((lookup_sweep now s f ss).mpr ⟨hl, ?_⟩)
      unfold expired
      rw [decide_eq_false hd, Bool.and_false]
  · left
    by_cases h2 : ∃ now hs, a = .cqe now hs
    · obtain ⟨now, hs, rfl⟩ := h2
      obtain ⟨n, c, cs, hc⟩ := step_cqe hst
      exact cqe_keeps_reverse hi hm hc hl hr
    · rw [sessions_of_other hst (fun now e => h1 ⟨now, e⟩) (fun now hs e => h2 ⟨now, hs, e⟩)]
      exact hl

/-! ## whole runs -/

/-- nothing is taken out of the record of closed connections -/
theorem closed_step {a : Act} (hst : step L s a = some t) {conn : Conn} (h : conn ∈ s.closed) : conn ∈ t.closed := by
  cases a with
  | sweep now =>
    obtain ⟨-, -, rfl⟩ := step_sweep hst
    rw [sweep_eq]
    exact List.mem_append_left _ h
  | cqe now hs =>
    obtain ⟨n, c, cs, hc⟩ := step_cqe hst
    rw [(step_cqe_lists hst c cs hc.cq).1]
    unfold book bookConnect
    split
    · split
      · exact List.mem_append_left _ h
      · exact h
    · split
      · exact h
      · exact List.mem_append_left _ h
  | reap =>
    obtain ⟨-, ⟨-, rfl⟩ | ⟨-, rfl⟩⟩ := step_reap hst
    · exact h
    · exact h
  | submit =>
    obtain ⟨-, rfl⟩ := step_submit hst
    exact h
  | finish =>
    obtain ⟨-, -, rfl⟩ := step_finish hst
    rw [cleanup_eq]
    exact List.mem_append_left _ h
  | signal =>
    obtain ⟨-, rfl⟩ := step_signal hst
    exact h
  | consume =>
    obtain ⟨-, r, -, rfl⟩ := step_consume hst
    exact h
  | post i c =>
    obtain ⟨-, p, r, -, -, ⟨-, -, -, -, rfl⟩ | ⟨-, rfl⟩⟩ := step_post hst
    · exact h
    · exact h

theorem closed_run (as : List Act) (hrun : Trans.runFrom (step L) s as = some t) {conn : Conn}
    (h : conn ∈ s.closed) : conn ∈ t.closed := by
  induction as generalizing s with
  | nil =>
    cases hrun
    exact h
  | cons a as ih =>
    rw [Trans.runFrom_cons] at hrun
    obtain ⟨u, hu, hr⟩ := Option.bind_eq_some_iff.mp hrun
    exact ih hr (closed_step hu h)

/-- a closed connection has no session any more -/
theorem closed_no_session (hi : Inv L s) (hc : Closing s) (hpc : s.pc ≠ .done) {f : Int} {ss : ClientSession}
    (hl : s.sessions.lookup f = some ss) : ss.conn ∉ s.closed := by
  intro hm
  have hled := hc.ledger hpc
  have hnd := hled.split.nodup_iff.mp hled.once
  have hf : f ∈ s.sessions.keys := AList.lookup_isSome.mp (by rw [hl]; rfl)
  rw [(hi.sess f ss hl).conn] at hm
  exact List.disjoint_of_nodup_append hnd hm (List.mem_map.mpr ⟨f, hf, rfl⟩)

/-- **A run.**  A reverse session is in the table as long as no sweep has read its deadline or a later time. -/
theorem run_reverse (hm : L.useMultishot = true) (as : List Act) (hi : Inv L s ∧ Closing s)
    (hrun : Trans.runFrom (step L) s as = some t) (hpc : t.pc ≠ .done) {f : Int} {ss : ClientSession}
    (hl : s.sessions.lookup f = some ss) (hr : ss.isReverse = true) :
    t.sessions.lookup f = some ss ↔ ∀ now, .sweep now ∈ as → now < ss.deadline := by
  induction as generalizing s with
  | nil =>
    cases hrun
    exact iff_of_true hl fun now h => absurd h List.not_mem_nil
  | cons a as ih =>
    have hrun' := hrun
    rw [Trans.runFrom_cons] at hrun
    obtain ⟨u, hu, hrest⟩ := Option.bind_eq_some_iff.mp hrun
    have hi' := closing_step s a u hi hu
    rcases step_reverse hi.1 hm hu hl hr with hl' | ⟨now, rfl, hd, hcl⟩
    · rw [ih hi' hrest hl']
      constructor
      · intro hall now hmem
        rcases List.mem_cons.mp hmem with rfl | hmem
        · -- the session survived this sweep
          obtain ⟨-, -, rfl⟩ := step_sweep hu
          have he := ((lookup_sweep now s f ss).mp hl').2
          unfold expired at he
          rw [hr, Bool.true_and, decide_eq_false_iff_not] at he
          exact Nat.not_le.mp he
        · exact hall now hmem
      · exact fun hall now hmem => hall now (List.mem_cons_of_mem _ hmem)
    · refine iff_of_false (fun ht => ?_) fun hall => ?_
      · have hit := closing_run hi hrun'
        have hgone := closed_run as hrest hcl
        rw [← (hi.1.sess f ss hl).conn] at hgone
        exact closed_no_session hit.1 hit.2 hpc ht hgone
      · exact absurd (hall now List.mem_cons_self) (Nat.not_lt.mpr hd)

/-! ## sends -/

/-- **A completion processed at or after the deadline queues nothing for the session.** -/
theorem no_resend (hi : Inv L s) (hm : L.useMultishot = true) {now : Nat} {hs : Option (Bool × Nat)} {n : Nat}
    {c : Cqe Sqe} {cs : List (Cqe Sqe)} (hc : CqeStep L now hs s t n c cs) {f : Int} {ss : ClientSession}
    (hl : s.sessions.lookup f = some ss) (hr : ss.isReverse = true) (hd : ss.deadline ≤ now) :
    ∀ o ∈ queued L now hs s c, o.conn ≠ some ss.conn := by
  have hout := head_outstanding hc.cq
  have hfd : ss.conn.fd = f := congrArg Conn.fd (hi.sess f ss hl).conn
  intro o ho hconn
  cases (hi.ops _ hout).shape with
  | accept h =>
    rcases accept_cases now hs hi hc.not_done.1 hc.cq h with hb | ⟨ss', ops, hb⟩
    · rw [hb.queued] at ho
      rw [List.mem_singleton.mp ho, accept_conn] at hconn
      cases hconn
    · rw [hb.queued] at ho
      rcases List.mem_append.mp ho with ho | ho
      · rw [(hb.first o ho).ofConn.conn] at hconn
        have e : c.res = f := by
          rw [← hfd, ← Option.some.inj hconn, hb.conn]
        rw [← e, hb.free] at hl
        cases hl
      · rw [List.mem_singleton.mp ho, accept_conn] at hconn
        cases hconn
  | session conn h =>
    rcases queued_again h with hq | ⟨o', hq, ha, -⟩
    · rw [hq] at ho
      exact absurd ho List.not_mem_nil
    · have ho' := ho
      rw [hq] at ho'
      rw [List.mem_singleton.mp ho', ha.ofConn.conn] at hconn
      have hce : conn = ss.conn := Option.some.inj hconn
      have hcf : conn.fd = f := by rw [hce, hfd]
      cases ht : c.op.userData.type with
      | accept => exact absurd ht h.not_accept.2
      | timer =>
        unfold queued at ho
        rw [ht] at ho
        exact absurd ho List.not_mem_nil
      | recv =>
        rw [hi.recv_forward hm h hout ht (hcf ▸ hl)] at hr
        cases hr
      | send =>
        unfold queued at ho
        rw [ht] at ho
        dsimp only at ho
        split at ho
        · next hk =>
          rw [Bool.and_eq_true] at hk
          obtain ⟨ss', hl', hlt, -⟩ := keepSending_iff.mp hk.2
          rw [h.ctxFd, hcf, hl] at hl'
          cases hl'
          exact absurd hd (Nat.not_le.mpr hlt)
        · exact absurd ho List.not_mem_nil

/-- the session of a client that asked for `d` seconds -/
theorem connect_reverse (htcp : L.config.protocol = .tcp) {now d n : Nat} {c : Cqe Sqe} {cs : List (Cqe Sqe)}
    (hc : CqeStep L now (some (true, d)) s t n c cs) (ha : accepts c = true) :
    ∃ ss, t.sessions.lookup c.res = some ss ∧ ss.isReverse = true ∧ ss.deadline = now + d * second := by
  have hh : handshake L (some (true, d)) = some (true, d) := if_pos htcp
  have hb : book L now (some (true, d)) s c = { s.noteAccepted c.res with
      sessions := s.sessions.insert c.res (newSession L now ⟨c.res, s.gen c.res⟩ true d) } := by
    unfold book bookConnect
    rw [if_pos ha, hh]
  refine ⟨newSession L now ⟨c.res, s.gen c.res⟩ true d, ?_, rfl, rfl⟩
  rw [hc.sessions, hb]
  exact AList.lookup_insert _

end

/-- **Reverse sessions live until their deadline**, with multishot receives.  In every reachable state: the
deadline of a new session is its accept time plus the duration of the handshake, below `2^63`; a reverse session
is in the table exactly as long as no sweep has read its deadline or a later time; one sweep takes out exactly
the expired sessions; and from the deadline on no completion queues a send of the session. -/
theorem reverse_until_deadline (L : Setup) (htcp : L.config.protocol = .tcp) (hm : L.useMultishot = true)
    (cap : Nat) (s : St) (h : Trans.Reach (step L) (start L cap) s) :
    (∀ now d t c cs, step L s (.cqe now (some (true, d))) = some t → s.ring.cq = c :: cs → accepts c = true →
      now < 2^62 → d < 2^32 → ∃ ss, t.sessions.lookup c.res = some ss ∧ ss.isReverse = true ∧
        ss.deadline = now + d * second ∧ ss.deadline < 2^63) ∧
    (∀ f ss, s.sessions.lookup f = some ss → ss.isReverse = true →
      ∀ as t, Trans.runFrom (step L) s as = some t → t.pc ≠ .done →
        (t.sessions.lookup f = some ss ↔ ∀ now, .sweep now ∈ as → now < ss.deadline)) ∧
    (∀ now t, step L s (.sweep now) = some t → ∀ f ss, s.sessions.lookup f = some ss →
      (t.sessions.lookup f = some ss ↔ ¬ (ss.isReverse = true ∧ ss.deadline ≤ now))) ∧
    (∀ f ss, s.sessions.lookup f = some ss → ss.isReverse = true →
      ∀ now hs t, step L s (.cqe now hs) = some t → ss.deadline ≤ now →
        t.ring.sq.filter (fun o => o.conn = some ss.conn) = s.ring.sq.filter fun o => o.conn = some ss.conn) := by
  have hi := reach_closing htcp h
  refine ⟨?_, ?_, ?_, ?_⟩
  · intro now d t c cs hst hcq ha hnow hd
    obtain ⟨n, c', cs', hc⟩ := step_cqe hst
    obtain ⟨rfl, rfl⟩ := List.cons.inj (hcq.symm.trans hc.cq)
    obtain ⟨ss, h1, h2, h3⟩ := connect_reverse htcp hc ha
    refine ⟨ss, h1, h2, h3, ?_⟩
    rw [h3]
    unfold second
    omega
  · exact fun f ss hl hr as t hrun hpc => run_reverse hm as hi hrun hpc hl hr
  · intro now t hst f ss hl
    obtain ⟨-, -, rfl⟩ := step_sweep hst
    refine (lookup_sweep now s f ss).trans ?_
    unfold expired
    rw [Bool.and_eq_false_iff, decide_eq_false_iff_not]
    constructor
    · rintro ⟨-, hr | hd⟩ ⟨hr', hd'⟩
      · rw [hr] at hr'
        cases hr'
      · exact hd hd'
    · intro hno
      refine ⟨hl, ?_⟩
      by_cases hr : ss.isReverse = true
      · exact Or.inr fun hd => hno ⟨hr, hd⟩
      · exact Or.inl (Bool.not_eq_true _ ▸ hr)
  · intro f ss hl hr now hs t hst hd
    obtain ⟨n, c, cs, hc⟩ := step_cqe hst
    have hno := no_resend hi.1 hm hc hl hr hd
    rw [hc.ring, (IoRing.pushAll_sq _ _).1, List.filter_append]
    refine (congrArg _ (List.filter_eq_nil_iff.mpr fun o ho => ?_)).trans (List.append_nil _)
    rw [decide_eq_true_eq]
    exact hno o (List.mem_of_mem_take ho)

/-- a client asks for one second at time 5; the sweep at its deadline takes the session out -/
theorem reverse_until_deadline_second : defaultSetup.config.protocol = .tcp ∧ defaultSetup.useMultishot = true ∧
    ∃ s ss t, Trans.Reach (step defaultSetup) (start defaultSetup 256) s ∧ s.sessions.lookup 7 = some ss ∧
      ss.isReverse = true ∧ ss.deadline = 1000000005 ∧
      Trans.runFrom (step defaultSetup) s [.submit, .sweep 1000000004, .reap, .sweep 1000000005] = some t ∧
      t.sessions.lookup 7 ≠ some ss := by
  have hm : defaultSetup.useMultishot = true := by decide
  have h : ((Trans.runFrom (step defaultSetup) (start defaultSetup 256)
      [.post 0 (.plain 7), .sweep 0, .reap, .cqe 5 (some (true, 1))]).any fun s =>
        ((s.sessions.lookup 7).any fun ss => decide (ss.isReverse = true ∧ ss.deadline = 1000000005)) &&
        ((Trans.runFrom (step defaultSetup) s [.submit, .sweep 1000000004, .reap, .sweep 1000000005]).any
          fun t => decide (t.pc ≠ .done))) = true := by
    decide +kernel
  obtain ⟨s, hs, h⟩ := (Option.any_eq_true _ _).mp h
  rw [Bool.and_eq_true] at h
  obtain ⟨ss, hl, h1⟩ := (Option.any_eq_true _ _).mp h.1
  obtain ⟨t, ht, h2⟩ := (Option.any_eq_true _ _).mp h.2
  obtain ⟨hr, hd⟩ := of_decide_eq_true h1
  have hreach := Trans.Reach.of_runFrom _ hs
  refine ⟨rfl, hm, s, ss, t, hreach, hl, hr, hd, ht, fun hin => ?_⟩
  have hiff := (reverse_until_deadline defaultSetup rfl hm 256 s hreach).2.1 7 ss hl hr _ t ht (of_decide_eq_true h2)
  have hlt := hiff.mp hin 1000000005 (by simp)
  omega

end Server
end UringPerf
