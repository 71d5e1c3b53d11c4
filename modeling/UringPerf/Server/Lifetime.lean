import UringPerf.Server.Preserve

/-!
# The lifetime of contexts and buffers (TCP)

An outstanding operation names a context and a buffer.  A context is live while the session that owns
it is in the table; a buffer is released by the deadline sweep, by a single-shot receive that ends its
connection, and by the cleanup after the loop.  None of the three waits for the operations that are
still outstanding.

* `Safe`              no outstanding operation names a dead context or a released buffer;
* `Backed`            the connection of every outstanding operation has its session in the table;
* `Inv.safe_iff`      inside the loop the two are the same: the buffers follow the session;
* `ReleasesIdle`      the step takes out only sessions none of whose operations is outstanding;
* `safe_along_iff`    a run is safe exactly if all its steps meet this condition.
-/

namespace UringPerf
namespace Server
open Uring

section
variable (L : Setup)

/-- the context at this address is `accept_ctx` or is owned by a session in the table -/
def LiveCtx (s : St) (addr : Ptr) : Prop :=
  addr = L.acceptCtx.addr ∨
    ∃ f ss, s.sessions.lookup f = some ss ∧ ∃ ctx ∈ ss.owned, ctx.addr = addr

def Safe (s : St) : Prop :=
  ∀ o ∈ s.ring.outstanding, LiveCtx L s o.userData.addr ∧ ∀ p, o.buf = some p → p ∉ s.freed

def Backed (s : St) : Prop :=
  ∀ o ∈ s.ring.outstanding, ∀ conn, o.conn = some conn →
    ∃ ss, s.sessions.lookup conn.fd = some ss ∧ ss.conn = conn

/-- no operation of the connection is outstanding -/
def Idle (r : IoRing Sqe) (conn : Conn) : Prop := ∀ o ∈ r.outstanding, o.conn ≠ some conn

/-- The sessions that a step takes out are idle; the completion that is being processed does not
count.  The cleanup takes nothing out, it must not release a buffer that is still named. -/
def ReleasesIdle (s : St) : Act → Prop
  | .sweep now => ∀ f ss, s.sessions.lookup f = some ss → expired now ss = true → Idle s.ring ss.conn
  | .cqe _ _ => L.useMultishot = false → ∀ c ss, s.ring.cq.head? = some c →
      ended L s c = some ss → Idle s.ring.seen ss.conn
  | .finish => ∀ f ss, s.sessions.lookup f = some ss →
      ∀ o ∈ s.ring.outstanding, ∀ p ∈ ss.buffers, o.buf ≠ some p
  | _ => True

instance (r : IoRing Sqe) (conn : Conn) : Decidable (Idle r conn) :=
  inferInstanceAs (Decidable (∀ o ∈ r.outstanding, o.conn ≠ some conn))

instance (s : St) : (a : Act) → Decidable (ReleasesIdle L s a)
  | .sweep now => inferInstanceAs (Decidable (∀ f ss, s.sessions.lookup f = some ss → expired now ss = true →
      Idle s.ring ss.conn))
  | .cqe _ _ => decidable_of_iff (L.useMultishot = false → ∀ c ∈ s.ring.cq.head?, ∀ ss ∈ ended L s c,
      Idle s.ring.seen ss.conn) ⟨fun h hm c ss hc he => h hm c hc ss he, fun h hm c hc ss he => h hm c ss hc he⟩
  | .finish => inferInstanceAs (Decidable (∀ f ss, s.sessions.lookup f = some ss →
      ∀ o ∈ s.ring.outstanding, ∀ p ∈ ss.buffers, o.buf ≠ some p))
  | .reap | .submit | .signal | .post _ _ | .consume => isTrue trivial

variable {L}

/-! ## safety is a property of the table -/

theorem Inv.liveCtx_iff {s : St} (hi : Inv L s) {o : Sqe} (ho : o ∈ s.ring.outstanding) :
    LiveCtx L s o.userData.addr ↔ ∀ conn, o.conn = some conn →
      ∃ ss, s.sessions.lookup conn.fd = some ss ∧ ss.conn = conn := by
  have hop := hi.ops o ho
  constructor
  · intro hl conn hc
    have hown := (hop.shape.ofConn hc).owner
    rcases hl with hl | ⟨f, ss, hl, ctx, hctx, ha⟩
    · rw [hl] at hown
      cases hown
    · have hs := hi.sess f ss hl
      have h1 := hs.ctxs ctx hctx
      rw [ha, hown] at h1
      cases h1
      refine ⟨ss, ?_, rfl⟩
      rw [hs.conn]
      exact hl
  · intro hb
    cases hop.shape with
    | accept h =>
      rw [h]
      exact Or.inl rfl
    | session conn h =>
      obtain ⟨ss, hl, hc⟩ := hb conn h.conn
      exact Or.inr ⟨conn.fd, ss, hl, o.userData, (hop.owned conn ss h.conn hl hc).1, rfl⟩

/-- a buffer of a session in the table has not been released -/
theorem Inv.not_freed {s : St} (hi : Inv L s) (hpc : s.pc ≠ .done) {f : Int} {ss : ClientSession}
    (hl : s.sessions.lookup f = some ss) {p : Ptr} (hp : p ∈ ss.buffers) : p ∉ s.freed := by
  intro hf
  have hs := hi.sess f ss hl
  obtain ⟨conn, h1, -, h2⟩ := hi.freed p hf
  have h3 := hs.bufs p hp
  rw [h1] at h3
  cases h3
  rw [hs.conn] at h2
  exact h2 hpc ss hl hs.conn

theorem Inv.safe_iff {s : St} (hi : Inv L s) (hpc : s.pc ≠ .done) : Safe L s ↔ Backed s := by
  constructor
  · intro hs o ho
    exact (hi.liveCtx_iff ho).mp (hs o ho).1
  · intro hb o ho
    refine ⟨(hi.liveCtx_iff ho).mpr (hb o ho), fun p hp => ?_⟩
    cases (hi.ops o ho).shape with
    | accept h =>
      rw [h] at hp
      cases hp
    | session conn h =>
      obtain ⟨ss, hl, hc⟩ := hb o ho conn h.conn
      exact hi.not_freed hpc hl (((hi.ops o ho).owned conn ss h.conn hl hc).2 p hp)

theorem Safe.backed {s : St} (hs : Safe L s) (hi : Inv L s) : Backed s := fun o ho =>
  (hi.liveCtx_iff ho).mp (hs o ho).1

/-! ## one step -/

/-- **Taking sessions out.**  If every entry of `t` was backed, `t` is backed exactly if the sessions
that have left are idle. -/
theorem backed_leave {s t : St} (hi : Inv L s)
    (hops : ∀ o ∈ t.ring.outstanding, ∀ conn, o.conn = some conn →
      ∃ ss, s.sessions.lookup conn.fd = some ss ∧ ss.conn = conn)
    (gone : Int → ClientSession → Prop)
    (hss : ∀ f ss, s.sessions.lookup f = some ss →
      (gone f ss ∧ t.sessions.lookup f = none) ∨ (¬ gone f ss ∧ t.sessions.lookup f = some ss)) :
    Backed t ↔ ∀ f ss, s.sessions.lookup f = some ss → gone f ss → Idle t.ring ss.conn := by
  constructor
  · intro hb f ss hl hg o ho hc
    obtain ⟨ss', hl', -⟩ := hb o ho _ hc
    rw [(hi.sess f ss hl).conn] at hl'
    rcases hss f ss hl with ⟨-, hn⟩ | ⟨hng, -⟩
    · rw [hn] at hl'
      cases hl'
    · exact hng hg
  · intro hq o ho conn hc
    obtain ⟨ss, hl, hc'⟩ := hops o ho conn hc
    rcases hss _ ss hl with ⟨hg, -⟩ | ⟨-, hl'⟩
    · rw [← hc'] at hc
      exact absurd hc (hq _ ss hl hg o ho)
    · exact ⟨ss, hl', hc'⟩

theorem safe_sweep {s : St} {now : Nat} (hpc : s.pc = .head) (hi : Inv L s) (hs : Safe L s) :
    Safe L { sweep now s with pc := .reap } ↔ ReleasesIdle L s (.sweep now) := by
  have hring : (sweep now s).ring = s.ring := by rw [sweep_eq]; rfl
  rw [(inv_sweep hpc hi).safe_iff Pc.noConfusion]
  have hgone : ∀ f ss, s.sessions.lookup f = some ss →
      (expired now ss = true ∧ (sweep now s).sessions.lookup f = none) ∨
        (¬ expired now ss = true ∧ (sweep now s).sessions.lookup f = some ss) := by
    intro f ss hl
    cases he : expired now ss with
    | false => exact Or.inr ⟨Bool.false_ne_true, (lookup_sweep now s f ss).mpr ⟨hl, he⟩⟩
    | true =>
      refine Or.inl ⟨rfl, ?_⟩
      cases hl' : (sweep now s).sessions.lookup f with
      | none => rfl
      | some ss' =>
        obtain ⟨h1, h2⟩ := (lookup_sweep now s f ss').mp hl'
        rw [hl] at h1
        cases h1
        rw [he] at h2
        cases h2
  have h := backed_leave (t := { sweep now s with pc := .reap }) hi ?_
    (fun _ ss => expired now ss = true) hgone
  · rw [h]
    show (∀ f (ss : ClientSession), _ → _ → Idle (sweep now s).ring ss.conn) ↔ _
    rw [hring]
    exact Iff.rfl
  · intro o ho
    replace ho : o ∈ (sweep now s).ring.outstanding := ho
    rw [hring] at ho
    exact hs.backed hi o ho

theorem safe_finish {s : St} (hs : Safe L s) :
    Safe L { cleanup s with pc := .done } ↔ ReleasesIdle L s .finish := by
  have hring : (cleanup s).ring = s.ring := by rw [cleanup_eq]; rfl
  have hsess : (cleanup s).sessions = s.sessions := by rw [cleanup_eq]
  show (∀ o ∈ (cleanup s).ring.outstanding, LiveCtx L { cleanup s with pc := .done } _ ∧ _) ↔ _
  rw [hring]
  constructor
  · intro h f ss hl o ho p hp hop
    exact (h o ho).2 p hop (mem_cleanup_freed.mpr (Or.inr ⟨f, ss, hl, hp⟩))
  · intro h o ho
    refine ⟨?_, fun p hp hf => ?_⟩
    · refine (hs o ho).1.imp id ?_
      show _ → ∃ f ss, (cleanup s).sessions.lookup f = some ss ∧ _
      rw [hsess]
      exact id
    · rcases mem_cleanup_freed.mp hf with hf | ⟨f, ss, hl, hb⟩
      · exact (hs o ho).2 p hp hf
      · exact h f ss hl o ho p hb hp

/-- what a completion's entry queues is backed as that entry was -/
theorem backed_again {now : Nat} {hs : Option (Bool × Nat)} {s : St} {c : Cqe Sqe} {conn : Conn}
    {cs : List (Cqe Sqe)} (hb : Backed s) (hcq : s.ring.cq = c :: cs) (h : OfConn L c.op conn) :
    ∀ o ∈ (s.ring.seen.pushAll (queued L now hs s c)).outstanding, ∀ k, o.conn = some k →
      ∃ ss, s.sessions.lookup k.fd = some ss ∧ ss.conn = k := by
  intro o ho k hk
  rcases mem_after hcq ho with ho | ho
  · exact hb o ho k hk
  · rcases queued_again h with hq | ⟨o', hq, ha, -⟩
    · rw [hq] at ho
      exact absurd ho List.not_mem_nil
    · rw [hq, List.mem_singleton] at ho
      rw [ho, ha.ofConn.conn, ← h.conn] at hk
      exact hb c.op (head_outstanding hcq) k hk

/-- a forward session with a multishot receive has no other operation -/
theorem multishot_idle {s : St} {c : Cqe Sqe} {conn : Conn} {cs : List (Cqe Sqe)}
    {ss : ClientSession} (hi : Inv L s) (hm : L.useMultishot = true) (hcq : s.ring.cq = c :: cs)
    (h : OfConn L c.op conn) (he : ended L s c = some ss) : Idle s.ring.seen ss.conn := by
  obtain ⟨ht, hends, hl⟩ := ended_some h he
  have hop : c.op.opcode = .recvMultishot := by
    rcases h.recv ht with h1 | h1
    · exact h1.1
    · rw [hm] at h1
      cases h1.2
  obtain ⟨ss', hl', hc', hrev⟩ :=
    (hi.ops _ (head_outstanding hcq)).live conn (msKey_some.mpr ⟨hop, h.conn⟩)
  rw [hl] at hl'
  cases hl'
  intro o ho hoc
  have hoo := hi.ops o ((IoRing.mem_outstanding_seen hcq).mpr (Or.inr ho))
  have hof := hoo.shape.ofConn hoc
  have hmem := (hoo.owned _ ss hoc (by rw [hc']; exact hl) rfl).1
  obtain ⟨hctx, hms⟩ := (hi.sess _ ss hl).multishot hrev hm
  have htype : o.userData.type = .recv := by
    unfold ClientSession.owned at hmem
    rw [hctx, hms, List.nil_append, Option.toList_some, List.mem_singleton] at hmem
    rw [hmem]
    rfl
  have hok : msKey o = some ss.conn := by
    rcases hof.recv htype with h1 | h1
    · exact msKey_some.mpr ⟨h1.1, hoc⟩
    · rw [hm] at h1
      cases h1.2
  exact ms_alone hi hcq h ht hends ho hok (by rw [hc']; exact hl) rfl (by rw [hc'])

/-- a completion of a session's entry, with the state it leaves -/
theorem safe_session {now : Nat} {hs : Option (Bool × Nat)} {s t : St} {c : Cqe Sqe} {conn : Conn}
    {cs : List (Cqe Sqe)} (hi : Inv L s) (hit : Inv L t) (hpc : t.pc ≠ .done) (hsafe : Safe L s)
    (hcq : s.ring.cq = c :: cs) (h : OfConn L c.op conn)
    (hr : t.ring = s.ring.seen.pushAll (queued L now hs s c))
    (hss : t.sessions = (book L now hs s c).sessions) :
    Safe L t ↔ (L.useMultishot = false → ∀ ss, ended L s c = some ss → Idle s.ring.seen ss.conn) := by
  have hops : ∀ o ∈ (s.ring.seen.pushAll (queued L now hs s c)).outstanding, _ :=
    backed_again (hsafe.backed hi) hcq h
  rw [hit.safe_iff hpc]
  rw [book_session h] at hss
  cases he : ended L s c with
  | none =>
    rw [he] at hss
    refine iff_of_true ?_ (fun _ ss h => by cases h)
    intro o ho k hk
    rw [hr] at ho
    rw [hss]
    exact hops o ho k hk
  | some ss =>
    obtain ⟨ht, hends, hl⟩ := ended_some h he
    rw [he] at hss
    replace hss : t.sessions = s.sessions.erase conn.fd := hss
    have hring : t.ring = s.ring.seen := by
      rw [hr, queued_end ht hends]
      rfl
    rw [← hr] at hops
    rw [backed_leave hi hops (fun f _ => f = conn.fd) ?_, hring]
    · constructor
      · intro hq _ ss' hss'
        cases hss'
        exact hq conn.fd ss hl rfl
      · intro hq f ss' hl' hf
        rw [hf, hl] at hl'
        cases hl'
        cases hm : L.useMultishot with
        | true => exact multishot_idle hi hm hcq h he
        | false => exact hq hm ss rfl
    · intro f ss' hl'
      rw [hss, AList.lookup_erase_eq]
      by_cases hf : f = conn.fd
      · exact Or.inl ⟨hf, if_pos hf⟩
      · exact Or.inr ⟨hf, (if_neg hf).trans hl'⟩

theorem safe_accept {now : Nat} {hs : Option (Bool × Nat)} {s t : St} {c : Cqe Sqe}
    {cs : List (Cqe Sqe)} (hi : Inv L s) (hit : Inv L t) (hpc : s.pc ≠ .done) (hpt : t.pc ≠ .done)
    (hsafe : Safe L s) (hcq : s.ring.cq = c :: cs) (h : c.op = acceptSqe L.listenFd L.acceptCtx)
    (hr : t.ring = s.ring.seen.pushAll (queued L now hs s c))
    (hss : t.sessions = (book L now hs s c).sessions) : Safe L t := by
  rw [hit.safe_iff hpt]
  have hb := hsafe.backed hi
  intro o ho k hk
  rw [hr] at ho
  rcases accept_cases now hs hi hpc hcq h with ha | ⟨ss, ops, ha⟩
  · rw [ha.queued] at ho
    rw [hss, ha.sessions]
    rcases mem_after hcq ho with ho | ho
    · exact hb o ho k hk
    · rw [List.mem_singleton.mp ho, accept_conn] at hk
      cases hk
  · rw [ha.queued] at ho
    rw [hss, ha.book, AList.lookup_insert_eq]
    rcases mem_after hcq ho with ho | ho
    · obtain ⟨ss', hl, hc⟩ := hb o ho k hk
      have hne : k.fd ≠ c.res := by
        intro e
        rw [e, ha.free] at hl
        cases hl
      rw [if_neg hne]
      exact ⟨ss', hl, hc⟩
    · rcases List.mem_append.mp ho with ho | ho
      · rw [(ha.first o ho).ofConn.conn] at hk
        cases hk
        rw [ha.conn, if_pos rfl]
        exact ⟨ss, rfl, ha.conn⟩
      · rw [List.mem_singleton.mp ho, accept_conn] at hk
        cases hk

/-- a step that leaves the table alone and only moves entries -/
theorem safe_move {s t : St} (hs : Safe L s) (hout : ∀ o, o ∈ t.ring.outstanding → o ∈ s.ring.outstanding)
    (hss : t.sessions = s.sessions) (hfr : t.freed = s.freed) : Safe L t := by
  intro o ho
  unfold LiveCtx
  rw [hss, hfr]
  exact hs o (hout o ho)

/-- **One step is safe exactly if it meets the condition.** -/
theorem safe_step (s : St) (a : Act) (t : St) (hi : Inv L s) (hs : Safe L s)
    (h : step L s a = some t) : Safe L t ↔ ReleasesIdle L s a := by
  have hit := inv_step s a t hi h
  cases a with
  | sweep now =>
    obtain ⟨hpc, -, rfl⟩ := step_sweep h
    exact safe_sweep hpc hi hs
  | reap =>
    refine iff_of_true ?_ trivial
    obtain ⟨-, ⟨-, rfl⟩ | ⟨-, rfl⟩⟩ := step_reap h
    · exact safe_move hs (fun o => IoRing.mem_outstanding_submit.mp) rfl rfl
    · exact safe_move hs (fun o => id) rfl rfl
  | cqe now hs' =>
    obtain ⟨n, c, cs, hc⟩ := step_cqe h
    show _ ↔ (_ → ∀ c' ss, s.ring.cq.head? = some c' → _)
    rw [hc.cq]
    cases (hi.ops _ (head_outstanding hc.cq)).shape with
    | accept hop =>
      refine iff_of_true (safe_accept hi hit hc.not_done.1 hc.not_done.2 hs hc.cq hop hc.ring
        hc.sessions) ?_
      intro _ c' ss hc' he
      cases hc'
      unfold ended at he
      rw [hop] at he
      cases he
    | session conn hop =>
      rw [safe_session hi hit hc.not_done.2 hs hc.cq hop hc.ring hc.sessions]
      constructor
      · intro hq hm c' ss hc'
        cases hc'
        exact hq hm ss
      · intro hq hm ss
        exact hq hm c ss rfl
  | submit =>
    obtain ⟨-, rfl⟩ := step_submit h
    exact iff_of_true (safe_move hs (fun o => IoRing.mem_outstanding_submit.mp) rfl rfl) trivial
  | finish =>
    obtain ⟨-, -, rfl⟩ := step_finish h
    exact safe_finish hs
  | signal =>
    obtain ⟨-, rfl⟩ := step_signal h
    exact iff_of_true (safe_move hs (fun o => id) rfl rfl) trivial
  | post i c =>
    refine iff_of_true ?_ trivial
    obtain ⟨-, p, r, -, hr, ⟨-, -, -, -, rfl⟩ | ⟨-, rfl⟩⟩ := step_post h
    · exact safe_move hs (fun o => (IoRing.mem_outstanding_post hr).mp) rfl rfl
    · exact safe_move hs (fun o => (IoRing.mem_outstanding_post hr).mp) rfl rfl
  | consume =>
    obtain ⟨-, r, hr, rfl⟩ := step_consume h
    exact iff_of_true (safe_move hs (fun o => (IoRing.mem_outstanding_consume hr).mp) rfl rfl) trivial

/-! ## whole runs -/

theorem safe_start (htcp : L.config.protocol = .tcp) (cap : Nat) : Safe L (start L cap) := by
  intro o ho
  rw [start_ring htcp, IoRing.mem_outstanding_submit] at ho
  rcases IoRing.mem_outstanding_pushAll _ ho with ho | ho
  · exact absurd ho List.not_mem_nil
  · rw [List.mem_singleton.mp ho]
    exact ⟨Or.inl rfl, nofun⟩

/-- **Lifetime.**  A run of the server is safe in every state exactly if every sweep, every
single-shot end of a connection and the final cleanup finds the sessions idle. -/
theorem safe_along_iff (htcp : L.config.protocol = .tcp) (cap : Nat) :
    Safe L (start L cap) ∧ ∀ as, Trans.Along (step L) (fun _ _ t => Safe L t) (start L cap) as ↔
      Trans.Along (step L) (fun s a _ => ReleasesIdle L s a) (start L cap) as :=
  ⟨safe_start htcp cap, fun as => Trans.along_iff (G := Safe L) inv_step (fun _ _ _ => id) safe_step as _
    (inv_start htcp cap) (safe_start htcp cap)⟩

/-- one reverse connection for one second, whose sends fail and are all processed before the deadline passes -/
def idleRun : List Act := List.flatten
  [[.post 0 (.plain 7), .sweep 0, .reap, .cqe 0 (some (true, 1)), .submit],
    List.replicate 32 (.post 0 (.plain (-104))), [.sweep 0, .reap], List.replicate 32 (.cqe 0 none),
    [.submit, .sweep second]]

/-- the sweep releases the 32 buffers of the connection, and every state is safe -/
theorem safe_along_iff_default : defaultSetup.config.protocol = .tcp ∧
    Trans.Along (step defaultSetup) (fun s a _ => ReleasesIdle defaultSetup s a) (start defaultSetup 256) idleRun ∧
    Trans.Along (step defaultSetup) (fun _ _ t => Safe defaultSetup t) (start defaultSetup 256) idleRun ∧
    (Trans.runFrom (step defaultSetup) (start defaultSetup 256) idleRun).any
      (fun s => decide (s.freed.length = 32 ∧ s.sessions.lookup 7 = none)) = true := by
  have hidle : Trans.Along (step defaultSetup) (fun s a _ => ReleasesIdle defaultSetup s a) (start defaultSetup 256)
      idleRun := by decide +kernel
  exact ⟨rfl, hidle, ((safe_along_iff rfl 256).2 idleRun).mpr hidle, by decide +kernel⟩

/-- one reverse connection for one second; its sends are in the kernel when the deadline passes -/
def deadlineRun : List Act :=
  [.post 0 (.plain 7), .sweep 0, .reap, .cqe 0 (some (true, 1)), .submit, .sweep second]

/-- the sweep releases the buffers and the contexts of the sends that are in the kernel -/
theorem deadlineRun_unsafe : ∃ s, Trans.Reach (step defaultSetup)
    (start defaultSetup 256) s ∧ ¬ Safe defaultSetup s := by
  have h : ((Trans.runFrom (step defaultSetup) (start defaultSetup 256)
      deadlineRun).any fun s => s.ring.outstanding.any fun o => o.buf.any fun p =>
        decide (p ∈ s.freed)) = true := by decide +kernel
  obtain ⟨s, hs, h⟩ := (Option.any_eq_true _ _).mp h
  obtain ⟨o, ho, h⟩ := List.any_eq_true.mp h
  obtain ⟨p, hp, h⟩ := (Option.any_eq_true _ _).mp h
  refine ⟨s, Trans.Reach.of_runFrom _ hs, fun hsafe => ?_⟩
  exact (hsafe o ho).2 p hp (of_decide_eq_true h)

end
end Server
end UringPerf
