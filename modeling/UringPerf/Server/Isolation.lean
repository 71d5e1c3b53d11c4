import UringPerf.Server.Preserve

/-!
# Isolation of the sessions under descriptor reuse (TCP)

The handlers find a session by the descriptor number in the context, and the number may meanwhile
belong to another connection.  Multishot receives are always processed while their own session is in
the table; sends and single-shot receives are not.

* `Taken`               the number of a connection now belongs to another one;
* `QueueClean`          no queued send or receive is for a connection whose number is taken;
* `Isolated`            what a step must respect;
* `OwnDescriptor`       the condition on the step: a stale send is not repeated for a successor, a
                        stale receive neither repeated on it nor allowed to end it, and no number is
                        handed out again while an entry with it is queued;
* `isolated_along_iff`  a run is isolated exactly if all its steps meet the condition.
-/

namespace UringPerf
namespace Server
open Uring

section
variable (L : Setup)

def Taken (s : St) (conn : Conn) : Prop := s.isOpen conn.fd = true ∧ s.gen conn.fd ≠ conn.gen

def QueueClean (s : St) : Prop :=
  ∀ o ∈ s.ring.sq, ∀ conn, o.conn = some conn → ¬ Taken s conn

/-- Processing the completion `c` of an operation of `conn`: the other sessions stay in the table and
stay open, and a send is queued again only while `conn` has its session and before its deadline. -/
structure IsolatedCqe (now : Nat) (s t : St) (c : Cqe Sqe) (conn : Conn) : Prop where
  kept : ∀ f ss, s.sessions.lookup f = some ss → ss.conn ≠ conn →
    t.sessions.lookup f = some ss ∧ t.isOpen f = true
  deadline : c.op.userData.type = .send → t.ring.sq.drop s.ring.sq.length ≠ [] →
    ∃ ss, s.sessions.lookup conn.fd = some ss ∧ ss.conn = conn ∧ now < ss.deadline

def Isolated (s : St) (a : Act) (t : St) : Prop :=
  QueueClean t ∧ match a with
    | .cqe now _ => ∀ c conn, s.ring.cq.head? = some c → c.op.conn = some conn →
        IsolatedCqe now s t c conn
    | _ => True

/-- a completion of an operation of `conn` acts on its own connection only -/
structure OwnCqe (now : Nat) (s : St) (c : Cqe Sqe) (conn : Conn) : Prop where
  resend : c.op.userData.type = .send → s.ring.sq.length < s.ring.cap → c.notif = false →
    isRepeat c.res = true → s.stop = false →
    ∀ ss, s.sessions.lookup conn.fd = some ss → now < ss.deadline → ss.conn = conn
  rerecv : c.op.userData.type = .recv → L.useMultishot = false → s.ring.sq.length < s.ring.cap →
    isRepeat c.res = true → ¬ Taken s conn
  ends : c.op.userData.type = .recv → L.useMultishot = false → isRepeat c.res = false →
    ∀ ss, s.sessions.lookup conn.fd = some ss → ss.conn = conn

def OwnDescriptor (s : St) : Act → Prop
  | .cqe now _ => ∀ c conn, s.ring.cq.head? = some c → c.op.conn = some conn → OwnCqe L now s c conn
  | .post i c => ∀ p, s.ring.kern[i]? = some p → p.op.opcode = .accept → 0 ≤ c.res →
      ∀ o ∈ s.ring.sq, ∀ conn, o.conn = some conn → conn.fd ≠ c.res
  | _ => True

instance (s : St) (conn : Conn) : Decidable (Taken s conn) :=
  inferInstanceAs (Decidable (s.isOpen conn.fd = true ∧ s.gen conn.fd ≠ conn.gen))

instance (now : Nat) (s : St) (c : Cqe Sqe) (conn : Conn) : Decidable (OwnCqe L now s c conn) :=
  let found : Option ClientSession := s.sessions.lookup conn.fd
  have resend : Decidable (c.op.userData.type = .send → s.ring.sq.length < s.ring.cap → c.notif = false →
    isRepeat c.res = true → s.stop = false → ∀ ss ∈ found, now < ss.deadline → ss.conn = conn) := inferInstance
  have rerecv : Decidable (c.op.userData.type = .recv → L.useMultishot = false → s.ring.sq.length < s.ring.cap →
    isRepeat c.res = true → ¬ Taken s conn) := inferInstance
  have ends : Decidable (c.op.userData.type = .recv → L.useMultishot = false → isRepeat c.res = false →
    ∀ ss ∈ found, ss.conn = conn) := inferInstance
  @decidable_of_iff _ _ ⟨fun h => ⟨h.1, h.2.1, h.2.2⟩, fun h => ⟨h.resend, h.rerecv, h.ends⟩⟩
    (@instDecidableAnd _ _ resend (@instDecidableAnd _ _ rerecv ends))

instance (s : St) : (a : Act) → Decidable (OwnDescriptor L s a)
  | .cqe now _ => decidable_of_iff (∀ c ∈ s.ring.cq.head?, ∀ conn ∈ c.op.conn, OwnCqe L now s c conn)
      ⟨fun h c conn hc hconn => h c hc conn hconn, fun h c hc conn hconn => h c conn hc hconn⟩
  | .post i c => inferInstanceAs (Decidable (∀ p ∈ s.ring.kern[i]?, p.op.opcode = .accept → 0 ≤ c.res →
      ∀ o ∈ s.ring.sq, ∀ conn ∈ o.conn, conn.fd ≠ c.res))
  | .sweep _ | .reap | .submit | .finish | .signal | .consume => isTrue trivial

variable {L}

/-! ## the queue -/

/-- a descriptor that closes is not taken, and an entry that leaves the queue does not matter -/
theorem QueueClean.shrink {s t : St} (h : QueueClean s) (hsq : ∀ o ∈ t.ring.sq, o ∈ s.ring.sq)
    (hgen : t.gen = s.gen) (hop : ∀ f, t.isOpen f = true → s.isOpen f = true) : QueueClean t := by
  intro o ho conn hc ht
  refine h o (hsq o ho) conn hc ⟨hop _ ht.1, ?_⟩
  rw [← hgen]
  exact ht.2

theorem sq_after {s t : St} {ops : List Sqe} (hr : t.ring = s.ring.seen.pushAll ops) :
    t.ring.sq = s.ring.sq ++ ops.take (s.ring.cap - s.ring.sq.length) := by
  rw [hr, (IoRing.pushAll_sq _ ops).1]
  rfl

theorem clean_after {s t : St} {ops : List Sqe} (h : QueueClean s)
    (hr : t.ring = s.ring.seen.pushAll ops) (hgen : t.gen = s.gen)
    (hop : ∀ f, t.isOpen f = true → s.isOpen f = true) :
    QueueClean t ↔ ∀ o ∈ ops.take (s.ring.cap - s.ring.sq.length), ∀ conn, o.conn = some conn →
      ¬ Taken t conn := by
  have hsq := sq_after hr
  constructor
  · intro hc o ho
    apply hc o
    rw [hsq]
    exact List.mem_append_right _ ho
  · intro hn o ho conn hc ht
    rw [hsq] at ho
    rcases List.mem_append.mp ho with ho | ho
    · refine h o ho conn hc ⟨hop _ ht.1, ?_⟩
      rw [← hgen]
      exact ht.2
    · exact hn o ho conn hc ht

/-- the entries that a completion has put on the queue -/
theorem drop_after {s t : St} {ops : List Sqe} (hr : t.ring = s.ring.seen.pushAll ops) :
    t.ring.sq.drop s.ring.sq.length = ops.take (s.ring.cap - s.ring.sq.length) := by
  rw [sq_after hr, List.drop_left]

theorem take_single {s : St} (o : Sqe) (hroom : s.ring.sq.length < s.ring.cap) :
    [o].take (s.ring.cap - s.ring.sq.length) = [o] := by
  apply List.take_of_length_le
  rw [List.length_singleton]
  omega

theorem take_full {s : St} (ops : List Sqe) (hroom : ¬ s.ring.sq.length < s.ring.cap) :
    ops.take (s.ring.cap - s.ring.sq.length) = [] := by
  rw [show s.ring.cap - s.ring.sq.length = 0 by omega]
  exact List.take_zero

theorem Inv.not_taken {s : St} (hi : Inv L s) {conn : Conn} {ss : ClientSession}
    (hl : s.sessions.lookup conn.fd = some ss) (hc : ss.conn = conn) : ¬ Taken s conn := by
  intro ht
  have h1 := (hi.sess _ ss hl).conn
  rw [hc] at h1
  exact ht.2 (congrArg Conn.gen h1).symm

theorem Inv.taken {s : St} (hi : Inv L s) (hpc : s.pc ≠ .done) {conn : Conn} {ss : ClientSession}
    (hl : s.sessions.lookup conn.fd = some ss) (hc : ss.conn ≠ conn) : Taken s conn := by
  have hs := hi.sess _ ss hl
  refine ⟨hs.isOpen hpc, fun hg => hc ?_⟩
  rw [hs.conn, hg]

/-! ## when a completion queues its entry again -/

theorem queued_send_iff {now : Nat} {hs : Option (Bool × Nat)} {s : St} {c : Cqe Sqe}
    (ht : c.op.userData.type = .send) : queued L now hs s c ≠ [] ↔
      c.notif = false ∧ isRepeat c.res = true ∧ keepSending now s c.op.userData = true := by
  unfold queued
  rw [ht]
  dsimp only
  split
  · rename_i h
    simp only [Bool.and_eq_true, Bool.not_eq_true'] at h
    exact iff_of_true (List.cons_ne_nil _ _) ⟨h.1.1, h.1.2, h.2⟩
  · rename_i h
    simp only [Bool.and_eq_true, Bool.not_eq_true'] at h
    exact iff_of_false (fun h' => h' rfl) (fun h' => h ⟨⟨h'.1, h'.2.1⟩, h'.2.2⟩)

theorem queued_recv_iff {now : Nat} {hs : Option (Bool × Nat)} {s : St} {c : Cqe Sqe}
    (ht : c.op.userData.type = .recv) (hm : L.useMultishot = false) :
    queued L now hs s c ≠ [] ↔ isRepeat c.res = true := by
  unfold queued
  rw [ht, hm]
  dsimp only
  rw [if_neg Bool.false_ne_true]
  split
  · rename_i h
    exact iff_of_true (List.cons_ne_nil _ _) h
  · rename_i h
    exact iff_of_false (fun h' => h' rfl) h

theorem recvEnds_single (hm : L.useMultishot = false) (c : Completion) :
    recvEnds L c = !isRepeat c.res := by
  unfold recvEnds isRepeat
  rw [hm, if_neg Bool.false_ne_true, Bool.not_or]

/-! ## one completion -/

section
variable {now : Nat} {hs : Option (Bool × Nat)} {s t : St} {c : Cqe Sqe} {cs : List (Cqe Sqe)}
  {conn : Conn}

theorem book_isOpen (h : OfConn L c.op conn) (f : Int)
    (hf : (book L now hs s c).isOpen f = true) : s.isOpen f = true := by
  rw [book_session h] at hf
  cases he : ended L s c with
  | none =>
    rw [he] at hf
    exact hf
  | some ss =>
    rw [he] at hf
    replace hf : Function.update s.isOpen conn.fd false f = true := hf
    rw [Function.update_apply] at hf
    split at hf
    · cases hf
    · exact hf

theorem book_gen (h : OfConn L c.op conn) : (book L now hs s c).gen = s.gen := by
  rw [book_session h]
  cases ended L s c <;> rfl

/-- a completion either queues its entry again or ends a session -/
theorem book_of_queued (h : OfConn L c.op conn) (hq : queued L now hs s c ≠ []) :
    book L now hs s c = s := by
  rw [book_session h]
  cases he : ended L s c with
  | none => rfl
  | some ss =>
    unfold ended at he
    split at he
    · rename_i hc
      exact absurd (queued_end hc.1 hc.2) hq
    · cases he

theorem clean_iff (hcl : QueueClean s) (h : OfConn L c.op conn)
    (hr : t.ring = s.ring.seen.pushAll (queued L now hs s c))
    (hgen : t.gen = (book L now hs s c).gen) (hop : t.isOpen = (book L now hs s c).isOpen) :
    QueueClean t ↔
      (s.ring.sq.length < s.ring.cap → queued L now hs s c ≠ [] → ¬ Taken s conn) := by
  rw [clean_after hcl hr (hgen.trans (book_gen h)) (fun f hf => book_isOpen h f (by rw [← hop]; exact hf))]
  by_cases hroom : s.ring.sq.length < s.ring.cap
  · rcases queued_again h with hq | ⟨o, hq, ha, -⟩
    · rw [hq, List.take_nil]
      exact iff_of_true (fun o ho => absurd ho List.not_mem_nil) (fun _ h => absurd rfl h)
    · have hne : queued L now hs s c ≠ [] := by
        rw [hq]
        exact List.cons_ne_nil _ _
      have hb := book_of_queued h hne
      rw [hb] at hgen hop
      have ht : Taken t conn ↔ Taken s conn := by
        unfold Taken
        rw [hgen, hop]
      rw [hq, take_single o hroom]
      constructor
      · intro hall _ _ htk
        exact hall o (List.mem_singleton_self o) conn ha.ofConn.conn (ht.mpr htk)
      · intro hn o' ho' conn' hc' htk
        rw [List.mem_singleton.mp ho', ha.ofConn.conn] at hc'
        cases hc'
        exact hn hroom (List.cons_ne_nil _ _) (ht.mp htk)
  · rw [take_full _ hroom]
    exact iff_of_true (fun o ho => absurd ho List.not_mem_nil) (fun h => absurd h hroom)

theorem kept_iff (hi : Inv L s) (hpc : s.pc ≠ .done) (h : OfConn L c.op conn)
    (hss : t.sessions = (book L now hs s c).sessions) (hop : t.isOpen = (book L now hs s c).isOpen) :
    (∀ f ss, s.sessions.lookup f = some ss → ss.conn ≠ conn →
      t.sessions.lookup f = some ss ∧ t.isOpen f = true) ↔
      ∀ ss, ended L s c = some ss → ss.conn = conn := by
  rw [book_session h] at hss hop
  cases he : ended L s c with
  | none =>
    rw [he] at hss hop
    refine iff_of_true (fun f ss hl _ => ?_) (fun ss h => by cases h)
    rw [hss, hop]
    exact ⟨hl, (hi.sess f ss hl).isOpen hpc⟩
  | some ss =>
    obtain ⟨-, -, hl⟩ := ended_some h he
    rw [he] at hss hop
    replace hss : t.sessions = s.sessions.erase conn.fd := hss
    replace hop : t.isOpen = Function.update s.isOpen conn.fd false := hop
    constructor
    · intro hk ss' hss'
      cases hss'
      by_contra hne
      have h1 := (hk conn.fd ss hl hne).1
      rw [hss, AList.lookup_erase_eq, if_pos rfl] at h1
      cases h1
    · intro hown f ss' hl' hne
      have hf : f ≠ conn.fd := by
        intro e
        rw [e, hl] at hl'
        cases hl'
        exact hne (hown ss rfl)
      rw [hss, hop, AList.lookup_erase_eq, if_neg hf, Function.update_of_ne hf]
      exact ⟨hl', (hi.sess f ss' hl').isOpen hpc⟩

/-- a multishot receive is processed while its own session is in the table -/
theorem multishot_own (hi : Inv L s) (hm : L.useMultishot = true) (hcq : s.ring.cq = c :: cs)
    (h : OfConn L c.op conn) (ht : c.op.userData.type = .recv) :
    ∃ ss, s.sessions.lookup conn.fd = some ss ∧ ss.conn = conn := by
  rcases h.recv ht with h1 | h1
  · obtain ⟨ss, hl, hc, -⟩ :=
      (hi.ops _ (head_outstanding hcq)).live conn (msKey_some.mpr ⟨h1.1, h.conn⟩)
    exact ⟨ss, hl, hc⟩
  · rw [hm] at h1
    cases h1.2

theorem own_of_isolated (hi : Inv L s) (hpc : s.pc ≠ .done) (h : OfConn L c.op conn)
    (hclean : s.ring.sq.length < s.ring.cap → queued L now hs s c ≠ [] → ¬ Taken s conn)
    (hkept : ∀ ss, ended L s c = some ss → ss.conn = conn) : OwnCqe L now s c conn := by
  refine ⟨?_, ?_, ?_⟩
  · intro ht hroom hn hrep hstop ss hl hd
    have hk : keepSending now s c.op.userData = true :=
      keepSending_iff.mpr ⟨ss, by rw [h.ctxFd]; exact hl, hd, hstop⟩
    have hnt := hclean hroom ((queued_send_iff ht).mpr ⟨hn, hrep, hk⟩)
    by_contra hne
    exact hnt (hi.taken hpc hl hne)
  · intro ht hm hroom hrep
    exact hclean hroom ((queued_recv_iff ht hm).mpr hrep)
  · intro ht hm hrep ss hl
    apply hkept ss
    unfold ended
    rw [if_pos ⟨ht, by rw [recvEnds_single hm, hrep]; rfl⟩, h.ctxFd]
    exact hl

/-- what `OwnCqe` says about the session that a send finds -/
theorem OwnCqe.found (hown : OwnCqe L now s c conn) (h : OfConn L c.op conn)
    (ht : c.op.userData.type = .send) (hroom : s.ring.sq.length < s.ring.cap)
    (hq : queued L now hs s c ≠ []) :
    ∃ ss, s.sessions.lookup conn.fd = some ss ∧ ss.conn = conn ∧ now < ss.deadline := by
  obtain ⟨hn, hrep, hk⟩ := (queued_send_iff ht).mp hq
  obtain ⟨ss, hl, hd, hstop⟩ := keepSending_iff.mp hk
  rw [h.ctxFd] at hl
  exact ⟨ss, hl, hown.resend ht hroom hn hrep hstop ss hl hd, hd⟩

theorem OwnCqe.clean (hown : OwnCqe L now s c conn) (hi : Inv L s) (hcq : s.ring.cq = c :: cs)
    (h : OfConn L c.op conn) (hroom : s.ring.sq.length < s.ring.cap)
    (hq : queued L now hs s c ≠ []) : ¬ Taken s conn := by
  rcases h.type with ⟨ht, -⟩ | ⟨ht, -, hm, -⟩ | ⟨ht, -, hm⟩
  · obtain ⟨ss, hl, hc, -⟩ := hown.found h ht hroom hq
    exact hi.not_taken hl hc
  · obtain ⟨ss, hl, hc⟩ := multishot_own hi hm hcq h ht
    exact hi.not_taken hl hc
  · exact hown.rerecv ht hm hroom ((queued_recv_iff ht hm).mp hq)

theorem OwnCqe.ended (hown : OwnCqe L now s c conn) (hi : Inv L s) (hcq : s.ring.cq = c :: cs)
    (h : OfConn L c.op conn) {ss : ClientSession} (he : Server.ended L s c = some ss) :
    ss.conn = conn := by
  obtain ⟨ht, hends, hl⟩ := ended_some h he
  cases hm : L.useMultishot with
  | true =>
    obtain ⟨ss', hl', hc⟩ := multishot_own hi hm hcq h ht
    rw [hl] at hl'
    cases hl'
    exact hc
  | false =>
    rw [recvEnds_single hm, Bool.not_eq_true'] at hends
    exact hown.ends ht hm hends ss hl

/-- **One completion is isolated exactly if it acts on its own connection.** -/
theorem isolatedCqe_iff (hi : Inv L s) (hpc : s.pc ≠ .done) (hcl : QueueClean s)
    (hcq : s.ring.cq = c :: cs) (h : OfConn L c.op conn)
    (hr : t.ring = s.ring.seen.pushAll (queued L now hs s c))
    (hss : t.sessions = (book L now hs s c).sessions) (hgen : t.gen = (book L now hs s c).gen)
    (hop : t.isOpen = (book L now hs s c).isOpen) :
    (QueueClean t ∧ IsolatedCqe now s t c conn) ↔ OwnCqe L now s c conn := by
  have h1 := clean_iff hcl h hr hgen hop
  have h2 := kept_iff hi hpc h hss hop
  constructor
  · rintro ⟨hc, hi'⟩
    exact own_of_isolated hi hpc h (h1.mp hc) (h2.mp hi'.kept)
  · intro hown
    refine ⟨h1.mpr (hown.clean hi hcq h), h2.mpr (fun ss he => hown.ended hi hcq h he), ?_⟩
    intro ht hne
    rw [drop_after hr] at hne
    by_cases hroom : s.ring.sq.length < s.ring.cap
    · have hq : queued L now hs s c ≠ [] := fun hq => hne (by rw [hq, List.take_nil])
      exact hown.found h ht hroom hq
    · exact absurd (take_full _ hroom) hne

end

/-! ## one step -/

theorem clean_accept {now : Nat} {hs : Option (Bool × Nat)} {s t : St} {c : Cqe Sqe}
    {cs : List (Cqe Sqe)} (hi : Inv L s) (hpc : s.pc ≠ .done) (hcl : QueueClean s)
    (hcq : s.ring.cq = c :: cs) (h : c.op = acceptSqe L.listenFd L.acceptCtx)
    (hr : t.ring = s.ring.seen.pushAll (queued L now hs s c))
    (hgen : t.gen = (book L now hs s c).gen) (hop : t.isOpen = (book L now hs s c).isOpen) :
    QueueClean t := by
  rcases accept_cases now hs hi hpc hcq h with ha | ⟨ss, ops, ha⟩
  · refine (clean_after hcl hr (hgen.trans ha.gen) ?_).mpr ?_
    · intro f hf
      rw [hop] at hf
      exact ha.stays f hf
    · intro o ho conn hc
      rw [ha.queued] at ho
      rw [List.mem_singleton.mp (List.mem_of_mem_take ho), accept_conn] at hc
      cases hc
  · rw [ha.book] at hgen hop
    replace hop : t.isOpen = s.isOpen := hop
    refine (clean_after hcl hr hgen (fun f hf => by rwa [hop] at hf)).mpr ?_
    intro o ho conn hc ht
    rw [ha.queued] at ho
    rcases List.mem_append.mp (List.mem_of_mem_take ho) with ho | ho
    · rw [(ha.first o ho).ofConn.conn] at hc
      cases hc
      refine ht.2 ?_
      rw [hgen, ha.conn]
      rfl
    · rw [List.mem_singleton.mp ho, accept_conn] at hc
      cases hc

/-- the number that an accept hands out is taken from every older connection -/
theorem clean_post_accept {s : St} {i : Nat} {c : Completion} {r : IoRing Sqe} (hi : Inv L s)
    (hcl : QueueClean s) (hr : s.ring.post Sqe.kind i c = some r) :
    QueueClean { s.withRing r with
      gen := Function.update s.gen c.res (s.gen c.res + 1)
      isOpen := Function.update s.isOpen c.res true } ↔
      ∀ o ∈ s.ring.sq, ∀ conn, o.conn = some conn → conn.fd ≠ c.res := by
  obtain ⟨p, rest, -, -, -, -, -, hsq, -⟩ := IoRing.post_some hr
  show (∀ o ∈ r.sq, ∀ conn, o.conn = some conn → ¬ (Function.update s.isOpen c.res true conn.fd = true ∧
    Function.update s.gen c.res (s.gen c.res + 1) conn.fd ≠ conn.gen)) ↔ _
  rw [hsq]
  constructor
  · intro hn o ho conn hc hf
    have hold := ((hi.ops o (IoRing.mem_outstanding.mpr (Or.inl ho))).old conn hc).1
    refine hn o ho conn hc ?_
    rw [hf] at hold ⊢
    rw [Function.update_self, Function.update_self]
    exact ⟨rfl, by omega⟩
  · intro hn o ho conn hc ht
    have hf := hn o ho conn hc
    rw [Function.update_of_ne hf, Function.update_of_ne hf] at ht
    exact hcl o ho conn hc ht

/-- **One step is isolated exactly if it meets the condition.** -/
theorem isolated_step (s : St) (a : Act) (t : St) (hi : Inv L s) (hcl : QueueClean s)
    (h : step L s a = some t) : Isolated s a t ↔ OwnDescriptor L s a := by
  cases a with
  | sweep now =>
    obtain ⟨-, -, rfl⟩ := step_sweep h
    refine iff_of_true ⟨hcl.shrink (fun o ho => ?_) (by rw [sweep_eq]) (fun f hf => ?_), trivial⟩ trivial
    · replace ho : o ∈ (sweep now s).ring.sq := ho
      rwa [sweep_eq] at ho
    · replace hf : (sweep now s).isOpen f = true := hf
      rw [sweep_eq] at hf
      replace hf : closeAll _ s.isOpen f = true := hf
      rw [closeAll_eq, Bool.and_eq_true] at hf
      exact hf.1
  | reap =>
    refine iff_of_true ⟨?_, trivial⟩ trivial
    obtain ⟨-, ⟨-, rfl⟩ | ⟨-, rfl⟩⟩ := step_reap h
    · exact hcl.shrink (fun o => IoRing.mem_submit_sq s.ring) rfl (fun f => id)
    · exact hcl
  | cqe now hs =>
    obtain ⟨n, c, cs, hs'⟩ := step_cqe h
    show (_ ∧ ∀ c' conn, s.ring.cq.head? = some c' → _) ↔ ∀ c' conn, s.ring.cq.head? = some c' → _
    rw [hs'.cq]
    cases (hi.ops _ (head_outstanding hs'.cq)).shape with
    | accept hop =>
      have hn : ∀ c' conn, (c :: cs).head? = some c' → ¬ c'.op.conn = some conn := by
        intro c' conn hc' hc
        cases hc'
        rw [hop, accept_conn] at hc
        cases hc
      refine iff_of_true ⟨clean_accept hi hs'.not_done.1 hcl hs'.cq hop hs'.ring hs'.gen hs'.isOpen, ?_⟩ ?_
      · exact fun c' conn hc' hc => absurd hc (hn c' conn hc')
      · exact fun c' conn hc' hc => absurd hc (hn c' conn hc')
    | session conn hop =>
      have hiff := isolatedCqe_iff hi hs'.not_done.1 hcl hs'.cq hop hs'.ring hs'.sessions hs'.gen
        hs'.isOpen
      constructor
      · rintro ⟨hc, hall⟩ c' conn' hc' hconn
        cases hc'
        rw [hop.conn] at hconn
        cases hconn
        exact hiff.mp ⟨hc, hall c conn rfl hop.conn⟩
      · intro hown
        obtain ⟨hc, hisol⟩ := hiff.mpr (hown c conn rfl hop.conn)
        refine ⟨hc, fun c' conn' hc' hconn => ?_⟩
        cases hc'
        rw [hop.conn] at hconn
        cases hconn
        exact hisol
  | submit =>
    obtain ⟨-, rfl⟩ := step_submit h
    refine iff_of_true ⟨?_, trivial⟩ trivial
    exact hcl.shrink (fun o => IoRing.mem_submit_sq s.ring) rfl (fun f => id)
  | finish =>
    obtain ⟨-, -, rfl⟩ := step_finish h
    refine iff_of_true ⟨hcl.shrink (fun o ho => ?_) (by rw [cleanup_eq]) (fun f hf => ?_), trivial⟩ trivial
    · replace ho : o ∈ (cleanup s).ring.sq := ho
      rwa [cleanup_eq] at ho
    · replace hf : (cleanup s).isOpen f = true := hf
      rw [cleanup_eq] at hf
      replace hf : closeAll _ s.isOpen f = true := hf
      rw [closeAll_eq, Bool.and_eq_true] at hf
      exact hf.1
  | signal =>
    obtain ⟨-, rfl⟩ := step_signal h
    exact iff_of_true ⟨hcl, trivial⟩ trivial
  | post i c =>
    obtain ⟨-, p, r, hp, hr, ⟨ha, hres, -, -, rfl⟩ | ⟨hna, rfl⟩⟩ := step_post h
    · show (_ ∧ True) ↔ _
      rw [and_true, clean_post_accept hi hcl hr]
      constructor
      · intro hn p' _ _ _
        exact hn
      · intro hn
        exact hn p hp ha hres
    · obtain ⟨q, rest, -, -, -, -, -, hsq, -⟩ := IoRing.post_some hr
      refine iff_of_true ⟨hcl.shrink (fun o ho => ?_) rfl (fun f => id), trivial⟩ ?_
      · replace ho : o ∈ r.sq := ho
        rwa [hsq] at ho
      · intro p' hp' ha hres
        rw [hp] at hp'
        cases hp'
        exact absurd ⟨ha, hres⟩ hna
  | consume =>
    obtain ⟨-, r, hr, rfl⟩ := step_consume h
    obtain ⟨op, hsq, -⟩ := IoRing.consume_some hr
    refine iff_of_true ⟨hcl.shrink (fun o ho => ?_) rfl (fun f => id), trivial⟩ trivial
    rw [hsq]
    exact List.mem_cons_of_mem _ ho

/-! ## whole runs -/

theorem clean_start (cap : Nat) : QueueClean (start L cap) := by
  intro o _ conn _ ht
  exact absurd ht.1 Bool.false_ne_true

/-- **Isolation.**  In a run of the server every step is isolated exactly if every step acts on its
own descriptor. -/
theorem isolated_along_iff (htcp : L.config.protocol = .tcp) (cap : Nat) (as : List Act) :
    Trans.Along (step L) Isolated (start L cap) as ↔
      Trans.Along (step L) (fun s a _ => OwnDescriptor L s a) (start L cap) as :=
  Trans.along_iff (G := QueueClean) inv_step (fun _ _ _ h => h.1) isolated_step as _ (inv_start htcp cap)
    (clean_start cap)

/-- a reverse connection on descriptor 7 repeats a send; all its sends have failed when it runs into its deadline, and
then a second one gets the number 7 and repeats a send of its own -/
def ownRun : List Act := List.flatten
  [[.post 0 (.plain 7), .sweep 0, .reap, .cqe 0 (some (true, 1)), .submit, .post 0 (.plain 100), .sweep 0, .reap,
      .cqe 0 none, .submit],
    List.replicate 31 (.post 0 (.plain (-104))), [.post 1 (.plain (-104)), .sweep 0, .reap],
    List.replicate 32 (.cqe 0 none), [.submit, .sweep second, .reap, .post 0 (.plain 7), .sweep second, .reap,
      .cqe second (some (true, 1)), .submit, .post 0 (.plain 100), .sweep second, .reap, .cqe second none]]

/-- each of them has its send on the queue again, and every step is isolated -/
theorem isolated_along_iff_default : defaultSetup.config.protocol = .tcp ∧
    Trans.Along (step defaultSetup) (fun s a _ => OwnDescriptor defaultSetup s a) (start defaultSetup 256) ownRun ∧
    Trans.Along (step defaultSetup) Isolated (start defaultSetup 256) ownRun ∧
    (Trans.runFrom (step defaultSetup) (start defaultSetup 256) (ownRun.take 9)).any
      (fun s => decide (s.ring.sq.map Sqe.conn = [some ⟨7, 1⟩])) = true ∧
    (Trans.runFrom (step defaultSetup) (start defaultSetup 256) ownRun).any
      (fun s => decide (s.ring.sq.map Sqe.conn = [some ⟨7, 2⟩])) = true := by
  have hown : Trans.Along (step defaultSetup) (fun s a _ => OwnDescriptor defaultSetup s a) (start defaultSetup 256)
      ownRun := by decide +kernel
  exact ⟨rfl, hown, (isolated_along_iff rfl 256 ownRun).mpr hown, by decide +kernel, by decide +kernel⟩

/-- a reverse connection on descriptor 7 runs into its deadline, a second one gets the number 7, and
then the first one's send completes -/
def reuseRun : List Act :=
  [.post 0 (.plain 7), .sweep 0, .reap, .cqe 0 (some (true, 1)), .submit, .sweep second, .reap,
    .post 32 (.plain 7), .sweep second, .reap, .cqe second (some (true, 1)), .submit,
    .post 0 (.plain 100), .sweep second, .reap]

/-- the send of the first connection is queued again on the second one -/
theorem reuseRun_not_isolated : ∃ s a t, Trans.Reach (step defaultSetup)
      (start defaultSetup 256) s ∧
    step defaultSetup s a = some t ∧ ¬ Isolated s a t := by
  have h : ((Trans.runFrom (step defaultSetup) (start defaultSetup 256)
      reuseRun).any fun s => (step defaultSetup s (.cqe second none)).any fun t =>
        t.ring.sq.any fun o => o.conn.any fun conn =>
          t.isOpen conn.fd && decide (t.gen conn.fd ≠ conn.gen)) = true := by decide +kernel
  obtain ⟨s, hs, h⟩ := (Option.any_eq_true _ _).mp h
  obtain ⟨t, ht, h⟩ := (Option.any_eq_true _ _).mp h
  obtain ⟨o, ho, h⟩ := List.any_eq_true.mp h
  obtain ⟨conn, hc, h⟩ := (Option.any_eq_true _ _).mp h
  rw [Bool.and_eq_true, decide_eq_true_eq] at h
  exact ⟨s, .cqe second none, t, Trans.Reach.of_runFrom _ hs, ht, fun hi => hi.1 o ho conn hc h⟩

end
end Server
end UringPerf
