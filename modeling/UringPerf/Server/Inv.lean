import UringPerf.Server.Effect
import UringPerf.Base.Run

/-!
# The invariant of the server loop (TCP)

`Inv L s` ties together the session table, the outstanding operations, the pending accept and the
kernel's descriptors, for every mix of connections and every order of completions:

* `Shape`     an outstanding entry is the accept, or a send, a receive or a multishot receive of a
              connection, and carries that connection's descriptor and buffer;
* `Old`       a connection has been given its session before the number was handed out again;
* `OpInv`     an entry whose connection is in the table belongs to that session, and a multishot
              receive always does;
* `SessInv`   a session stands under its own descriptor, which is open and belongs to it;
* `Single`    at most one accept, and at most one multishot receive for each connection.

`Inv.leave` is the rule for the steps that enter no session.
-/

namespace UringPerf
namespace Server
open Uring

section
variable (L : Setup)

/-! ## the parts of the invariant -/

def accKey (o : Sqe) : Option Unit := if o.opcode = .accept then some () else none

def msKey (o : Sqe) : Option Conn := if o.opcode = .recvMultishot then o.conn else none

/-- an operation of the connection `conn` -/
structure OfConn (o : Sqe) (conn : Conn) : Prop where
  owner : o.userData.addr.owner = .session conn
  ctxFd : o.userData.fd = conn.fd
  fd : o.fd = conn.fd
  buf : o.buf = o.userData.bufPtr
  bufOwner : ∀ p, o.buf = some p → p.owner = .session conn
  type : (o.userData.type = .send ∧ (o.opcode = .send ∨ o.opcode = .sendZc)) ∨
    (o.userData.type = .recv ∧ o.opcode = .recvMultishot ∧ L.useMultishot = true ∧
      o.userData.bufPtr = none) ∨
    (o.userData.type = .recv ∧ o.opcode = .recv ∧ L.useMultishot = false)

inductive Shape (o : Sqe) : Prop where
  | accept (h : o = acceptSqe L.listenFd L.acceptCtx)
  | session (conn : Conn) (h : OfConn L o conn)

/-- the contexts a session owns -/
def ClientSession.owned (ss : ClientSession) : List IOContext := ss.contexts ++ ss.msCtx.toList

/-- an accept completion with the descriptor `f` has not been processed yet -/
def Pend (s : St) (f : Int) : Prop := ∃ c ∈ s.ring.cq, accepts c = true ∧ c.res = f

/-- the accept of `conn` has been processed -/
def Old (s : St) (conn : Conn) : Prop :=
  conn.gen ≤ s.gen conn.fd ∧ (Pend s conn.fd → conn.gen < s.gen conn.fd)

structure OpInv (s : St) (o : Sqe) : Prop where
  shape : Shape L o
  old : ∀ conn, o.conn = some conn → Old s conn
  owned : ∀ conn ss, o.conn = some conn → s.sessions.lookup conn.fd = some ss → ss.conn = conn →
    o.userData ∈ ss.owned ∧ ∀ p, o.buf = some p → p ∈ ss.buffers
  live : ∀ conn, msKey o = some conn →
    ∃ ss, s.sessions.lookup conn.fd = some ss ∧ ss.conn = conn ∧ ss.isReverse = false

structure SessInv (s : St) (f : Int) (ss : ClientSession) : Prop where
  fd : ss.clientFd = f
  conn : ss.conn = ⟨f, s.gen f⟩
  isOpen : s.pc ≠ .done → s.isOpen f = true
  ctxs : ∀ ctx ∈ ss.owned, ctx.addr.owner = .session ss.conn
  bufs : ∀ p ∈ ss.buffers, p.owner = .session ss.conn
  forward : ss.isReverse = false → ss.deadline = 0
  multishot : ss.isReverse = false → L.useMultishot = true →
    ss.contexts = [] ∧ ss.msCtx = some (L.msCtx ss.conn)

structure Inv (s : St) : Prop where
  ops : ∀ o ∈ s.ring.outstanding, OpInv L s o
  sess : ∀ f ss, s.sessions.lookup f = some ss → SessInv L s f ss
  pend : ∀ f, Pend s f → s.pc ≠ .done → s.isOpen f = true ∧ s.sessions.lookup f = none
  acc : IoRing.Single Sqe.kind accKey s.ring
  ms : IoRing.Single Sqe.kind msKey s.ring
  freed : ∀ p ∈ s.freed, ∃ conn, p.owner = .session conn ∧ Old s conn ∧
    (s.pc ≠ .done → ∀ ss, s.sessions.lookup conn.fd = some ss → ss.conn ≠ conn)

variable {L}

/-! ## consequences of the shape -/

theorem OfConn.conn {o : Sqe} {conn : Conn} (h : OfConn L o conn) : o.conn = some conn := by
  unfold Sqe.conn
  rw [h.owner]

theorem accept_conn : (acceptSqe L.listenFd L.acceptCtx).conn = none := rfl

theorem Shape.ofConn {o : Sqe} {conn : Conn} (h : Shape L o) (hc : o.conn = some conn) :
    OfConn L o conn := by
  cases h with
  | accept h => rw [h, accept_conn] at hc; cases hc
  | session conn' h =>
    rw [h.conn] at hc
    cases hc
    exact h

theorem OfConn.not_accept {o : Sqe} {conn : Conn} (h : OfConn L o conn) :
    o.opcode ≠ .accept ∧ o.userData.type ≠ .accept := by
  rcases h.type with ⟨h1, h2 | h2⟩ | ⟨h1, h2, -⟩ | ⟨h1, h2, -⟩ <;> rw [h1, h2] <;> simp

/-- the entry is the accept exactly if its context says so -/
theorem Shape.accept_iff {o : Sqe} (h : Shape L o) :
    o.opcode = .accept ↔ o.userData.type = .accept := by
  cases h with
  | accept h => rw [h]; exact ⟨fun _ => rfl, fun _ => rfl⟩
  | session conn h =>
    exact ⟨fun h' => absurd h' h.not_accept.1, fun h' => absurd h' h.not_accept.2⟩

theorem msKey_some {o : Sqe} {conn : Conn} :
    msKey o = some conn ↔ o.opcode = .recvMultishot ∧ o.conn = some conn := by
  unfold msKey
  by_cases h : o.opcode = .recvMultishot <;> simp [h]

theorem accKey_zerocopy (o : Sqe) (k : Unit) (h : accKey o = some k) : o.kind ≠ .zerocopy := by
  unfold accKey at h
  unfold Sqe.kind
  split at h
  · rename_i h'
    rw [h']
    exact Kind.noConfusion
  · cases h

theorem msKey_zerocopy (o : Sqe) (k : Conn) (h : msKey o = some k) : o.kind ≠ .zerocopy := by
  unfold Sqe.kind
  rw [(msKey_some.mp h).1]
  exact Kind.noConfusion

/-- a session in the table is older than any pending accept -/
theorem Inv.old_session {s : St} (h : Inv L s) (hpc : s.pc ≠ .done) {f : Int} {ss : ClientSession}
    (hl : s.sessions.lookup f = some ss) : Old s ss.conn := by
  have hc := (h.sess f ss hl).conn
  refine ⟨by rw [hc], fun hp => ?_⟩
  rw [hc] at hp
  have := (h.pend f hp hpc).2
  rw [hl] at this
  cases this

/-! ## steps that only move operations -/

theorem OpInv.transfer {s t : St} {o : Sqe} (h : OpInv L s o) (hold : ∀ conn, Old s conn → Old t conn)
    (hss : t.sessions = s.sessions) : OpInv L t o where
  shape := h.shape
  old := fun conn hc => hold conn (h.old conn hc)
  owned := by rw [hss]; exact h.owned
  live := by rw [hss]; exact h.live

theorem SessInv.transfer {s t : St} {f : Int} {ss : ClientSession} (h : SessInv L s f ss)
    (hgen : t.gen f = s.gen f) (hop : t.pc ≠ .done → t.isOpen f = true) : SessInv L t f ss where
  fd := h.fd
  conn := by rw [hgen]; exact h.conn
  isOpen := hop
  ctxs := h.ctxs
  bufs := h.bufs
  forward := h.forward
  multishot := h.multishot

/-- **Sessions may leave.**  Every entry satisfies the invariant of the state before, the sessions
that remain keep their descriptors, those of the multishot receives remain, and only buffers of
sessions that leave are released. -/
theorem Inv.leave {s t : St} (h : Inv L s) (hpc : s.pc ≠ .done) (hgen : t.gen = s.gen)
    (hops : ∀ o ∈ t.ring.outstanding, OpInv L s o)
    (hpend : ∀ f, Pend t f → Pend s f ∧ (t.pc ≠ .done → t.isOpen f = true))
    (hss : ∀ f ss, t.sessions.lookup f = some ss →
      s.sessions.lookup f = some ss ∧ (t.pc ≠ .done → t.isOpen f = true))
    (hlive : ∀ o ∈ t.ring.outstanding, ∀ conn ss, msKey o = some conn →
      s.sessions.lookup conn.fd = some ss → ss.conn = conn → t.sessions.lookup conn.fd = some ss)
    (hfr : ∀ p ∈ t.freed, p ∈ s.freed ∨ ∃ f ss, s.sessions.lookup f = some ss ∧ p ∈ ss.buffers ∧
      (t.pc ≠ .done → t.sessions.lookup f = none))
    (hacc : IoRing.Single Sqe.kind accKey t.ring) (hms : IoRing.Single Sqe.kind msKey t.ring) :
    Inv L t := by
  have hold : ∀ conn, Old s conn → Old t conn := by
    intro conn ho
    unfold Old
    rw [hgen]
    exact ⟨ho.1, fun hp => ho.2 (hpend _ hp).1⟩
  refine ⟨?_, ?_, ?_, hacc, hms, ?_⟩
  · intro o ho
    have h1 := hops o ho
    refine ⟨h1.shape, fun conn hc => hold conn (h1.old conn hc), ?_, ?_⟩
    · intro conn ss hc hl
      exact h1.owned conn ss hc (hss _ _ hl).1
    · intro conn hk
      obtain ⟨ss, hl, hc, hr⟩ := h1.live conn hk
      exact ⟨ss, hlive o ho conn ss hk hl hc, hc, hr⟩
  · intro f ss hl
    obtain ⟨h1, h2⟩ := hss f ss hl
    exact (h.sess f ss h1).transfer (by rw [hgen]) h2
  · intro f hp hd
    obtain ⟨h1, h2⟩ := hpend f hp
    refine ⟨h2 hd, ?_⟩
    cases hl : t.sessions.lookup f with
    | none => rfl
    | some ss =>
      have h3 := (h.pend f h1 hpc).2
      rw [(hss f ss hl).1] at h3
      cases h3
  · intro p hp
    rcases hfr p hp with hp | ⟨f, ss, hl, hb, hn⟩
    · obtain ⟨conn, h1, h2, h3⟩ := h.freed p hp
      exact ⟨conn, h1, hold conn h2, fun _ ss hl => h3 hpc ss (hss _ _ hl).1⟩
    · have hs := h.sess f ss hl
      refine ⟨ss.conn, hs.bufs p hb, hold _ (h.old_session hpc hl), fun hd ss' hl' => ?_⟩
      rw [hs.conn, hn hd] at hl'
      cases hl'

/-- the table and the descriptors are as before -/
theorem Inv.transfer {s t : St} (h : Inv L s) (hpc : s.pc ≠ .done)
    (hops : ∀ o ∈ t.ring.outstanding, OpInv L s o)
    (hpend : ∀ f, Pend t f → Pend s f) (hss : t.sessions = s.sessions) (hgen : t.gen = s.gen)
    (hop : t.isOpen = s.isOpen) (hfr : t.freed = s.freed)
    (hacc : IoRing.Single Sqe.kind accKey t.ring) (hms : IoRing.Single Sqe.kind msKey t.ring) :
    Inv L t := by
  refine h.leave hpc hgen hops ?_ ?_ ?_ ?_ hacc hms
  · intro f hp
    rw [hop]
    exact ⟨hpend f hp, fun _ => (h.pend f (hpend f hp) hpc).1⟩
  · intro f ss hl
    rw [hss] at hl
    rw [hop]
    exact ⟨hl, fun _ => (h.sess f ss hl).isOpen hpc⟩
  · intro o ho conn ss hk hl hc
    rw [hss]
    exact hl
  · intro p hp
    rw [hfr] at hp
    exact Or.inl hp

theorem inv_submit {s : St} (pc : Pc) (hpc : s.pc ≠ .done) (h : Inv L s) :
    Inv L { s with engine := s.engine.submit, pc := pc } := by
  refine h.transfer hpc ?_ ?_ rfl rfl rfl rfl h.acc.submit h.ms.submit
  · intro o ho
    exact h.ops o (IoRing.mem_outstanding_submit.mp ho)
  · rintro f ⟨c, hc, hf⟩
    refine ⟨c, ?_, hf⟩
    replace hc : c ∈ s.ring.submit.cq := hc
    rwa [IoRing.submit_cq] at hc

theorem inv_consume {s : St} {r : IoRing Sqe} (hpc : s.pc ≠ .done) (hr : s.ring.consume = some r)
    (h : Inv L s) : Inv L (s.withRing r) := by
  refine h.transfer hpc ?_ ?_ rfl rfl rfl rfl (h.acc.consume hr) (h.ms.consume hr)
  · intro o ho
    exact h.ops o ((IoRing.mem_outstanding_consume hr).mp ho)
  · rintro f ⟨c, hc, hf⟩
    obtain ⟨op, -, -, hcq, -⟩ := IoRing.consume_some hr
    refine ⟨c, ?_, hf⟩
    replace hc : c ∈ r.cq := hc
    rwa [hcq] at hc

/-! ## the kernel -/

/-- an entry in the kernel is outstanding -/
theorem kern_outstanding {s : St} {i : Nat} {p : Pending Sqe} (hp : s.ring.kern[i]? = some p) :
    p.op ∈ s.ring.outstanding :=
  IoRing.mem_outstanding.mpr (Or.inr (Or.inl ⟨p, List.mem_of_getElem? hp, rfl⟩))

theorem post_cq {s : St} {i : Nat} {c : Completion} {p : Pending Sqe} {r : IoRing Sqe}
    (hp : s.ring.kern[i]? = some p) (hr : s.ring.post Sqe.kind i c = some r) :
    r.cq = s.ring.cq ++ [⟨c, p.op⟩] := by
  obtain ⟨q, rest, hq, -, -, -, hcq, -⟩ := IoRing.post_some hr
  rw [hp] at hq
  cases hq
  exact hcq

/-- a completion of another entry, or a failed accept, leaves the pending accepts alone -/
theorem pend_post_quiet {s : St} {i : Nat} {c : Completion} {p : Pending Sqe} {r : IoRing Sqe}
    (hp : s.ring.kern[i]? = some p) (hr : s.ring.post Sqe.kind i c = some r)
    (hna : ¬ (p.op.opcode = .accept ∧ 0 ≤ c.res)) (h : Inv L s) {f : Int} (hf : Pend (s.withRing r) f) :
    Pend s f := by
  obtain ⟨d, hd, ha, hf⟩ := hf
  replace hd : d ∈ r.cq := hd
  rw [post_cq hp hr] at hd
  rcases List.mem_append.mp hd with hd | hd
  · exact ⟨d, hd, ha, hf⟩
  · rw [List.mem_singleton.mp hd] at ha
    unfold accepts at ha
    simp only [Bool.and_eq_true, beq_iff_eq, decide_eq_true_eq] at ha
    exact absurd ⟨(h.ops p.op (kern_outstanding hp)).shape.accept_iff.mpr ha.1, ha.2⟩ hna

theorem inv_post_quiet {s : St} {i : Nat} {c : Completion} {p : Pending Sqe} {r : IoRing Sqe}
    (hp : s.ring.kern[i]? = some p) (hr : s.ring.post Sqe.kind i c = some r)
    (hna : ¬ (p.op.opcode = .accept ∧ 0 ≤ c.res)) (hpc : s.pc ≠ .done) (h : Inv L s) :
    Inv L (s.withRing r) := by
  refine h.transfer hpc ?_ (fun f => pend_post_quiet hp hr hna h) rfl rfl rfl rfl
    (h.acc.post accKey_zerocopy hr) (h.ms.post msKey_zerocopy hr)
  intro o ho
  exact h.ops o ((IoRing.mem_outstanding_post hr).mp ho)

/-- the state after an accept has returned the number `c.res` -/
def St.handedOut (s : St) (r : IoRing Sqe) (c : Completion) : St :=
  { s.withRing r with
    gen := Function.update s.gen c.res (s.gen c.res + 1)
    isOpen := Function.update s.isOpen c.res true }

theorem pend_handedOut {s : St} {i : Nat} {c : Completion} {p : Pending Sqe} {r : IoRing Sqe}
    (hp : s.ring.kern[i]? = some p) (hr : s.ring.post Sqe.kind i c = some r) {f : Int}
    (hf : Pend (s.handedOut r c) f) : Pend s f ∨ f = c.res := by
  obtain ⟨d, hd, ha, hf⟩ := hf
  replace hd : d ∈ r.cq := hd
  rw [post_cq hp hr] at hd
  rcases List.mem_append.mp hd with hd | hd
  · exact Or.inl ⟨d, hd, ha, hf⟩
  · rw [List.mem_singleton.mp hd] at hf
    exact Or.inr hf.symm

theorem old_handedOut {s : St} {i : Nat} {c : Completion} {p : Pending Sqe} {r : IoRing Sqe}
    (hp : s.ring.kern[i]? = some p) (hr : s.ring.post Sqe.kind i c = some r) {conn : Conn} (hc : Old s conn) :
    Old (s.handedOut r c) conn := by
  show conn.gen ≤ Function.update s.gen c.res (s.gen c.res + 1) conn.fd ∧
    (Pend (s.handedOut r c) conn.fd → conn.gen < Function.update s.gen c.res (s.gen c.res + 1) conn.fd)
  by_cases hf : conn.fd = c.res
  · simp only [hf, Function.update_self]
    have := hc.1
    rw [hf] at this
    exact ⟨by omega, fun _ => by omega⟩
  · simp only [Function.update_of_ne hf]
    refine ⟨hc.1, fun hp' => ?_⟩
    rcases pend_handedOut hp hr hp' with hp' | hp'
    · exact hc.2 hp'
    · exact absurd hp' hf

/-- the number of an accepted connection was not open, so it is in no session and its generation
is new -/
theorem inv_post_accept {s : St} {i : Nat} {c : Completion} {p : Pending Sqe} {r : IoRing Sqe}
    (hp : s.ring.kern[i]? = some p) (hr : s.ring.post Sqe.kind i c = some r)
    (ho : s.isOpen c.res = false) (hpc : s.pc ≠ .done) (h : Inv L s) : Inv L (s.handedOut r c) := by
  have hnone : s.sessions.lookup c.res = none := by
    cases hl : s.sessions.lookup c.res with
    | none => rfl
    | some ss =>
      have := (h.sess _ _ hl).isOpen hpc
      rw [ho] at this
      cases this
  refine ⟨?_, ?_, ?_, h.acc.post accKey_zerocopy hr, h.ms.post msKey_zerocopy hr, ?_⟩
  · intro o ho'
    exact (h.ops o ((IoRing.mem_outstanding_post hr).mp ho')).transfer (fun conn => old_handedOut hp hr) rfl
  · intro f ss hl
    have hs := h.sess f ss hl
    have hne : f ≠ c.res := by
      intro e
      rw [e] at hl
      exact absurd (hnone.symm.trans hl) (by simp)
    refine hs.transfer (Function.update_of_ne hne _ _) (fun hd => ?_)
    show Function.update s.isOpen c.res true f = true
    rw [Function.update_of_ne hne]
    exact hs.isOpen hd
  · intro f hp' hd
    by_cases hf : f = c.res
    · subst hf
      exact ⟨Function.update_self _ _ _, hnone⟩
    · have hp'' : Pend s f := (pend_handedOut hp hr hp').resolve_right hf
      show Function.update s.isOpen c.res true f = true ∧ s.sessions.lookup f = none
      rw [Function.update_of_ne hf]
      exact h.pend f hp'' hd
  · intro q hq
    obtain ⟨conn, h1, h2, h3⟩ := h.freed q hq
    exact ⟨conn, h1, old_handedOut hp hr h2, h3⟩

end
end Server
end UringPerf
