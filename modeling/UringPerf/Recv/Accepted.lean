import UringPerf.Recv.ServerStream

/-!
# A connection of the server from its accept on

The step that processes the accept of a connection queues its first operations, as far as there is room, and from then
on the connection has one role: all its entries send, or all of them receive.

* `Accepts`             the step: the completion of the accept is processed and the handshake has succeeded;
* `Role`, `role_step`   the role of a connection is kept;
* `accepted_sends`      the server sends exactly if the handshake asked for it and one of the sends was queued;
* `accepted_serving`    a connection that receives can do so exactly if its receive was queued.
-/

namespace UringPerf
namespace Recv
open Uring

section
variable (L : Server.Setup) (conn : Conn)

/-- an entry that sends on the connection is outstanding -/
def sendsOn (s : Server.St) : Bool :=
  s.ring.outstanding.any fun o => o.opcode.sends && decide (o.conn = some conn)

def receivesOn (s : Server.St) : Bool := s.ring.outstanding.any (isRecvOf conn)

/-- all entries of the connection carry contexts of this type -/
structure Role (type : IOType) (s : Server.St) : Prop where
  inv : Server.Inv L s
  old : Server.Old s conn
  ops : ∀ o ∈ s.ring.outstanding, o.conn = some conn → o.userData.type = type

variable {L conn} {s t : Server.St} {a : Server.Act} {type : IOType}

theorem role_step (s : Server.St) (a : Server.Act) (t : Server.St) (hr : Role L conn type s)
    (h : Server.step L s a = some t) : Role L conn type t := by
  refine ⟨Server.inv_step s a t hr.inv h, old_step hr.inv hr.old h, fun o ho hconn => ?_⟩
  rcases Server.step_quiet h with ⟨now, hs, n, c, cs, -, hc⟩ | ⟨-, hq⟩
  · rw [hc.ring] at ho
    rcases Server.mem_after hc.cq ho with ho | ho
    · exact hr.ops o ho hconn
    · cases (hr.inv.ops _ (Server.head_outstanding hc.cq)).shape with
      | accept hop =>
        -- the new connection is not an old one
        rcases Server.accept_cases now hs hr.inv hc.not_done.1 hc.cq hop with ha | ⟨ss, ops, ha⟩
        · rw [ha.queued, List.mem_singleton] at ho
          rw [ho, Server.accept_conn] at hconn
          cases hconn
        · rw [ha.queued, List.mem_append, List.mem_singleton] at ho
          rcases ho with ho | ho
          · rw [(ha.first o ho).ofConn.conn, ha.conn] at hconn
            cases hconn
            have hp : Server.Pend s c.res := ⟨c, by rw [hc.cq]; exact List.mem_cons_self, ha.accepts, rfl⟩
            exact absurd (hr.old.2 hp) (Nat.lt_irrefl _)
          · rw [ho, Server.accept_conn] at hconn
            cases hconn
      | session conn' hop =>
        rcases Server.queued_again hop with hq | ⟨o', hq, ha, -⟩
        · rw [hq] at ho
          exact absurd ho List.not_mem_nil
        · rw [hq, List.mem_singleton] at ho
          rw [ho] at hconn ⊢
          have hc' : c.op.conn = some conn := by rw [hop.conn, ← hconn, ha.ofConn.conn]
          rw [ha.userData]
          exact hr.ops c.op (Server.head_outstanding hc.cq) hc'
  · exact hr.ops o (hq.outstanding o ho) hconn

theorem sends_type {o : Sqe} (h : Server.OfConn L o conn) : o.opcode.sends = true ↔ o.userData.type = .send := by
  unfold Opcode.sends
  rcases h.type with ⟨h1, h2 | h2⟩ | ⟨h1, h2, -⟩ | ⟨h1, h2, -⟩ <;> rw [h1, h2] <;> simp

theorem sendsOn_iff : sendsOn conn s = true ↔
    ∃ o ∈ s.ring.outstanding, o.opcode.sends = true ∧ o.conn = some conn := by
  unfold sendsOn
  rw [List.any_eq_true]
  exact exists_congr fun o => and_congr_right fun _ => by rw [Bool.and_eq_true, decide_eq_true_eq]

/-- a connection that receives does not send -/
theorem Role.silent (h : Role L conn .recv s) : sendsOn conn s = false := by
  rw [Bool.eq_false_iff]
  intro hs
  obtain ⟨o, ho, hsend, hconn⟩ := sendsOn_iff.mp hs
  have ht := (sends_type ((h.inv.ops o ho).shape.ofConn hconn)).mp hsend
  rw [h.ops o ho hconn] at ht
  cases ht

/-- and the other way round -/
theorem Role.deaf (h : Role L conn .send s) : receivesOn conn s = false := by
  unfold receivesOn
  rw [List.any_eq_false]
  intro o ho hmine
  have hkey : recvKey o = some conn := of_decide_eq_true hmine
  have hconn := recvKey_conn hkey
  rw [recvKey_ofConn ((h.inv.ops o ho).shape.ofConn hconn), h.ops o ho hconn] at hkey
  cases hkey

end

/-! ## the accept -/

section
variable {L : Server.Setup} {now : Nat} {hs : Option (Bool × Nat)} {s t : Server.St} {fd : Int} {reverse : Bool}

/-- the number of a connection whose accept is about to be processed -/
def Accepting (s : Server.St) (fd : Int) : Prop := ∃ c, s.ring.cq.head? = some c ∧ Server.accepts c = true ∧ c.res = fd

/-- the accept of `fd` has been processed in `s`, and the handshake has asked for the direction `reverse` -/
structure Accepts (L : Server.Setup) (now : Nat) (hs : Option (Bool × Nat)) (s t : Server.St) (fd : Int)
    (reverse : Bool) : Prop where
  inv : Server.Inv L s
  inv' : Server.Inv L t
  pend : Server.Pend s fd
  fresh : ¬ Server.Pend t fd
  ring : t.ring = s.ring.seen.pushAll
    (Server.sessionOps L s.engine ⟨fd, s.gen fd⟩ reverse ++ [acceptSqe L.listenFd L.acceptCtx])
  unseen : ∃ c cs, s.ring.cq = c :: cs ∧ c.op = acceptSqe L.listenFd L.acceptCtx
  session : ∃ d, t.sessions.lookup fd = some (Server.newSession L now ⟨fd, s.gen fd⟩ reverse d)
  gen : t.gen = s.gen
  stop : t.stop = s.stop

/-- **The step of an accept whose handshake has succeeded.** -/
theorem accepts_of_step {d : Nat} (hi : Server.Inv L s) (hacc : Accepting s fd)
    (hh : Server.handshake L hs = some (reverse, d)) (h : Server.step L s (.cqe now hs) = some t) :
    Accepts L now hs s t fd reverse := by
  obtain ⟨n, c, cs, hc⟩ := Server.step_cqe h
  obtain ⟨c', hhead, haccepts, rfl⟩ := hacc
  rw [hc.cq, List.head?_cons] at hhead
  cases hhead
  have hres : 0 ≤ c.res := by
    unfold Server.accepts at haccepts
    exact of_decide_eq_true (Bool.and_eq_true_iff.mp haccepts).2
  have hop : c.op = acceptSqe L.listenFd L.acceptCtx := by
    unfold Server.accepts at haccepts
    have ht := beq_iff_eq.mp (Bool.and_eq_true_iff.mp haccepts).1
    cases (hi.ops _ (Server.head_outstanding hc.cq)).shape with
    | accept hop => exact hop
    | session conn hop => exact absurd ht hop.not_accept.2
  have hq : Server.queued L now hs s c = _ := Server.queued_accept hop
  rw [if_pos hres] at hq
  unfold Server.connectOps at hq
  rw [hh] at hq
  have hb : Server.book L now hs s c = Server.bookConnect L now hs s c.res := by
    unfold Server.book
    rw [if_pos haccepts]
  unfold Server.bookConnect at hb
  rw [hh] at hb
  refine ⟨hi, Server.inv_step s _ t hi h, ⟨c, by rw [hc.cq]; exact List.mem_cons_self, haccepts, rfl⟩, ?_, ?_,
    ⟨c, cs, hc.cq, hop⟩, ⟨d, ?_⟩, ?_, ?_⟩
  · exact fun hp => Server.no_pend hi hc.cq hop (Server.pend_after hc.cq hc.ring hp)
  · rw [hc.ring, hq]
  · rw [hc.sessions, hb]
    exact AList.lookup_insert _
  · rw [hc.gen, hb]
    rfl
  · rw [hc.stop, hb]
    rfl

/-- the first operations of a session are its own, and have the type of its direction -/
theorem sessionOps_type {e : UringEngine} {conn : Conn} {o : Sqe} (ho : o ∈ Server.sessionOps L e conn reverse) :
    Server.OfConn L o conn ∧ o.userData.type = if reverse then .send else .recv := by
  have hof := (Server.sessionOps_first 0 conn reverse 0 e ho).ofConn
  rw [Server.newSession_conn] at hof
  refine ⟨hof, ?_⟩
  unfold Server.sessionOps at ho
  cases reverse with
  | true =>
    obtain ⟨ctx, hctx, rfl⟩ := List.mem_map.mp ho
    rw [sendSqe_userData]
    exact (Server.sessionCtxs_buf conn hctx).1
  | false =>
    rw [if_neg Bool.false_ne_true] at ho
    split at ho
    · rw [List.mem_singleton.mp ho]
      rfl
    · obtain ⟨ctx, hctx, rfl⟩ := List.mem_map.mp ho
      exact (Server.sessionCtxs_buf conn hctx).1

theorem sessionOps_ne_nil (hN : 1 ≤ L.config.inFlight) (e : UringEngine) (conn : Conn) (reverse : Bool) :
    Server.sessionOps L e conn reverse ≠ [] := by
  have hctxs : ∀ type, L.sessionCtxs type conn ≠ [] := by
    intro type hnil
    have hlen := congrArg List.length hnil
    unfold Server.Setup.sessionCtxs at hlen
    rw [List.length_map, List.length_range, List.length_nil] at hlen
    omega
  unfold Server.sessionOps
  split
  · exact fun hnil => hctxs _ (List.map_eq_nil_iff.mp hnil)
  · split
    · exact List.cons_ne_nil _ _
    · exact fun hnil => hctxs _ (List.map_eq_nil_iff.mp hnil)

/-- the part of the first operations that was queued is not empty exactly if there was room -/
theorem room_iff (s : Server.St) (fd : Int) (reverse : Bool) (hN : 1 ≤ L.config.inFlight) :
    (∃ o ∈ (Server.sessionOps L s.engine ⟨fd, s.gen fd⟩ reverse ++ [acceptSqe L.listenFd L.acceptCtx]).take
      (s.ring.cap - s.ring.sq.length), o.conn = some ⟨fd, s.gen fd⟩) ↔ s.ring.sq.length < s.ring.cap := by
  constructor
  · rintro ⟨o, ho, -⟩
    by_contra hroom
    rw [Server.take_full _ hroom] at ho
    exact absurd ho List.not_mem_nil
  · intro hroom
    obtain ⟨o, ops, hops⟩ := List.exists_cons_of_ne_nil (sessionOps_ne_nil hN s.engine ⟨fd, s.gen fd⟩ reverse)
    obtain ⟨k, hk⟩ : ∃ k, s.ring.cap - s.ring.sq.length = k + 1 := ⟨s.ring.cap - s.ring.sq.length - 1, by omega⟩
    refine ⟨o, ?_, (sessionOps_type (by rw [hops]; exact List.mem_cons_self)).1.conn⟩
    rw [hops, hk, List.cons_append, List.take_succ_cons]
    exact List.mem_cons_self

variable (h : Accepts L now hs s t fd reverse)
include h

/-- no entry of the connection was outstanding before -/
theorem Accepts.unused {o : Sqe} (ho : o ∈ s.ring.outstanding) : o.conn ≠ some ⟨fd, s.gen fd⟩ := by
  intro hconn
  exact absurd (((h.inv.ops o ho).old _ hconn).2 h.pend) (Nat.lt_irrefl _)

theorem Accepts.old : Server.Old t ⟨fd, s.gen fd⟩ :=
  ⟨by rw [h.gen], fun hp => absurd hp h.fresh⟩

/-- the entries of the connection are its first operations, as far as there was room -/
theorem Accepts.mem_iff {o : Sqe} (hconn : o.conn = some ⟨fd, s.gen fd⟩) : o ∈ t.ring.outstanding ↔
    o ∈ (Server.sessionOps L s.engine ⟨fd, s.gen fd⟩ reverse ++ [acceptSqe L.listenFd L.acceptCtx]).take
      (s.ring.cap - s.ring.sq.length) := by
  obtain ⟨c, cs, hcq, -⟩ := h.unseen
  rw [h.ring, IoRing.mem_outstanding_pushAll_take]
  refine ⟨fun ho => ho.resolve_left fun ho => ?_, Or.inr⟩
  exact h.unused ((IoRing.mem_outstanding_seen hcq).mpr (Or.inr ho)) hconn

/-- what was queued for the connection is one of its first operations -/
theorem Accepts.first {o : Sqe} (ho : o ∈ t.ring.outstanding) (hconn : o.conn = some ⟨fd, s.gen fd⟩) :
    Server.OfConn L o ⟨fd, s.gen fd⟩ ∧ o.userData.type = if reverse then .send else .recv := by
  rcases List.mem_append.mp (List.mem_of_mem_take ((h.mem_iff hconn).mp ho)) with ho | ho
  · exact sessionOps_type ho
  · rw [List.mem_singleton.mp ho, Server.accept_conn] at hconn
    cases hconn

theorem Accepts.role : Role L ⟨fd, s.gen fd⟩ (if reverse then .send else .recv) t :=
  ⟨h.inv', h.old, fun _ ho hconn => (h.first ho hconn).2⟩

/-- **The server sends exactly if the handshake asked for it and a send was queued.** -/
theorem accepted_sends (hN : 1 ≤ L.config.inFlight) :
    sendsOn ⟨fd, s.gen fd⟩ t = true ↔ reverse = true ∧ s.ring.sq.length < s.ring.cap := by
  rw [sendsOn_iff, ← room_iff s fd reverse hN]
  constructor
  · rintro ⟨o, ho, hsend, hconn⟩
    obtain ⟨hof, ht⟩ := h.first ho hconn
    rw [(sends_type hof).mp hsend] at ht
    refine ⟨?_, o, (h.mem_iff hconn).mp ho, hconn⟩
    cases reverse with
    | true => rfl
    | false => cases ht
  · rintro ⟨rfl, o, ho, hconn⟩
    have ho' := (h.mem_iff hconn).mpr ho
    obtain ⟨hof, ht⟩ := h.first ho' hconn
    exact ⟨o, ho', (sends_type hof).mpr ht, hconn⟩

/-- the receives that were queued -/
theorem Accepts.armed : t.ring.armedIn Sqe.kind recvKey ⟨fd, s.gen fd⟩ =
    ((Server.sessionOps L s.engine ⟨fd, s.gen fd⟩ reverse ++ [acceptSqe L.listenFd L.acceptCtx]).take
      (s.ring.cap - s.ring.sq.length)).countP fun o => recvKey o = some ⟨fd, s.gen fd⟩ := by
  obtain ⟨c, cs, hcq, hop⟩ := h.unseen
  have hzero : s.ring.armedIn Sqe.kind recvKey ⟨fd, s.gen fd⟩ = 0 :=
    IoRing.armedIn_zero fun o ho hkey => h.unused ho (recvKey_conn hkey)
  have hkey : recvKey c.op ≠ some ⟨fd, s.gen fd⟩ := by
    rw [hop, recvKey_accept]
    exact nofun
  have hbal := IoRing.armedIn_processed Sqe.kind recvKey hcq
    (Server.sessionOps L s.engine ⟨fd, s.gen fd⟩ reverse ++ [acceptSqe L.listenFd L.acceptCtx]) ⟨fd, s.gen fd⟩
  rw [← h.ring, hzero, if_neg (fun h' => hkey h'.1)] at hbal
  exact hbal

/-- **A connection that receives can do so exactly if its receive was queued.** -/
theorem accepted_serving (hN : 1 ≤ L.config.inFlight) (hr : reverse = false) : Serving L ⟨fd, s.gen fd⟩ t ∧
    (serverTap L ⟨fd, s.gen fd⟩).pending t = [] ∧
    ((serverTap L ⟨fd, s.gen fd⟩).Receives t ↔ s.ring.sq.length < s.ring.cap) := by
  obtain ⟨d, hl⟩ := h.session
  have hopen : hasSession ⟨fd, s.gen fd⟩ t = true := hasSession_iff.mpr ⟨_, hl, Server.newSession_conn _ _ _ _⟩
  refine ⟨⟨h.inv', h.old, fun ss hl' _ => ?_⟩, ?_, ?_⟩
  · rw [hl] at hl'
    cases hl'
    rw [Server.newSession_isReverse, hr]
  · obtain ⟨c, cs, hcq, -⟩ := h.unseen
    show t.ring.unseen _ = []
    unfold IoRing.unseen
    rw [List.map_eq_nil_iff, List.filter_eq_nil_iff]
    intro q hq hmine
    -- a completion of the connection would be older than its accept
    rw [h.ring, IoRing.pushAll_cq] at hq
    have hq' : q.op ∈ s.ring.outstanding := (IoRing.mem_outstanding_seen hcq).mpr
      (Or.inr (IoRing.mem_outstanding.mpr (Or.inr (Or.inr ⟨q, hq, rfl⟩))))
    exact h.unused hq' (recvKey_conn (of_decide_eq_true hmine))
  · rw [← room_iff s fd reverse hN]
    constructor
    · intro hrec
      have hpos : 0 < t.ring.armedIn Sqe.kind recvKey ⟨fd, s.gen fd⟩ := hrec.2
      rw [h.armed] at hpos
      obtain ⟨o, ho, hkey⟩ := List.countP_pos_iff.mp hpos
      exact ⟨o, ho, recvKey_conn (of_decide_eq_true hkey)⟩
    · rintro ⟨o, ho, hconn⟩
      refine ⟨hopen, ?_⟩
      show 0 < t.ring.armedIn Sqe.kind recvKey ⟨fd, s.gen fd⟩
      rw [h.armed]
      refine List.countP_pos_iff.mpr ⟨o, ho, decide_eq_true ?_⟩
      obtain ⟨hof, ht⟩ := h.first ((h.mem_iff hconn).mpr ho) hconn
      rw [recvKey_ofConn hof, ht, hr]
      rfl

end
end Recv
end UringPerf
