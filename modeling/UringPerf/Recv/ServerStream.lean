import UringPerf.Base.Delivery
import UringPerf.Recv.Ending
import UringPerf.Server.Isolation
import UringPerf.Server.Queue

/-!
# The server as the receiver of a stream

A forward connection of `run_server`, from the step that has entered its session on, among any other connections.

* `recvKey`, `serverTap`   the receives of a connection, and how it is seen in the state of the server;
* `cuts`, `starves`        the completions that end the session otherwise than at the end of the stream, and those that
                           are its last outstanding receive and find the submission queue full;
* `Serving`                the invariant of the server and of the connection;
* `server_stream`          the server follows the discipline of a receiver.
-/

namespace UringPerf
namespace Recv
open Uring

/-- the receives of the connections -/
def recvKey (o : Sqe) : Option Conn :=
  if o.opcode = .recv ∨ o.opcode = .recvMultishot then o.conn else none

def isRecvOf (conn : Conn) (o : Sqe) : Bool := decide (recvKey o = some conn)

/-! ## what the receive branches make of a completion -/

def streamCounts (multishot : Bool) (c : Completion) : Nat := if multishot then msCounts c else onceCounts c

/-- data comes with the buffer that holds it -/
def streamWhole (multishot : Bool) (c : Completion) : Bool := !multishot || c.buffer.isSome

theorem streamCounts_le (multishot : Bool) (c : Completion) : streamCounts multishot c ≤ c.res.toNat := by
  unfold streamCounts msCounts onceCounts
  split <;> split <;> omega

theorem streamCounts_whole {multishot : Bool} {c : Completion} (h : 0 < c.res → streamWhole multishot c = true) :
    streamCounts multishot c = c.res.toNat := by
  unfold streamCounts msCounts onceCounts
  unfold streamWhole at h
  by_cases hr : 0 < c.res
  · cases multishot with
    | true => rw [if_pos rfl, if_pos ⟨hr, h hr⟩]
    | false => rw [if_neg Bool.false_ne_true, if_pos hr]
  · cases multishot with
    | true =>
      rw [if_pos rfl, if_neg (fun h' => hr h'.1)]
      omega
    | false =>
      rw [if_neg Bool.false_ne_true, if_neg hr]
      omega

/-! ## a connection of the server -/

section
variable (L : Server.Setup) (conn : Conn)

/-- the session of the connection is in the table -/
def hasSession (s : Server.St) : Bool := (s.sessions.lookup conn.fd).any fun ss => ss.conn == conn

def serverTap : Tap Server.St Server.Act where
  step := Server.step L
  posted := fun s a => match a with
    | .post i c => s.ring.named (isRecvOf conn) i c
    | _ => none
  taken := fun s a => match a with
    | .cqe _ _ => s.ring.first (isRecvOf conn)
    | _ => none
  pending := fun s => s.ring.unseen (isRecvOf conn)
  armed := fun s => s.ring.armedIn Sqe.kind recvKey conn
  isOpen := hasSession conn
  stop := fun s => s.stop
  bytes := fun s => s.stats.bytesTransferred
  whole := streamWhole L.useMultishot

/-- the completion ends the session, and is not the end of its own stream: a terminating completion with data or with
`EAGAIN`, or one that an earlier connection with this number has left behind -/
def cuts (s : Server.St) (c : Cqe Sqe) : Bool :=
  c.op.userData.type == .recv && c.op.userData.fd == conn.fd && Server.recvEnds L c.toCompletion &&
    hasSession conn s && !(isRecvOf conn c.op && c.res == 0)

/-- the completion is the last outstanding receive, which is to be repeated, and there is no room for it -/
def starves (s : Server.St) (c : Cqe Sqe) : Bool :=
  isRecvOf conn c.op && c.op.kind.closes c.toCompletion && !Server.recvEnds L c.toCompletion &&
    s.ring.armedIn Sqe.kind recvKey conn == 1 && !decide (s.ring.sq.length < s.ring.cap)

def serverEarly (s : Server.St) : Server.Act → Bool
  | .cqe _ _ => s.ring.cq.head?.any fun c => cuts L conn s c || starves L conn s c
  | _ => false

structure Serving (s : Server.St) : Prop where
  inv : Server.Inv L s
  old : Server.Old s conn
  forward : ∀ ss, s.sessions.lookup conn.fd = some ss → ss.conn = conn → ss.isReverse = false

variable {L conn}

theorem hasSession_iff {s : Server.St} :
    hasSession conn s = true ↔ ∃ ss, s.sessions.lookup conn.fd = some ss ∧ ss.conn = conn := by
  unfold hasSession
  rw [Option.any_eq_true]
  exact exists_congr fun ss => and_congr_right fun _ => beq_iff_eq

theorem recvKey_ofConn {o : Sqe} {conn : Conn} (h : Server.OfConn L o conn) :
    recvKey o = if o.userData.type = .recv then some conn else none := by
  unfold recvKey
  rw [h.conn]
  rcases h.type with ⟨h1, h2 | h2⟩ | ⟨h1, h2, -⟩ | ⟨h1, h2, -⟩ <;> rw [h1, h2] <;> simp

theorem recvKey_type {o : Sqe} (h : Server.OfConn L o conn) (hkey : recvKey o = some conn) :
    o.userData.type = .recv := by
  rw [recvKey_ofConn h] at hkey
  by_contra ht
  rw [if_neg ht] at hkey
  cases hkey

theorem recvKey_accept : recvKey (acceptSqe L.listenFd L.acceptCtx) = none := rfl

theorem recvKey_conn {o : Sqe} {conn : Conn} (h : recvKey o = some conn) : o.conn = some conn := by
  unfold recvKey at h
  split at h
  · exact h
  · cases h

/-! ## one completion -/

section
variable {s t : Server.St} {now : Nat} {hs : Option (Bool × Nat)} {n : Nat} {c : Cqe Sqe} {cs : List (Cqe Sqe)}

theorem onRecvMultishot_bytes (ctx : IOContext) (c : Completion) :
    (Server.onRecvMultishot L s ctx c).stats.bytesTransferred = s.stats.bytesTransferred + msCounts c := by
  have h : (s.takeBuffer L c).stats.bytesTransferred = _ := takeBuffer_bytes s c
  rw [← h]
  unfold Server.onRecvMultishot
  generalize s.takeBuffer L c = u
  have hneg := errorIfNeg_bytes u c.res
  dsimp only
  split
  · rfl
  · split
    · rfl
    · split
      · split
        · exact hneg
        · exact hneg
      · split
        · exact hneg
        · exact hneg

theorem onRecv_bytes (ctx : IOContext) (c : Completion) :
    (Server.onRecv L s ctx c).stats.bytesTransferred = s.stats.bytesTransferred + onceCounts c := by
  have hneg := errorIfNeg_bytes s c.res
  unfold Server.onRecv onceCounts
  split
  · rfl
  · split
    · rfl
    · split
      · exact hneg
      · exact hneg

/-- a completion of a receive is counted by its branch -/
theorem cqe_bytes (h : Server.step L s (.cqe now hs) = some t) (hcq : s.ring.cq = c :: cs)
    (ht : c.op.userData.type = .recv) :
    t.stats.bytesTransferred = s.stats.bytesTransferred + streamCounts L.useMultishot c.toCompletion := by
  have hstats : t.stats = (Server.onCqe L now hs s c).stats := by
    obtain ⟨n, c', cs', hc⟩ := Server.step_cqe h
    simp only [Server.step, hc.pc, hcq] at h
    cases h
    rfl
  rw [hstats]
  unfold Server.onCqe streamCounts
  rw [ht]
  dsimp only
  split
  · exact onRecvMultishot_bytes _ _
  · exact onRecv_bytes _ _

/-- how the armed receives of the connection change -/
theorem cqe_armed (hc : Server.CqeStep L now hs s t n c cs) (conn : Conn) :
    t.ring.armedIn Sqe.kind recvKey conn +
        (if recvKey c.op = some conn ∧ c.op.kind.closes c.toCompletion = true then 1 else 0)
      = ((Server.queued L now hs s c).take (s.ring.cap - s.ring.sq.length)).countP (fun o => recvKey o = some conn)
        + s.ring.armedIn Sqe.kind recvKey conn := by
  rw [hc.ring]
  exact IoRing.armedIn_processed Sqe.kind recvKey hc.cq _ conn

/-- a receive that is complete and does not end the session is queued again -/
theorem queued_recvAgain (now : Nat) (hs : Option (Bool × Nat)) (s : Server.St) (htcp : L.config.protocol = .tcp)
    {conn : Conn} (h : Server.OfConn L c.op conn)
    (ht : c.op.userData.type = .recv) (hcl : c.op.kind.closes c.toCompletion = true)
    (hends : Server.recvEnds L c.toCompletion = false) :
    ∃ o, Server.queued L now hs s c = [o] ∧ recvKey o = some conn := by
  have hne : Server.queued L now hs s c ≠ [] := by
    rcases h.recv ht with ⟨hop, hm, -⟩ | ⟨-, hm⟩
    · have hmore : c.more = false := by
        unfold Sqe.kind at hcl
        rw [hop] at hcl
        exact (Bool.not_eq_true' _).mp hcl
      have hres : c.res = -ENOBUFS := by
        unfold Server.recvEnds at hends
        rw [if_pos hm, hmore, htcp] at hends
        simpa using hends
      unfold Server.queued
      rw [ht]
      dsimp only
      rw [if_pos hm, hmore, hres]
      simp
    · rw [Server.recvEnds_single hm, Bool.not_eq_false'] at hends
      exact (Server.queued_recv_iff ht hm).mpr hends
  rcases Server.queued_again h with hq | ⟨o, hq, ha, -⟩
  · exact absurd hq hne
  · refine ⟨o, hq, ?_⟩
    rw [recvKey_ofConn ha.ofConn, ha.userData, if_pos ht]

end

/-! ## the invariant -/

section
variable {s t : Server.St} {a : Server.Act}

/-- a connection that has had its session gets no other one -/
theorem old_session (hi : Server.Inv L s) (hold : Server.Old s conn) (h : Server.step L s a = some t)
    {ss : Server.ClientSession} (hl : t.sessions.lookup conn.fd = some ss) (hconn : ss.conn = conn) :
    s.sessions.lookup conn.fd = some ss := by
  rcases Server.step_quiet h with ⟨now, hs, n, c, cs, -, hc⟩ | ⟨-, hq⟩
  · rw [hc.sessions] at hl
    cases (hi.ops _ (Server.head_outstanding hc.cq)).shape with
    | accept hop =>
      rcases Server.accept_cases now hs hi hc.not_done.1 hc.cq hop with ha | ⟨ss', ops, ha⟩
      · rwa [ha.sessions] at hl
      · rw [ha.book] at hl
        replace hl : (s.sessions.insert c.res ss').lookup conn.fd = some ss := hl
        rw [AList.lookup_insert_eq] at hl
        split at hl
        next hf =>
          -- the accept of the new session was pending, so the connection would be older than itself
          cases hl
          have hp : Server.Pend s conn.fd := ⟨c, by rw [hc.cq]; exact List.mem_cons_self, ha.accepts, hf.symm⟩
          have hlt := hold.2 hp
          have hgen : conn.gen = s.gen c.res := by rw [← hconn, ha.conn]
          rw [hf] at hlt
          omega
        · exact hl
    | session conn' hop =>
      rw [Server.book_session hop] at hl
      cases he : Server.ended L s c with
      | none =>
        rw [he] at hl
        exact hl
      | some ss' =>
        rw [he] at hl
        replace hl : (s.sessions.erase conn'.fd).lookup conn.fd = some ss := hl
        rw [AList.lookup_erase_eq] at hl
        split at hl
        · cases hl
        · exact hl
  · exact hq.sessions _ _ hl

/-- an action processes a completion, posts one, or leaves the completions and the numbers alone -/
theorem server_actions (h : Server.step L s a = some t) :
    (∃ now hs n c cs, a = .cqe now hs ∧ Server.CqeStep L now hs s t n c cs) ∨
      (∃ i c, a = .post i c) ∨
      ((∀ now hs, a ≠ .cqe now hs) ∧ (∀ i c, a ≠ .post i c) ∧ t.ring.cq = s.ring.cq ∧ t.gen = s.gen) := by
  cases a with
  | sweep now =>
    obtain ⟨-, -, rfl⟩ := Server.step_sweep h
    rw [Server.sweep_eq]
    exact Or.inr (Or.inr ⟨nofun, nofun, rfl, rfl⟩)
  | reap =>
    obtain ⟨-, ⟨-, rfl⟩ | ⟨-, rfl⟩⟩ := Server.step_reap h
    · exact Or.inr (Or.inr ⟨nofun, nofun, IoRing.submit_cq _, rfl⟩)
    · exact Or.inr (Or.inr ⟨nofun, nofun, rfl, rfl⟩)
  | cqe now hs =>
    obtain ⟨n, c, cs, hc⟩ := Server.step_cqe h
    exact Or.inl ⟨now, hs, n, c, cs, rfl, hc⟩
  | submit =>
    obtain ⟨-, rfl⟩ := Server.step_submit h
    exact Or.inr (Or.inr ⟨nofun, nofun, IoRing.submit_cq _, rfl⟩)
  | finish =>
    obtain ⟨-, -, rfl⟩ := Server.step_finish h
    rw [Server.cleanup_eq]
    exact Or.inr (Or.inr ⟨nofun, nofun, rfl, rfl⟩)
  | signal =>
    obtain ⟨-, rfl⟩ := Server.step_signal h
    exact Or.inr (Or.inr ⟨nofun, nofun, rfl, rfl⟩)
  | post i c => exact Or.inr (Or.inl ⟨i, c, rfl⟩)
  | consume =>
    obtain ⟨-, r, hr, rfl⟩ := Server.step_consume h
    obtain ⟨op, -, -, hcq, -⟩ := IoRing.consume_some hr
    exact Or.inr (Or.inr ⟨nofun, nofun, hcq, rfl⟩)

theorem cqe_gen {now : Nat} {hs : Option (Bool × Nat)} {n : Nat} {c : Cqe Sqe} {cs : List (Cqe Sqe)}
    (hi : Server.Inv L s) (hc : Server.CqeStep L now hs s t n c cs) : t.gen = s.gen := by
  rw [hc.gen]
  cases (hi.ops _ (Server.head_outstanding hc.cq)).shape with
  | accept hop =>
    rcases Server.accept_cases now hs hi hc.not_done.1 hc.cq hop with ha | ⟨ss', ops, ha⟩
    · exact ha.gen
    · rw [ha.book]
      rfl
  | session conn' hop => exact Server.book_gen hop

theorem old_step (hi : Server.Inv L s) (hold : Server.Old s conn) (h : Server.step L s a = some t) :
    Server.Old t conn := by
  -- a step that hands out no number and posts no accept
  have keep : t.gen = s.gen → (∀ f, Server.Pend t f → Server.Pend s f) → Server.Old t conn := by
    intro hgen hpend
    exact ⟨by rw [hgen]; exact hold.1, fun hp => by rw [hgen]; exact hold.2 (hpend _ hp)⟩
  rcases server_actions h with ⟨now, hs, n, c, cs, -, hc⟩ | ⟨i, c, rfl⟩ | ⟨-, -, hcq, hgen⟩
  · exact keep (cqe_gen hi hc) fun f hp => Server.pend_of_tail hc.cq (Server.pend_after hc.cq hc.ring hp)
  · obtain ⟨-, p, r, hp, hr, ⟨-, -, -, -, rfl⟩ | ⟨hna, rfl⟩⟩ := Server.step_post h
    · exact Server.old_handedOut hp hr hold
    · exact keep rfl fun f => Server.pend_post_quiet hp hr hna hi
  · refine keep hgen ?_
    rintro f ⟨c, hc, hf⟩
    rw [hcq] at hc
    exact ⟨c, hc, hf⟩

theorem serving_step (hJ : Serving L conn s) (h : Server.step L s a = some t) : Serving L conn t where
  inv := Server.inv_step s a t hJ.inv h
  old := old_step hJ.inv hJ.old h
  forward := fun ss hl hconn => hJ.forward ss (old_session hJ.inv hJ.old h hl hconn) hconn

/-! ## the discipline of a receiver -/

theorem server_fifo (h : Server.step L s a = some t) : ((serverTap L conn).taken s a).toList ++
    (serverTap L conn).pending t = (serverTap L conn).pending s ++ ((serverTap L conn).posted s a).toList := by
  rcases server_actions h with ⟨now, hs, n, c, cs, rfl, hc⟩ | ⟨i, c, rfl⟩ | ⟨hncqe, hnpost, hcq, -⟩
  · show (s.ring.first _).toList ++ t.ring.unseen _ = s.ring.unseen _ ++ []
    have hpend : t.ring.unseen (isRecvOf conn) = s.ring.seen.unseen (isRecvOf conn) :=
      IoRing.unseen_congr _ (by rw [hc.ring, IoRing.pushAll_cq])
    rw [hpend, IoRing.unseen_seen _ hc.cq, List.append_nil]
  · obtain ⟨-, r, hr, hring⟩ := Server.post_ring h
    show [] ++ t.ring.unseen _ = s.ring.unseen _ ++ (s.ring.named _ i c).toList
    rw [hring, IoRing.unseen_post _ hr, List.nil_append]
  · have htak : (serverTap L conn).taken s a = none := by
      cases a with
      | cqe now hs => exact absurd rfl (hncqe now hs)
      | _ => rfl
    have hpost : (serverTap L conn).posted s a = none := by
      cases a with
      | post i c => exact absurd rfl (hnpost i c)
      | _ => rfl
    rw [htak, hpost]
    show [] ++ t.ring.unseen _ = s.ring.unseen _ ++ []
    rw [List.nil_append, List.append_nil, IoRing.unseen_congr _ hcq]

/-- the processed completion is the first one, and of a receive of the connection -/
theorem taken_some {c : Completion} (hi : Server.Inv L s) (h : Server.step L s a = some t)
    (htak : (serverTap L conn).taken s a = some c) : ∃ now hs n d cs, a = .cqe now hs ∧
      Server.CqeStep L now hs s t n d cs ∧ d.toCompletion = c ∧ recvKey d.op = some conn ∧
      Server.OfConn L d.op conn ∧ d.op.userData.type = .recv := by
  cases a with
  | cqe now hs =>
    obtain ⟨n, d, cs, hc⟩ := Server.step_cqe h
    replace htak : s.ring.first (isRecvOf conn) = some c := htak
    unfold IoRing.first at htak
    rw [hc.cq, List.head?_cons, Option.bind_some] at htak
    split at htak
    next hmine =>
      have hkey : recvKey d.op = some conn := of_decide_eq_true hmine
      have hop := (hi.ops _ (Server.head_outstanding hc.cq)).shape.ofConn (recvKey_conn hkey)
      exact ⟨now, hs, n, d, cs, rfl, hc, Option.some.inj htak, hkey, hop, recvKey_type hop hkey⟩
    · cases htak
  | _ => cases htak

/-- a completion of another entry takes no receive away -/
theorem cqe_armed_other {now : Nat} {hs : Option (Bool × Nat)} {n : Nat} {c : Cqe Sqe} {cs : List (Cqe Sqe)}
    (hc : Server.CqeStep L now hs s t n c cs) (hkey : recvKey c.op ≠ some conn)
    (hpos : 0 < s.ring.armedIn Sqe.kind recvKey conn) : 0 < t.ring.armedIn Sqe.kind recvKey conn := by
  have h := cqe_armed hc conn
  rw [if_neg (fun h' => hkey h'.1)] at h
  omega

/-- a completion that does not end the connection leaves its session in the table -/
theorem session_kept {now : Nat} {hs : Option (Bool × Nat)} {n : Nat} {c : Cqe Sqe} {cs : List (Cqe Sqe)}
    (hc : Server.CqeStep L now hs s t n c cs) (hop : Server.OfConn L c.op conn)
    (hends : Server.recvEnds L c.toCompletion = false) : hasSession conn t = hasSession conn s := by
  have he : Server.ended L s c = none := by
    unfold Server.ended
    rw [if_neg]
    rw [hends]
    exact fun h => Bool.noConfusion h.2
  have hsess := hc.sessions
  rw [Server.book_session hop, he] at hsess
  unfold hasSession
  rw [hsess]

/-- a completion of its own receive -/
theorem own_gone {now : Nat} {hs : Option (Bool × Nat)} {n : Nat} {c : Cqe Sqe} {cs : List (Cqe Sqe)}
    (htcp : L.config.protocol = .tcp) (hc : Server.CqeStep L now hs s t n c cs) (hop : Server.OfConn L c.op conn)
    (hkey : recvKey c.op = some conn) (hopen : hasSession conn s = true)
    (hpos : 0 < s.ring.armedIn Sqe.kind recvKey conn) (hgone : ¬ (serverTap L conn).Receives t) :
    cuts L conn s c = true ∨ starves L conn s c = true ∨ c.res = 0 := by
  have hown : isRecvOf conn c.op = true := decide_eq_true hkey
  have ht := recvKey_type hop hkey
  cases hends : Server.recvEnds L c.toCompletion with
  | true =>
    by_cases hres : c.res = 0
    · exact Or.inr (Or.inr hres)
    · refine Or.inl ?_
      unfold cuts
      rw [ht, hop.ctxFd, hends, hopen, hown, beq_eq_false_iff_ne.mpr hres]
      simp
  | false =>
    -- the session stays, so the last receive is gone: it is complete and was not queued again
    have hzero : t.ring.armedIn Sqe.kind recvKey conn = 0 := by
      by_contra hne
      exact hgone ⟨(session_kept hc hop hends).trans hopen, Nat.pos_of_ne_zero hne⟩
    have hbal := cqe_armed hc conn
    cases hcl : c.op.kind.closes c.toCompletion with
    | false =>
      rw [hcl, if_neg (fun h' => Bool.false_ne_true h'.2)] at hbal
      omega
    | true =>
      obtain ⟨o, hq, hok⟩ := queued_recvAgain now hs s htcp hop ht hcl hends
      rw [hcl, if_pos ⟨hkey, rfl⟩, hq] at hbal
      by_cases hroom : s.ring.sq.length < s.ring.cap
      · rw [Server.take_single o hroom, List.countP_singleton, if_pos (decide_eq_true hok)] at hbal
        omega
      · rw [Server.take_full _ hroom, List.countP_nil] at hbal
        have hone : s.ring.armedIn Sqe.kind recvKey conn = 1 := by omega
        refine Or.inr (Or.inl ?_)
        unfold starves
        rw [hown, hcl, hends, hone, decide_eq_false hroom]
        rfl

/-- **How a connection stops receiving**: at its own end of the stream, or early. -/
theorem cqe_gone {now : Nat} {hs : Option (Bool × Nat)} {n : Nat} {c : Cqe Sqe} {cs : List (Cqe Sqe)}
    (htcp : L.config.protocol = .tcp) (hi : Server.Inv L s) (hc : Server.CqeStep L now hs s t n c cs)
    (hrec : (serverTap L conn).Receives s) (hgone : ¬ (serverTap L conn).Receives t) :
    cuts L conn s c = true ∨ starves L conn s c = true ∨ (recvKey c.op = some conn ∧ c.res = 0) := by
  have hopen : hasSession conn s = true := hrec.1
  have hpos : 0 < s.ring.armedIn Sqe.kind recvKey conn := hrec.2
  obtain ⟨ss, hl, hconn⟩ := hasSession_iff.mp hopen
  -- while the session stays, only its own receive can take the last one away
  have stays : recvKey c.op ≠ some conn → ¬ t.sessions.lookup conn.fd = some ss := fun hkey hl' =>
    hgone ⟨hasSession_iff.mpr ⟨ss, hl', hconn⟩, cqe_armed_other hc hkey hpos⟩
  rw [hc.sessions] at stays
  cases (hi.ops _ (Server.head_outstanding hc.cq)).shape with
  | accept hop =>
    have hkey : recvKey c.op ≠ some conn := by
      rw [hop, recvKey_accept]
      exact nofun
    refine absurd ?_ (stays hkey)
    rcases Server.accept_cases now hs hi hc.not_done.1 hc.cq hop with ha | ⟨ss', ops, ha⟩
    · rw [ha.sessions]
      exact hl
    · have hne : conn.fd ≠ c.res := by
        intro e
        rw [e, ha.free] at hl
        cases hl
      rw [ha.book]
      show (s.sessions.insert c.res ss').lookup conn.fd = some ss
      rw [AList.lookup_insert_eq, if_neg hne]
      exact hl
  | session conn' hop =>
    by_cases hkey : recvKey c.op = some conn
    · obtain rfl : conn' = conn := Option.some.inj (hop.conn.symm.trans (recvKey_conn hkey))
      exact (own_gone htcp hc hop hkey hopen hpos hgone).imp id (Or.imp id fun h => ⟨hkey, h⟩)
    · -- another entry: it can only end the session under its own number
      have hno := stays hkey
      rw [Server.book_session hop] at hno
      cases he : Server.ended L s c with
      | none =>
        rw [he] at hno
        exact absurd hl hno
      | some ss' =>
        obtain ⟨ht, hends, -⟩ := Server.ended_some hop he
        rw [he] at hno
        replace hno : ¬ (s.sessions.erase conn'.fd).lookup conn.fd = some ss := hno
        rw [AList.lookup_erase_eq] at hno
        by_cases hfd : conn.fd = conn'.fd
        · refine Or.inl ?_
          have hother : isRecvOf conn c.op = false := decide_eq_false hkey
          unfold cuts
          rw [ht, hop.ctxFd, hfd, hends, hopen, hother]
          simp
        · rw [if_neg hfd] at hno
          exact absurd hl hno

/-- a completion that cuts or starves leaves the connection without a receive -/
theorem cqe_early {now : Nat} {hs : Option (Bool × Nat)} {n : Nat} {c : Cqe Sqe} {cs : List (Cqe Sqe)}
    (hi : Server.Inv L s) (hc : Server.CqeStep L now hs s t n c cs)
    (h : (cuts L conn s c || starves L conn s c) = true) :
    t.stop = s.stop ∧ ¬ (serverTap L conn).Receives t := by
  have hshape := (hi.ops _ (Server.head_outstanding hc.cq)).shape
  have hstop : ∀ conn', Server.OfConn L c.op conn' → t.stop = s.stop := by
    intro conn' hop
    rw [hc.stop, Server.book_session hop]
    cases Server.ended L s c <;> rfl
  rcases Bool.or_eq_true_iff.mp h with h | h
  · unfold cuts at h
    simp only [Bool.and_eq_true, beq_iff_eq] at h
    obtain ⟨⟨⟨⟨ht, hfd⟩, hends⟩, hopen⟩, -⟩ := h
    obtain ⟨ss, hl, hconn⟩ := hasSession_iff.mp hopen
    cases hshape with
    | accept hop =>
      rw [hop] at ht
      cases ht
    | session conn' hop =>
      have he : Server.ended L s c = some ss := by
        unfold Server.ended
        rw [if_pos ⟨ht, hends⟩, hfd]
        exact hl
      have hsess := hc.sessions
      rw [Server.book_session hop, he] at hsess
      replace hsess : t.sessions = s.sessions.erase conn'.fd := hsess
      rw [← hop.ctxFd, hfd] at hsess
      refine ⟨hstop conn' hop, fun hrec => ?_⟩
      obtain ⟨ss', hl', -⟩ := hasSession_iff.mp hrec.1
      rw [hsess, AList.lookup_erase] at hl'
      cases hl'
  · unfold starves at h
    simp only [Bool.and_eq_true, beq_iff_eq, Bool.not_eq_true', decide_eq_false_iff_not] at h
    obtain ⟨⟨⟨⟨hown, hcl⟩, hends⟩, hone⟩, hroom⟩ := h
    have hkey : recvKey c.op = some conn := of_decide_eq_true hown
    have hop := hshape.ofConn (recvKey_conn hkey)
    have hbal := cqe_armed hc conn
    rw [if_pos ⟨hkey, hcl⟩, Server.take_full _ hroom, List.countP_nil, hone] at hbal
    refine ⟨hstop conn hop, fun hrec => ?_⟩
    have : 0 < t.ring.armedIn Sqe.kind recvKey conn := hrec.2
    omega

/-- the other actions leave a forward session and its receives alone -/
theorem quiet_receives (hJ : Serving L conn s) (h : Server.step L s a = some t)
    (hncqe : ∀ now hs, a ≠ .cqe now hs) (hrec : (serverTap L conn).Receives s) :
    (serverTap L conn).Receives t := by
  obtain ⟨ss, hl, hconn⟩ := hasSession_iff.mp hrec.1
  rcases Server.step_quiet h with ⟨now, hs, n, c, cs, rfl, -⟩ | ⟨-, hq⟩
  · exact absurd rfl (hncqe now hs)
  refine ⟨hasSession_iff.mpr ⟨ss, ?_, hconn⟩, ?_⟩
  · cases a with
    | sweep now =>
      obtain ⟨-, -, rfl⟩ := Server.step_sweep h
      refine (Server.lookup_sweep now s _ ss).mpr ⟨hl, ?_⟩
      unfold Server.expired
      rw [hJ.forward ss hl hconn, Bool.false_and]
    | reap =>
      obtain ⟨-, ⟨-, rfl⟩ | ⟨-, rfl⟩⟩ := Server.step_reap h
      · exact hl
      · exact hl
    | cqe now hs => exact absurd rfl (hncqe now hs)
    | submit =>
      obtain ⟨-, rfl⟩ := Server.step_submit h
      exact hl
    | finish =>
      obtain ⟨-, -, rfl⟩ := Server.step_finish h
      rw [Server.cleanup_eq]
      exact hl
    | signal =>
      obtain ⟨-, rfl⟩ := Server.step_signal h
      exact hl
    | post i c =>
      obtain ⟨-, p, r, -, -, ⟨-, -, -, -, rfl⟩ | ⟨-, rfl⟩⟩ := Server.step_post h
      · exact hl
      · exact hl
    | consume =>
      obtain ⟨-, r, -, rfl⟩ := Server.step_consume h
      exact hl
  · show 0 < t.ring.armedIn Sqe.kind recvKey conn
    rw [hq.armedIn]
    exact hrec.2

theorem server_stop (h : Server.step L s a = some t) (hstop : t.stop = false) : s.stop = false := by
  rcases Server.step_quiet h with ⟨now, hs, n, c, cs, -, hc⟩ | ⟨-, hq⟩
  · rw [hc.stop] at hstop
    unfold Server.book Server.bookConnect at hstop
    split at hstop
    · split at hstop <;> exact hstop
    · split at hstop <;> exact hstop
  · exact hq.stop hstop

/-- **The server follows the discipline of a receiver.** -/
theorem server_stream (htcp : L.config.protocol = .tcp) : (serverTap L conn).Spec (Serving L conn)
    (streamCounts L.useMultishot) fun s a => serverEarly L conn s a = true where
  inv := fun s a t hJ h => serving_step hJ h
  fifo := fun s a t _ h => server_fifo h
  single := by
    intro s a
    cases a with
    | post i c => exact Or.inl rfl
    | _ => exact Or.inr rfl
  count := by
    intro s a t c hJ h htak
    obtain ⟨now, hs, n, d, cs, rfl, hc, rfl, -, -, ht⟩ := taken_some hJ.inv h htak
    exact cqe_bytes h hc.cq ht
  counts_le := streamCounts_le L.useMultishot
  exact := fun s a t c _ _ _ hwhole _ => streamCounts_whole hwhole
  opened := by
    intro s a t hJ h hopen
    obtain ⟨ss, hl, hconn⟩ := hasSession_iff.mp hopen
    exact hasSession_iff.mpr ⟨ss, old_session hJ.inv hJ.old h hl hconn, hconn⟩
  stop := fun s a t _ h => server_stop h
  gone := by
    intro s a t hJ h _ hrec hgone
    rcases server_actions h with ⟨now, hs, n, c, cs, rfl, hc⟩ | ⟨i, c, rfl⟩ | ⟨hncqe, -⟩
    · rcases cqe_gone htcp hJ.inv hc hrec hgone with hcut | hstarve | ⟨hkey, hres⟩
      · exact Or.inl (by simp [serverEarly, hc.cq, hcut])
      · exact Or.inl (by simp [serverEarly, hc.cq, hstarve])
      · refine Or.inr ⟨c.toCompletion, ?_, hres⟩
        show s.ring.first (isRecvOf conn) = _
        simp [IoRing.first, hc.cq, isRecvOf, hkey]
    · exact absurd (quiet_receives (a := .post i c) hJ h nofun hrec) hgone
    · exact absurd (quiet_receives hJ h hncqe hrec) hgone
  early_gone := by
    intro s a t hJ h hstop hearly
    cases a with
    | cqe now hs =>
      obtain ⟨n, c, cs, hc⟩ := Server.step_cqe h
      unfold serverEarly at hearly
      rw [hc.cq, List.head?_cons, Option.any_some] at hearly
      obtain ⟨hkeep, hgone⟩ := cqe_early hJ.inv hc hearly
      exact ⟨hkeep.trans hstop, hgone⟩
    | _ => cases hearly

end
end
end Recv
end UringPerf
