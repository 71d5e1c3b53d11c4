import UringPerf.Server.Model
import UringPerf.Base.Single

/-!
# What one action of the server can do

The branches of the dispatch change the engine and the counters, and otherwise only do bookkeeping:
a session is entered, or taken out, or a refused descriptor is closed.  `queued` are the entries a
completion asks for and `book` is its bookkeeping; `onCqe_eq` says that this is all.

* `queued`, `ended`, `book`   the effect of one completion;
* `onCqe_eq`, `step_cqe`                the code has exactly this effect;
* `sweep_eq`, `cleanup_eq`              the two loops over the session table;
* `step_sweep` .. `step_post`           inversion of each action.
-/

namespace UringPerf
namespace Server
open Uring

section
variable (L : Setup)

/-! ## the effect of a completion -/

def newSession (now : Nat) (conn : Conn) (reverse : Bool) (peerDuration : Nat) : ClientSession :=
  if reverse then
    ⟨conn.fd, true, now + peerDuration * second, L.sessionBuffers conn, L.sessionCtxs .send conn, none,
      conn⟩
  else if L.useMultishot then ⟨conn.fd, false, 0, [], [], some (L.msCtx conn), conn⟩
  else ⟨conn.fd, false, 0, L.sessionBuffers conn, L.sessionCtxs .recv conn, none, conn⟩

/-- the entry queued for a single-shot receive context -/
def recvCtxSqe (reg : Registered) (ctx : IOContext) (useFixedFile : Bool) : Sqe :=
  recvSqe reg ctx.fd ctx.bufPtr ctx.length ctx.bufIdx ctx useFixedFile

/-- the first operations of a session -/
def sessionOps (e : UringEngine) (conn : Conn) (reverse : Bool) : List Sqe :=
  if reverse then (L.sessionCtxs .send conn).map (sendSqe e.reg L.config.zeroCopy · false)
  else if L.useMultishot then [recvMultishotSqe e.reg e.pool.bgid conn.fd (L.msCtx conn) false]
  else (L.sessionCtxs .recv conn).map (recvCtxSqe e.reg · false)

/-- the completion of an accept that returned a descriptor -/
def accepts (c : Cqe Sqe) : Bool := c.op.userData.type == .accept && decide (0 ≤ c.res)

/-- the receive completions that end a TCP connection -/
def recvEnds (c : Completion) : Bool :=
  if L.useMultishot then !c.more && c.res != -ENOBUFS && L.config.protocol != .udp
  else !decide (0 < c.res) && !isAgain c.res

/-- the session that a completion takes out of the table -/
def ended (s : St) (c : Cqe Sqe) : Option ClientSession :=
  if c.op.userData.type = .recv ∧ recvEnds L c.toCompletion then
    s.sessions.lookup c.op.userData.fd
  else none

/-- the entries queued for a new connection -/
def connectOps (hs : Option (Bool × Nat)) (s : St) (fd : Int) : List Sqe :=
  match handshake L hs with
  | none => []
  | some h => sessionOps L s.engine ⟨fd, s.gen fd⟩ h.1

def queued (now : Nat) (hs : Option (Bool × Nat)) (s : St) (c : Cqe Sqe) : List Sqe :=
  match c.op.userData.type with
  | .accept =>
    (if 0 ≤ c.res then connectOps L hs s c.res else []) ++ [acceptSqe L.listenFd L.acceptCtx]
  | .send =>
    if !c.notif && isRepeat c.res && keepSending now s c.op.userData then
      [sendSqe s.engine.reg L.config.zeroCopy c.op.userData false]
    else []
  | .recv =>
    if L.useMultishot then
      if !c.more && (c.res == -ENOBUFS || (L.config.protocol == .udp && !s.stop)) then
        [recvMultishotSqe s.engine.reg s.engine.pool.bgid c.op.userData.fd c.op.userData
          L.udpFixedFile]
      else []
    else if isRepeat c.res then [recvCtxSqe s.engine.reg c.op.userData L.udpFixedFile]
    else []
  | .timer => []

/-- the buffers a session's teardown releases: only the single-shot branch releases any -/
def released (ss : ClientSession) : List Ptr := if L.useMultishot then [] else ss.buffers

def bookConnect (now : Nat) (hs : Option (Bool × Nat)) (s : St) (fd : Int) : St :=
  match handshake L hs with
  | none => (s.noteAccepted fd).closeFd fd
  | some h => { s.noteAccepted fd with
      sessions := s.sessions.insert fd (newSession L now ⟨fd, s.gen fd⟩ h.1 h.2) }

def book (now : Nat) (hs : Option (Bool × Nat)) (s : St) (c : Cqe Sqe) : St :=
  if accepts c then bookConnect L now hs s c.res
  else
    match ended L s c with
    | none => s
    | some ss =>
      ((s.closeFd c.op.userData.fd).freeBuffers (released L ss)).erase c.op.userData.fd

/-! ## the code has this effect -/

/-- the engine `e'` is `e` with the entries `ops` queued -/
structure Queues (e e' : UringEngine) (ops : List Sqe) : Prop where
  ring : e'.ring = e.ring.pushAll ops
  reg : e'.reg = e.reg
  bgid : e'.pool.bgid = e.pool.bgid

theorem Queues.refl (e : UringEngine) : Queues e e [] := ⟨rfl, rfl, rfl⟩

theorem Queues.one (e : UringEngine) (o : Sqe) : Queues e (e.queue o).2 [o] := ⟨rfl, rfl, rfl⟩

theorem Queues.trans {e₁ e₂ e₃ : UringEngine} {a b : List Sqe} (h1 : Queues e₁ e₂ a)
    (h2 : Queues e₂ e₃ b) : Queues e₁ e₃ (a ++ b) where
  ring := by rw [h2.ring, h1.ring, IoRing.pushAll_append]
  reg := h2.reg.trans h1.reg
  bgid := h2.bgid.trans h1.bgid

theorem Queues.send (e : UringEngine) (zeroCopy : Bool) (ctx : IOContext) :
    Queues e (e.prepSend zeroCopy ctx false).2 [sendSqe e.reg zeroCopy ctx false] := by
  rw [UringEngine.prepSend_eq]
  exact Queues.one e _

/-- a loop of `prep_*` calls over contexts queues one entry for each of them -/
theorem Queues.foldl (f : UringEngine → IOContext → UringEngine) (g : Registered → IOContext → Sqe)
    (h : ∀ e ctx, Queues e (f e ctx) [g e.reg ctx]) (ctxs : List IOContext) (e : UringEngine) :
    Queues e (ctxs.foldl f e) (ctxs.map (g e.reg)) := by
  induction ctxs generalizing e with
  | nil => exact Queues.refl e
  | cons ctx ctxs ih =>
    have h1 := h e ctx
    have h2 := ih (f e ctx)
    rw [h1.reg] at h2
    exact h1.trans h2

/-- `t` is `s` with the entries `ops` queued, counters aside -/
def Adds (s t : St) (ops : List Sqe) : Prop :=
  ∃ e st, t = { s with engine := e, stats := st } ∧ Queues s.engine e ops

theorem Adds.refl (s : St) : Adds s s [] := ⟨s.engine, s.stats, rfl, Queues.refl _⟩

theorem Adds.stats (s : St) (st : ThreadStats) : Adds s { s with stats := st } [] :=
  ⟨s.engine, st, rfl, Queues.refl _⟩

theorem Adds.engine (s : St) {e : UringEngine} {ops : List Sqe} (h : Queues s.engine e ops) :
    Adds s { s with engine := e } ops := ⟨e, s.stats, rfl, h⟩

theorem Adds.trans {s t u : St} {a b : List Sqe} (h1 : Adds s t a) (h2 : Adds t u b) :
    Adds s u (a ++ b) := by
  obtain ⟨e, st, rfl, h1⟩ := h1
  obtain ⟨e', st', rfl, h2⟩ := h2
  exact ⟨e', st', rfl, h1.trans h2⟩

theorem adds_errorIfNeg (s : St) (res : Int) : Adds s (s.errorIfNeg res) [] := by
  unfold St.errorIfNeg
  split
  · exact Adds.stats s _
  · exact Adds.refl s

theorem adds_takeBuffer (s : St) (c : Completion) : Adds s (s.takeBuffer L c) [] := by
  unfold St.takeBuffer
  cases c.buffer with
  | none => exact Adds.refl s
  | some id =>
    by_cases h : 0 < c.res
    · simp only [h, if_true]
      exact (Adds.stats s _).trans (Adds.engine _ ⟨rfl, rfl, rfl⟩)
    · simp only [h, if_false]
      exact Adds.refl s

variable {L}

theorem Adds.resend {s u : St} (h : Adds s u []) (ctx : IOContext) :
    Adds s (u.resend L ctx) [sendSqe s.engine.reg L.config.zeroCopy ctx false] := by
  obtain ⟨e, st, rfl, h⟩ := h
  rw [← h.reg]
  exact ⟨_, st, rfl, h.trans (Queues.send e _ ctx)⟩

theorem Adds.rearm {s u : St} (h : Adds s u []) (ctx : IOContext) : Adds s (u.rearm L ctx)
    [recvMultishotSqe s.engine.reg s.engine.pool.bgid ctx.fd ctx L.udpFixedFile] := by
  obtain ⟨e, st, rfl, h⟩ := h
  rw [← h.reg, ← h.bgid]
  exact ⟨_, st, rfl, h.trans (Queues.one e _)⟩

theorem Adds.rerecv {s u : St} (h : Adds s u []) (ctx : IOContext) :
    Adds s (u.rerecv L ctx) [recvCtxSqe s.engine.reg ctx L.udpFixedFile] := by
  obtain ⟨e, st, rfl, h⟩ := h
  rw [← h.reg]
  exact ⟨_, st, rfl, h.trans (Queues.one e _)⟩

theorem Adds.error {s u : St} {ops : List Sqe} (h : Adds s u ops) (res : Int) :
    Adds s (u.errorIfNeg res) ops := by
  have := h.trans (adds_errorIfNeg u res)
  rwa [List.append_nil] at this

theorem Adds.sessions {s u : St} {ops : List Sqe} (h : Adds s u ops) : u.sessions = s.sessions := by
  obtain ⟨e, st, rfl, -⟩ := h
  rfl

theorem Adds.stop {s u : St} {ops : List Sqe} (h : Adds s u ops) : u.stop = s.stop := by
  obtain ⟨e, st, rfl, -⟩ := h
  rfl

variable (L)

theorem onSend_adds (now : Nat) (s : St) (ctx : IOContext) (c : Completion) :
    Adds s (onSend L now s ctx c)
      (if !c.notif && isRepeat c.res && keepSending now s ctx then
        [sendSqe s.engine.reg L.config.zeroCopy ctx false] else []) := by
  unfold onSend isRepeat
  cases hn : c.notif with
  | true => exact Adds.stats s _
  | false =>
    by_cases hr : 0 < c.res
    · cases hk : keepSending now s ctx with
      | true =>
        simp only [hr, decide_true, if_true, Bool.false_eq_true, if_false, Bool.not_false,
          Bool.true_or, Bool.and_self]
        exact (Adds.stats s _).resend ctx
      | false =>
        simp only [hr, if_true, Bool.false_eq_true, if_false, Bool.and_false]
        exact Adds.stats s _
    · cases ha : isAgain c.res with
      | true =>
        cases hk : keepSending now s ctx with
        | true =>
          simp only [hr, if_true, Bool.false_eq_true, if_false, Bool.not_false, Bool.or_true,
            Bool.and_self]
          exact (Adds.refl s).resend ctx
        | false =>
          simp only [hr, if_true, Bool.false_eq_true, if_false, Bool.and_false]
          exact Adds.refl s
      | false =>
        simp only [hr, Bool.false_eq_true, if_false, decide_false, Bool.or_false, Bool.and_false,
          Bool.false_and]
        exact adds_errorIfNeg s c.res

/-- a received chunk is counted, then the terminated receive is queued again, or the session ends,
or nothing happens -/
theorem onRecvMultishot_eq (s : St) (ctx : IOContext) (c : Completion) :
    ∃ t, Adds s t (if !c.more && (c.res == -ENOBUFS || (L.config.protocol == .udp && !s.stop)) then
        [recvMultishotSqe s.engine.reg s.engine.pool.bgid ctx.fd ctx L.udpFixedFile] else []) ∧
      onRecvMultishot L s ctx c =
        if !c.more && c.res != -ENOBUFS && L.config.protocol != .udp then
          match s.sessions.lookup ctx.fd with
          | none => t
          | some _ => (t.closeFd ctx.fd).erase ctx.fd
        else t := by
  have hu := adds_takeBuffer L s c
  have hs := hu.sessions
  have hst := hu.stop
  unfold onRecvMultishot
  generalize s.takeBuffer L c = u at hu hs hst ⊢
  cases hm : c.more with
  | true => exact ⟨u, hu, rfl⟩
  | false =>
    by_cases hb : c.res = -ENOBUFS
    · refine ⟨u.rearm L ctx, ?_, ?_⟩
      · simpa [hb] using hu.rearm ctx
      · simp [hb]
    · cases hp : L.config.protocol with
      | udp =>
        cases hstop : s.stop with
        | true =>
          refine ⟨u.errorIfNeg c.res, ?_, ?_⟩
          · simpa [hb] using hu.error c.res
          · simp [hb, hst, hstop]
        | false =>
          refine ⟨(u.errorIfNeg c.res).rearm L ctx, ?_, ?_⟩
          · simpa using (hu.error c.res).rearm ctx
          · simp [hb, hst, hstop]
      | tcp =>
        refine ⟨u.errorIfNeg c.res, ?_, ?_⟩
        · simpa [hb] using hu.error c.res
        · simp only [hs, hb]
          cases s.sessions.lookup ctx.fd <;> simp [hb]

theorem onRecv_eq (s : St) (ctx : IOContext) (c : Completion) :
    ∃ t, Adds s t (if isRepeat c.res then [recvCtxSqe s.engine.reg ctx L.udpFixedFile] else []) ∧
      onRecv L s ctx c =
        if !decide (0 < c.res) && !isAgain c.res then
          match s.sessions.lookup ctx.fd with
          | none => t
          | some ss => ((t.closeFd ctx.fd).freeBuffers ss.buffers).erase ctx.fd
        else t := by
  unfold onRecv isRepeat
  by_cases hr : 0 < c.res
  · refine ⟨(s.addBytes c.res (recvPackets L c.res)).rerecv L ctx, ?_, ?_⟩
    · simp only [hr, decide_true, Bool.true_or, if_true]
      exact (Adds.stats s _).rerecv ctx
    · simp [hr]
  · cases ha : isAgain c.res with
    | true =>
      refine ⟨s.rerecv L ctx, ?_, ?_⟩
      · simpa using (Adds.refl s).rerecv ctx
      · simp [hr]
    | false =>
      refine ⟨s.errorIfNeg c.res, ?_, ?_⟩
      · simpa [hr] using adds_errorIfNeg s c.res
      · simp only [hr]
        cases s.sessions.lookup ctx.fd <;> simp

theorem sessionCtxs_fd {type : IOType} {conn : Conn} {ctx : IOContext}
    (h : ctx ∈ L.sessionCtxs type conn) : ctx.fd = conn.fd := by
  obtain ⟨b, -, rfl⟩ := List.mem_map.mp h
  rfl

theorem openSession_eq (s : St) (now : Nat) (fd : Int) (reverse : Bool) (d : Nat) :
    ∃ e, s.openSession L now fd reverse d = { s with
        engine := e
        sessions := s.sessions.insert fd (newSession L now ⟨fd, s.gen fd⟩ reverse d) } ∧
      Queues s.engine e (sessionOps L s.engine ⟨fd, s.gen fd⟩ reverse) := by
  unfold St.openSession newSession sessionOps
  cases reverse with
  | true =>
    exact ⟨_, rfl, Queues.foldl _ (fun reg ctx => sendSqe reg L.config.zeroCopy ctx false)
      (fun e ctx => Queues.send e _ ctx) _ _⟩
  | false =>
    cases hm : L.useMultishot with
    | true => exact ⟨_, rfl, Queues.one s.engine _⟩
    | false =>
      refine ⟨_, rfl, ?_⟩
      have e1 : (L.sessionCtxs .recv ⟨fd, s.gen fd⟩).map (recvCtxSqe s.engine.reg · false)
          = (L.sessionCtxs .recv ⟨fd, s.gen fd⟩).map
            (fun ctx => recvSqe s.engine.reg fd ctx.bufPtr ctx.length ctx.bufIdx ctx false) := by
        apply List.map_congr_left
        intro ctx hctx
        show recvSqe s.engine.reg ctx.fd _ _ _ _ _ = _
        rw [sessionCtxs_fd L hctx]
      show Queues _ _ ((L.sessionCtxs .recv ⟨fd, s.gen fd⟩).map (recvCtxSqe s.engine.reg · false))
      rw [e1]
      exact Queues.foldl _
        (fun reg ctx => recvSqe reg fd ctx.bufPtr ctx.length ctx.bufIdx ctx false)
        (fun e ctx => Queues.one e _) _ _

theorem onConnect_eq (now : Nat) (hs : Option (Bool × Nat)) (s : St) (fd : Int) :
    ∃ e, onConnect L now hs s fd = { bookConnect L now hs s fd with engine := e } ∧
      Queues s.engine e (connectOps L hs s fd) := by
  unfold onConnect bookConnect connectOps
  cases handshake L hs with
  | none => exact ⟨s.engine, rfl, Queues.refl _⟩
  | some h =>
    obtain ⟨e, he, hq⟩ := openSession_eq L (s.noteAccepted fd) now fd h.1 h.2
    exact ⟨e, he, hq⟩

theorem onAccept_eq (now : Nat) (hs : Option (Bool × Nat)) (s : St) (c : Cqe Sqe)
    (ht : c.op.userData.type = .accept) :
    ∃ e, onAccept L now hs s c.res = { book L now hs s c with engine := e } ∧
      Queues s.engine e (queued L now hs s c) := by
  unfold onAccept book accepts queued ended
  rw [ht]
  by_cases h : 0 ≤ c.res
  · obtain ⟨e, he, hq⟩ := onConnect_eq L now hs s c.res
    simp only [h, if_true, decide_true, beq_self_eq_true, Bool.and_self]
    rw [he]
    exact ⟨_, rfl, hq.trans (Queues.one e _)⟩
  · simp only [h, if_false, decide_false, Bool.and_false, Bool.false_eq_true, reduceCtorEq, false_and]
    exact ⟨_, rfl, Queues.one s.engine _⟩

/-- **One completion**: the entries `queued` are queued, the bookkeeping is `book`, the counters are
updated, and nothing else changes. -/
theorem onCqe_eq (now : Nat) (hs : Option (Bool × Nat)) (s : St) (c : Cqe Sqe) :
    ∃ e st, onCqe L now hs s c = { book L now hs s c with engine := e, stats := st } ∧
      Queues s.engine e (queued L now hs s c) := by
  cases ht : c.op.userData.type with
  | accept =>
    obtain ⟨e, h1, h2⟩ := onAccept_eq L now hs s c ht
    refine ⟨e, (book L now hs s c).stats, ?_, h2⟩
    unfold onCqe
    rw [ht]
    exact h1
  | send =>
    obtain ⟨e, st, h1, h2⟩ := onSend_adds L now s c.op.userData c.toCompletion
    have hb : book L now hs s c = s := by
      unfold book accepts ended
      rw [ht]
      simp
    refine ⟨e, st, ?_, ?_⟩
    · unfold onCqe
      rw [ht, hb]
      exact h1
    · unfold queued
      rw [ht]
      exact h2
  | recv =>
    have hacc : accepts c = false := by
      unfold accepts
      rw [ht]
      rfl
    cases hm : L.useMultishot with
    | true =>
      obtain ⟨t, ⟨e, st, rfl, h2⟩, h1⟩ := onRecvMultishot_eq L s c.op.userData c.toCompletion
      refine ⟨e, st, ?_, ?_⟩
      · unfold onCqe book ended released recvEnds
        rw [ht, hacc, hm]
        simp only [true_and, if_true, Bool.false_eq_true, if_false]
        rw [h1]
        by_cases he : (!c.more && c.res != -ENOBUFS && L.config.protocol != .udp) = true
        · simp only [he, if_true]
          cases s.sessions.lookup c.op.userData.fd with
          | none => rfl
          | some ss =>
            show St.erase (St.closeFd _ _) _ = _
            simp only [St.erase, St.closeFd, St.freeBuffers, List.append_nil]
        · simp only [he, if_false, Bool.false_eq_true]
      · unfold queued
        rw [ht, hm]
        exact h2
    | false =>
      obtain ⟨t, ⟨e, st, rfl, h2⟩, h1⟩ := onRecv_eq L s c.op.userData c.toCompletion
      refine ⟨e, st, ?_, ?_⟩
      · unfold onCqe book ended released recvEnds
        rw [ht, hacc, hm]
        simp only [true_and, Bool.false_eq_true, if_false]
        rw [h1]
        by_cases he : (!decide (0 < c.res) && !isAgain c.res) = true
        · simp only [he, if_true]
          cases s.sessions.lookup c.op.userData.fd with
          | none => rfl
          | some ss => rfl
        · simp only [he, if_false, Bool.false_eq_true]
      · unfold queued
        rw [ht, hm]
        exact h2
  | timer =>
    have hb : book L now hs s c = s := by
      unfold book accepts ended
      rw [ht]
      simp
    refine ⟨s.engine, s.stats, ?_, ?_⟩
    · unfold onCqe
      rw [ht, hb]
    · unfold queued
      rw [ht]
      exact Queues.refl _

theorem keepSending_iff {now : Nat} {s : St} {ctx : IOContext} : keepSending now s ctx = true ↔
    ∃ ss, s.sessions.lookup ctx.fd = some ss ∧ now < ss.deadline ∧ s.stop = false := by
  unfold keepSending
  cases s.sessions.lookup ctx.fd with
  | none => simp
  | some ss => simp

/-! ## the loops over the session table -/

/-- the descriptors closed by a loop are closed, the others are as before -/
def closeAll (fds : List Int) (isOpen : Int → Bool) : Int → Bool :=
  fds.foldl (fun g fd => Function.update g fd false) isOpen

theorem closeAll_eq (fds : List Int) (isOpen : Int → Bool) (f : Int) :
    closeAll fds isOpen f = (isOpen f && !decide (f ∈ fds)) := by
  induction fds generalizing isOpen with
  | nil => simp [closeAll]
  | cons fd fds ih =>
    show closeAll fds (Function.update isOpen fd false) f = _
    rw [ih, Function.update_apply]
    by_cases h : f = fd <;> simp [h]

theorem foldl_sweepOne (now : Nat) (l : List (Sigma fun _ : Int => ClientSession)) (s : St) :
    l.foldl (fun s e => sweepOne now s e.1 e.2) s =
      { s with
        sessions := AList.eraseAll (l.filter fun e => expired now e.2) s.sessions
        freed := s.freed ++ (l.filter fun e => expired now e.2).flatMap fun e => e.2.buffers
        closed := s.closed ++ (l.filter fun e => expired now e.2).map fun e => ⟨e.1, s.gen e.1⟩
        isOpen := closeAll ((l.filter fun e => expired now e.2).map Sigma.fst) s.isOpen } := by
  induction l generalizing s with
  | nil => simp [AList.eraseAll, closeAll]
  | cons e l ih =>
    rw [List.foldl_cons, ih, sweepOne]
    cases he : expired now e.2 with
    | false => simp only [Bool.false_eq_true, if_false, List.filter_cons, he]
    | true =>
      simp only [if_true, List.filter_cons, he, List.flatMap_cons, List.map_cons, St.closeFd,
        St.freeBuffers, St.erase, List.append_assoc, List.singleton_append]
      rfl

theorem foldl_cleanup (l : List (Sigma fun _ : Int => ClientSession)) (s : St) :
    l.foldl (fun s e => (s.closeFd e.1).freeBuffers e.2.buffers) s =
      { s with
        freed := s.freed ++ l.flatMap fun e => e.2.buffers
        closed := s.closed ++ l.map fun e => ⟨e.1, s.gen e.1⟩
        isOpen := closeAll (l.map Sigma.fst) s.isOpen } := by
  induction l generalizing s with
  | nil => simp [closeAll]
  | cons e l ih =>
    rw [List.foldl_cons, ih]
    simp only [List.flatMap_cons, List.map_cons, St.closeFd, St.freeBuffers, List.append_assoc,
      List.singleton_append]
    rfl

/-- the sessions a sweep takes out -/
def sweptOut (now : Nat) (s : St) : List (Sigma fun _ : Int => ClientSession) :=
  s.sessions.entries.filter fun e => expired now e.2

theorem sweep_eq (now : Nat) (s : St) : sweep now s =
    { s with
      sessions := AList.eraseAll (sweptOut now s) s.sessions
      freed := s.freed ++ (sweptOut now s).flatMap fun e => e.2.buffers
      closed := s.closed ++ (sweptOut now s).map fun e => ⟨e.1, s.gen e.1⟩
      isOpen := closeAll ((sweptOut now s).map Sigma.fst) s.isOpen } :=
  foldl_sweepOne now s.sessions.entries s

theorem cleanup_eq (s : St) : cleanup s =
    { s with
      freed := s.freed ++ s.sessions.entries.flatMap fun e => e.2.buffers
      closed := s.closed ++ s.sessions.entries.map fun e => ⟨e.1, s.gen e.1⟩
      isOpen := closeAll (s.sessions.entries.map Sigma.fst) s.isOpen } :=
  foldl_cleanup s.sessions.entries s

theorem lookup_sweep (now : Nat) (s : St) (f : Int) (ss : ClientSession) :
    (sweep now s).sessions.lookup f = some ss ↔
      s.sessions.lookup f = some ss ∧ expired now ss = false := by
  rw [sweep_eq]
  exact AList.lookup_eraseAll_iff (expired now) s.sessions f ss

/-! ## inversion of a step -/

variable {L}

theorem step_sweep {s t : St} {now : Nat} (h : step L s (.sweep now) = some t) :
    s.pc = .head ∧ s.stop = false ∧ t = { sweep now s with pc := .reap } := by
  simp only [step] at h
  split at h
  · rename_i hc
    cases h
    exact ⟨hc.1, hc.2, rfl⟩
  · cases h

theorem step_reap {s t : St} (h : step L s .reap = some t) :
    s.pc = .reap ∧ ((reaped L s = 0 ∧ t = { s with engine := s.engine.submit, pc := .head }) ∨
      (reaped L s ≠ 0 ∧ t = { s with pc := .batch (reaped L s) })) := by
  simp only [step] at h
  split at h
  · rename_i hpc
    refine ⟨hpc, ?_⟩
    split at h
    · rename_i h0
      cases h
      exact Or.inl ⟨h0, rfl⟩
    · rename_i h0
      cases h
      exact Or.inr ⟨h0, rfl⟩
  · cases h

/-- the first completion `c` of the batch is processed -/
structure CqeStep (L : Setup) (now : Nat) (hs : Option (Bool × Nat)) (s t : St) (n : Nat) (c : Cqe Sqe)
    (cs : List (Cqe Sqe)) : Prop where
  pc : s.pc = .batch (n+1)
  cq : s.ring.cq = c :: cs
  pc' : t.pc = .batch n
  ring : t.ring = s.ring.seen.pushAll (queued L now hs s c)
  sessions : t.sessions = (book L now hs s c).sessions
  gen : t.gen = (book L now hs s c).gen
  isOpen : t.isOpen = (book L now hs s c).isOpen
  freed : t.freed = (book L now hs s c).freed
  stop : t.stop = (book L now hs s c).stop
  reg : t.engine.reg = s.engine.reg
  bgid : t.engine.pool.bgid = s.engine.pool.bgid

theorem step_cqe {s t : St} {now : Nat} {hs : Option (Bool × Nat)}
    (h : step L s (.cqe now hs) = some t) : ∃ n c cs, CqeStep L now hs s t n c cs := by
  simp only [step] at h
  split at h
  · rename_i n c cs hpc hcq
    obtain ⟨e, st, h1, h2⟩ := onCqe_eq L now hs s c
    rw [h1] at h
    cases h
    refine ⟨n, c, cs, hpc, hcq, rfl, ?_, rfl, rfl, rfl, rfl, rfl, h2.reg, h2.bgid⟩
    show e.ring.seen = _
    rw [h2.ring, IoRing.pushAll_seen]
    rfl
  · cases h

theorem CqeStep.not_done {now : Nat} {hs : Option (Bool × Nat)} {s t : St} {n : Nat} {c : Cqe Sqe}
    {cs : List (Cqe Sqe)} (h : CqeStep L now hs s t n c cs) : s.pc ≠ .done ∧ t.pc ≠ .done := by
  rw [h.pc, h.pc']
  exact ⟨Pc.noConfusion, Pc.noConfusion⟩

theorem step_submit {s t : St} (h : step L s .submit = some t) :
    s.pc = .batch 0 ∧ t = { s with engine := s.engine.submit, pc := .head } := by
  simp only [step] at h
  split at h
  · rename_i hpc
    cases h
    exact ⟨hpc, rfl⟩
  · cases h

theorem step_finish {s t : St} (h : step L s .finish = some t) :
    s.pc = .head ∧ s.stop = true ∧ t = { cleanup s with pc := .done } := by
  simp only [step] at h
  split at h
  · rename_i hc
    cases h
    exact ⟨hc.1, hc.2, rfl⟩
  · cases h

theorem step_signal {s t : St} (h : step L s .signal = some t) :
    s.pc ≠ .done ∧ t = { s with stop := true } := by
  simp only [step] at h
  split at h
  · cases h
  · rename_i hpc
    cases h
    exact ⟨hpc, rfl⟩

theorem step_consume {s t : St} (h : step L s .consume = some t) :
    s.pc ≠ .done ∧ ∃ r, s.ring.consume = some r ∧ t = s.withRing r := by
  simp only [step] at h
  split at h
  · cases h
  · rename_i hpc
    obtain ⟨r, hr, rfl⟩ := Option.map_eq_some_iff.mp h
    exact ⟨hpc, r, hr, rfl⟩

/-- the completion of an accept that succeeds opens its descriptor, every other one only moves
the operation -/
theorem step_post {s t : St} {i : Nat} {c : Completion} (h : step L s (.post i c) = some t) :
    s.pc ≠ .done ∧ ∃ p r, s.ring.kern[i]? = some p ∧ s.ring.post Sqe.kind i c = some r ∧
      ((p.op.opcode = .accept ∧ 0 ≤ c.res ∧ s.isOpen c.res = false ∧ c.res ≠ L.listenFd ∧
          t = { s.withRing r with
            gen := Function.update s.gen c.res (s.gen c.res + 1)
            isOpen := Function.update s.isOpen c.res true }) ∨
        (¬ (p.op.opcode = .accept ∧ 0 ≤ c.res) ∧ t = s.withRing r)) := by
  simp only [step] at h
  split at h
  · cases h
  rename_i hpc
  unfold kernelPost at h
  split at h
  · rename_i p r hp hr
    refine ⟨hpc, p, r, hp, hr, ?_⟩
    by_cases ha : p.op.opcode = .accept ∧ 0 ≤ c.res
    · rw [if_pos ha] at h
      by_cases ho : s.isOpen c.res = false ∧ c.res ≠ L.listenFd
      · rw [if_pos ho] at h
        cases h
        exact Or.inl ⟨ha.1, ha.2, ho.1, ho.2, rfl⟩
      · rw [if_neg ho] at h
        cases h
    · rw [if_neg ha] at h
      cases h
      exact Or.inr ⟨ha, rfl⟩
  · cases h

end
end Server
end UringPerf
