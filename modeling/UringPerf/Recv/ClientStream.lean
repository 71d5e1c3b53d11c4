import UringPerf.Base.Solo
import UringPerf.Client.Teardown
import UringPerf.Recv.ServerStream
import UringPerf.Zcrx.Effect

/-!
# The clients as receivers of a stream

`run_client_reverse_recv` and `run_client_reverse_recv_zcrx` have a ring of their own for their one connection.

* `clientSolo`, `client_law`      the loop over multishot or single-shot receives;
* `zcSolo`, `zc_law`              the zero-copy loop, which also ends when it cannot wait for completions;
* `client_ready`, `zc_ready`      both begin with a receive in the kernel;
* `zcServerTap`                   a connection of `run_server_zcrx`.
-/

namespace UringPerf
namespace Recv
open Uring

/-! ## the loop over multishot or single-shot receives -/

section
variable (K : Client.Setup)

def streamEnds (multishot : Bool) (c : Completion) : Bool := if multishot then msEnds c else onceEnds c

/-- the receive that a completion queues -/
def clientAgain (s : Client.St) (c : Cqe Sqe) : List Sqe :=
  if K.useMultishot then
    if !c.more && c.res == -ENOBUFS then
      [recvMultishotSqe s.engine.reg s.engine.pool.bgid K.sockfd c.op.userData false]
    else []
  else if isRepeat c.res && !s.stop then
    [recvSqe s.engine.reg K.sockfd c.op.userData.bufPtr c.op.userData.length c.op.userData.bufIdx c.op.userData false]
  else []

def clientSolo : Solo Client.St Client.Act Sqe where
  step := Client.recvStep K
  ring := fun s => s.ring
  kind := Sqe.kind
  isOpen := fun s => !s.peerClosed
  stop := fun s => s.stop
  bytes := fun s => s.stats.bytesTransferred
  takes := fun a => a == .cqe
  posts := fun a => match a with
    | .post i c => some (i, c)
    | _ => none
  quits := fun _ => false
  again := clientAgain K
  ends := streamEnds K.useMultishot
  counts := streamCounts K.useMultishot
  whole := streamWhole K.useMultishot

/-- every entry is a receive of the kind that the loop uses -/
def ClientRecvs (s : Client.St) : Prop := ∀ o ∈ s.ring.outstanding, o.kind = recvKind K.useMultishot

variable {K} {s t : Client.St} {a : Client.Act} {c : Cqe Sqe}

theorem client_errorIfNeg_frame (s : Client.St) (res : Int) : (s.errorIfNeg res).engine = s.engine ∧
    (s.errorIfNeg res).stop = s.stop ∧ (s.errorIfNeg res).peerClosed = s.peerClosed := by
  unfold Client.St.errorIfNeg
  split <;> exact ⟨rfl, rfl, rfl⟩

theorem client_takeBuffer_frame (s : Client.St) (c : Completion) : (s.takeBuffer c).ring = s.ring ∧
    (s.takeBuffer c).engine.reg = s.engine.reg ∧ (s.takeBuffer c).engine.pool.bgid = s.engine.pool.bgid ∧
    (s.takeBuffer c).stop = s.stop := by
  unfold Client.St.takeBuffer
  cases c.buffer with
  | none => exact ⟨rfl, rfl, rfl, rfl⟩
  | some id =>
    dsimp only
    split <;> exact ⟨rfl, rfl, rfl, rfl⟩

/-- what the body of the loop does with a completion -/
structure ClientEffect (s u : Client.St) (c : Cqe Sqe) : Prop where
  ring : u.ring = s.ring.pushAll (clientAgain K s c)
  closed : u.peerClosed = (s.peerClosed || streamEnds K.useMultishot c.toCompletion)
  bytes : u.stats.bytesTransferred = s.stats.bytesTransferred + streamCounts K.useMultishot c.toCompletion
  stop : u.stop = s.stop

theorem multishot_effect (hm : K.useMultishot = true) (s : Client.St) (c : Cqe Sqe) :
    ClientEffect (K := K) s (Client.onRecvMultishot K s c.op.userData c.toCompletion) c := by
  obtain ⟨hring, hreg, hbgid, hstop⟩ := client_takeBuffer_frame s c.toCompletion
  obtain ⟨hbytes, hclosed⟩ := client_takeBuffer s c.toCompletion
  have hagain : clientAgain K s c = if !c.more && c.res == -ENOBUFS then
      [recvMultishotSqe s.engine.reg s.engine.pool.bgid K.sockfd c.op.userData false] else [] := if_pos hm
  unfold Client.onRecvMultishot
  generalize s.takeBuffer c.toCompletion = u at hring hreg hbgid hstop hbytes hclosed ⊢
  cases hmore : c.more with
  | true =>
    rw [hmore] at hagain
    refine ⟨by rw [hagain]; exact hring, ?_, ?_, hstop⟩
    · rw [hm, streamEnds, if_pos rfl, msEnds, hmore]
      exact hclosed.trans (Bool.or_false _).symm
    · rw [hm, streamCounts, if_pos rfl]
      exact hbytes
  | false =>
    rw [hmore] at hagain
    dsimp only
    rw [if_neg Bool.false_ne_true]
    by_cases hb : c.res = -ENOBUFS
    · rw [hb] at hagain
      rw [if_pos hb]
      refine ⟨?_, ?_, ?_, hstop⟩
      · rw [hagain, ← hreg, ← hbgid, ← hring]
        rfl
      · rw [hm, streamEnds, if_pos rfl, msEnds, hmore, hb]
        exact hclosed.trans (Bool.or_false _).symm
      · rw [hm, streamCounts, if_pos rfl]
        exact hbytes
    · rw [beq_eq_false_iff_ne.mpr hb] at hagain
      rw [if_neg hb]
      obtain ⟨he, hs', -⟩ := client_errorIfNeg_frame u c.res
      refine ⟨?_, ?_, ?_, hs'.trans hstop⟩
      · rw [hagain]
        exact (congrArg UringEngine.ring he).trans hring
      · rw [hm, streamEnds, if_pos rfl, msEnds, hmore, bne_iff_ne.mpr hb]
        exact (Bool.or_true _).symm
      · rw [hm, streamCounts, if_pos rfl]
        exact (client_errorIfNeg_bytes u c.res).trans hbytes

theorem single_effect (hm : K.useMultishot = false) (s : Client.St) (c : Cqe Sqe) :
    ClientEffect (K := K) s (Client.onRecv K s c.op.userData c.toCompletion) c := by
  have hagain : clientAgain K s c = if isRepeat c.res && !s.stop then
      [recvSqe s.engine.reg K.sockfd c.op.userData.bufPtr c.op.userData.length c.op.userData.bufIdx c.op.userData
        false] else [] := by
    unfold clientAgain
    rw [hm]
    rfl
  have hends : streamEnds K.useMultishot c.toCompletion = !isRepeat c.res := by
    rw [hm]
    rfl
  have hcounts : streamCounts K.useMultishot c.toCompletion = if 0 < c.res then c.res.toNat else 0 := by
    rw [hm]
    rfl
  unfold Client.onRecv
  by_cases hr : 0 < c.res
  · rw [repeat_of_pos hr] at hagain hends
    rw [if_pos hr] at hcounts ⊢
    rw [Bool.not_true] at hends
    refine ⟨?_, ?_, ?_, ?_⟩
    · rw [hagain]
      cases s.stop <;> rfl
    · rw [hends, Bool.or_false]
      cases s.stop <;> rfl
    · rw [hcounts]
      cases s.stop <;> rfl
    · split <;> rfl
  · rw [if_neg hr] at hcounts ⊢
    cases hag : isAgain c.res with
    | true =>
      rw [repeat_of_again hag] at hagain hends
      rw [Bool.not_true] at hends
      refine ⟨?_, ?_, ?_, ?_⟩
      · rw [hagain]
        cases s.stop <;> rfl
      · rw [hends, Bool.or_false]
        cases s.stop <;> rfl
      · rw [hcounts]
        cases s.stop <;> rfl
      · rw [if_pos rfl]
        split <;> rfl
    | false =>
      have hrep : isRepeat c.res = false := by
        unfold isRepeat
        rw [decide_eq_false hr, hag]
        rfl
      obtain ⟨he, hs', -⟩ := client_errorIfNeg_frame s c.res
      rw [hrep] at hagain hends
      refine ⟨?_, ?_, ?_, hs'⟩
      · rw [hagain]
        exact congrArg UringEngine.ring he
      · rw [hends]
        exact (Bool.or_true _).symm
      · rw [hcounts]
        exact client_errorIfNeg_bytes s c.res

theorem recvCqe_effect (s : Client.St) (c : Cqe Sqe) : ClientEffect (K := K) s (Client.recvCqe K s c) c := by
  unfold Client.recvCqe
  cases hm : K.useMultishot with
  | true => exact multishot_effect hm s c
  | false => exact single_effect hm s c

/-- what the loop queues is a receive of its kind -/
theorem clientAgain_kind {o : Sqe} (ho : o ∈ clientAgain K s c) : o.kind = recvKind K.useMultishot := by
  unfold clientAgain at ho
  cases hm : K.useMultishot with
  | true =>
    rw [hm, if_pos rfl] at ho
    split at ho
    · rw [List.mem_singleton.mp ho]
      rfl
    · exact absurd ho List.not_mem_nil
  | false =>
    rw [hm, if_neg Bool.false_ne_true] at ho
    split at ho
    · rw [List.mem_singleton.mp ho]
      rfl
    · exact absurd ho List.not_mem_nil

theorem clientRecvs_step (hJ : ClientRecvs K s) (h : Client.recvStep K s a = some t) : ClientRecvs K t := by
  intro o ho
  cases Client.step_cases h with
  | idle | submit => exact hJ o (IoRing.mem_outstanding_submit.mp ho)
  | reap | finish | signal => exact hJ o ho
  | cqe n c cs hpc hcq =>
    replace ho : o ∈ (Client.recvCqe K s c).ring.seen.outstanding := ho
    rw [(recvCqe_effect s c).ring, IoRing.pushAll_seen] at ho
    rcases IoRing.mem_outstanding_pushAll _ ho with ho | ho
    · exact hJ o ((IoRing.mem_outstanding_seen hcq).mpr (Or.inr ho))
    · exact clientAgain_kind ho
  | post i c r hpc hr => exact hJ o ((IoRing.mem_outstanding_post hr).mp ho)
  | consume r hpc hr => exact hJ o ((IoRing.mem_outstanding_consume hr).mp ho)

/-- **The client follows the discipline of a receiver.** -/
theorem client_law (K : Client.Setup) : (clientSolo K).Law (ClientRecvs K) where
  inv := fun s a t hJ h => clientRecvs_step hJ h
  apart := by
    intro a ha
    obtain rfl : a = .cqe := beq_iff_eq.mp ha
    exact ⟨rfl, rfl⟩
  takes := by
    intro s a t _ h ha
    obtain rfl : a = .cqe := beq_iff_eq.mp ha
    replace h : Client.recvStep K s .cqe = some t := h
    cases Client.step_cases h with
    | cqe n c cs hpc hcq =>
      have he : ClientEffect (K := K) s _ c := recvCqe_effect s c
      refine ⟨c, cs, hcq, ?_, ?_, he.bytes, he.stop⟩
      · show (Client.recvCqe K s c).ring.seen = s.ring.seen.pushAll _
        rw [he.ring, IoRing.pushAll_seen]
        rfl
      · show (!(Client.recvCqe K s c).peerClosed) = (!s.peerClosed && !streamEnds K.useMultishot c.toCompletion)
        rw [he.closed, Bool.not_or]
  posts := by
    intro s a t i c _ h hpost
    replace h : Client.recvStep K s a = some t := h
    cases Client.step_cases h with
    | post j d r hpc hr =>
      cases hpost
      exact ⟨rfl, hr, rfl, rfl⟩
    | _ => cases hpost
  other := by
    intro s a t _ h htak hpost
    replace h : Client.recvStep K s a = some t := h
    show t.ring.cq = s.ring.cq ∧ t.ring.armedIn Sqe.kind Solo.key () = s.ring.armedIn Sqe.kind Solo.key () ∧
      (!t.peerClosed) = (!s.peerClosed && true) ∧ (t.stop = false → s.stop = false) ∧ (false = true → t.stop = s.stop)
    rw [Bool.and_true]
    cases Client.step_cases h with
    | idle | submit => exact ⟨IoRing.submit_cq _, IoRing.armedIn_submit _ _, rfl, id, nofun⟩
    | reap | finish => exact ⟨rfl, rfl, rfl, id, nofun⟩
    | signal => exact ⟨rfl, rfl, rfl, nofun, nofun⟩
    | cqe n c cs hpc hcq => cases htak
    | post j d r hpc hr => cases hpost
    | consume r hpc hr =>
      obtain ⟨op, -, -, hcq, -⟩ := IoRing.consume_some hr
      exact ⟨hcq, IoRing.armedIn_consume hr (), rfl, id, nofun⟩
  again := by
    intro s c cs hJ hstop hcq hcl hends
    have hkind : c.op.kind = recvKind K.useMultishot := hJ c.op ((IoRing.mem_outstanding_seen hcq).mpr (Or.inl rfl))
    replace hcl : c.op.kind.closes c.toCompletion = true := hcl
    replace hends : streamEnds K.useMultishot c.toCompletion = false := hends
    replace hstop : s.stop = false := hstop
    show ∃ o, clientAgain K s c = [o]
    unfold clientAgain
    cases hm : K.useMultishot with
    | true =>
      rw [hkind, hm] at hcl
      rw [hm] at hends
      have hmore : c.more = false := (Bool.not_eq_true' _).mp hcl
      have hres : (c.res != -ENOBUFS) = false := by
        replace hends : (!c.more && c.res != -ENOBUFS) = false := hends
        rwa [hmore] at hends
      rw [if_pos rfl, hmore, bne_eq_false_iff_eq.mp hres]
      exact ⟨_, rfl⟩
    | false =>
      rw [hm] at hends
      have hrep : isRepeat c.res = true := (Bool.not_eq_false' _).mp hends
      rw [if_neg Bool.false_ne_true, hrep, hstop]
      exact ⟨_, rfl⟩
  counts_le := streamCounts_le K.useMultishot
  exact := fun c hwhole _ => streamCounts_whole hwhole

end

/-! ## before the loop -/

section
variable {K : Client.Setup} {cap : Nat}

/-- the ring before the loop: the receives that fit have been submitted -/
theorem recvStart_ring (hN : 1 ≤ K.config.inFlight) (cap : Nat) : ∃ ops : List Sqe, ops ≠ [] ∧
    (∀ o ∈ ops, o.kind = recvKind K.useMultishot) ∧
    (Client.recvStart K cap).ring = ((IoRing.init cap K.sqpoll).pushAll ops).submit := by
  cases hm : K.useMultishot with
  | true =>
    refine ⟨[recvMultishotSqe K.recvReg K.pool.bgid K.sockfd K.msCtx false], List.cons_ne_nil _ _, ?_, ?_⟩
    · intro o ho
      rw [List.mem_singleton.mp ho]
      rfl
    · unfold Client.recvStart
      rw [if_pos hm]
      rfl
  | false =>
    refine ⟨(List.range K.config.inFlight).map (Client.recvOp K), ?_, ?_, (Client.recv_primed K hm cap).ring⟩
    · intro h
      have := congrArg List.length h
      rw [List.length_map, List.length_range, List.length_nil] at this
      omega
    · intro o ho
      obtain ⟨i, -, rfl⟩ := List.mem_map.mp ho
      rfl

theorem recvStart_open (K : Client.Setup) (cap : Nat) :
    (Client.recvStart K cap).peerClosed = false ∧ (Client.recvStart K cap).stop = false := by
  have hfold : ∀ (ctxs : List IOContext) (s : Client.St), s.peerClosed = false ∧ s.stop = false →
      (ctxs.foldl (fun s ctx => s.rerecv K ctx) s).peerClosed = false ∧
        (ctxs.foldl (fun s ctx => s.rerecv K ctx) s).stop = false := by
    intro ctxs
    induction ctxs with
    | nil => exact fun s hs => hs
    | cons ctx ctxs ih => exact fun s hs => ih (s.rerecv K ctx) hs
  unfold Client.recvStart
  dsimp only
  split
  · exact ⟨rfl, rfl⟩
  · exact hfold _ _ ⟨rfl, rfl⟩

/-- **The client begins with a receive in the kernel.** -/
theorem client_ready (hN : 1 ≤ K.config.inFlight) (hcap : 1 ≤ cap) : ClientRecvs K (Client.recvStart K cap) ∧
    (clientSolo K).tap.pending (Client.recvStart K cap) = [] ∧
    (clientSolo K).tap.Receives (Client.recvStart K cap) := by
  obtain ⟨ops, hne, hkind, hring⟩ := recvStart_ring hN cap
  refine ⟨fun o ho => ?_, ?_, ?_, ?_⟩
  · rw [hring, IoRing.mem_outstanding_submit] at ho
    rcases IoRing.mem_outstanding_pushAll _ ho with ho | ho
    · exact absurd ho List.not_mem_nil
    · exact hkind o ho
  · rw [Solo.pending_eq]
    refine IoRing.unseen_nil _ ?_
    show (Client.recvStart K cap).ring.cq = []
    rw [hring, IoRing.submit_cq, IoRing.pushAll_cq]
    rfl
  · show (!(Client.recvStart K cap).peerClosed) = true
    rw [(recvStart_open K cap).1]
    rfl
  · show 0 < (Client.recvStart K cap).ring.armedIn Sqe.kind Solo.key ()
    rw [hring]
    exact Solo.armed_init hne hcap

end

/-! ## the zero-copy loops -/

section
variable (conn : Conn)

/-- only data with the MORE flag is counted -/
def zcCounts (c : Completion) : Nat := if Zcrx.isData c then c.res.toNat else 0

/-- a failed wait ends the loop, as the teardown does -/
def zcQuits : Zcrx.Act → Bool
  | .abort => true
  | .finish => true
  | _ => false

def zcSolo : Solo Zcrx.ClientSt Zcrx.Act Zcrx.Op where
  step := Zcrx.clientStep conn
  ring := fun s => s.ring
  kind := Zcrx.Op.kind
  isOpen := fun s => !s.peerClosed && s.pc != .exit && s.pc != .done
  stop := fun s => s.stop
  bytes := fun s => s.stats.bytesTransferred
  takes := fun a => a == .cqe
  posts := fun a => match a with
    | .post i c => some (i, c)
    | _ => none
  quits := zcQuits
  again := fun _ c => if !c.more && Zcrx.isStarved c.res then [.recv conn] else []
  ends := Zcrx.isFinal
  counts := zcCounts
  whole := fun _ => true

/-- the connection `conn` of the zero-copy server -/
def zcServerTap (listenFd : Int) : Tap Zcrx.St Zcrx.Act where
  step := Zcrx.step listenFd
  posted := fun s a => match a with
    | .post i c => s.ring.named (· == .recv conn) i c
    | _ => none
  taken := fun s a => match a with
    | .cqe => s.ring.first (· == .recv conn)
    | _ => none
  pending := fun s => s.ring.unseen (· == .recv conn)
  armed := fun s => (s.ring.armed Zcrx.Op.kind).countP (· == .recv conn)
  isOpen := fun s => (s.conns.lookup conn.fd).any (· == conn) && s.pc != .exit && s.pc != .done
  stop := fun s => s.stop
  bytes := fun s => s.stats.bytesTransferred
  whole := fun _ => true

def ZcRecvs (s : Zcrx.ClientSt) : Prop := ∀ o ∈ s.ring.outstanding, o = .recv conn

variable {conn : Conn} {s t : Zcrx.ClientSt} {a : Zcrx.Act}

/-- the body of the loop -/
theorem onClientRx_effect (s : Zcrx.ClientSt) (conn : Conn) (c : Completion) :
    (Zcrx.onClientRx s conn c).peerClosed = (s.peerClosed || Zcrx.isFinal c) ∧
      (Zcrx.onClientRx s conn c).stats.bytesTransferred = s.stats.bytesTransferred + zcCounts c ∧
      (Zcrx.onClientRx s conn c).stop = s.stop ∧ (Zcrx.onClientRx s conn c).pc = s.pc := by
  unfold Zcrx.onClientRx Zcrx.isFinal zcCounts Zcrx.isData
  cases hm : c.more with
  | false =>
    cases hst : Zcrx.isStarved c.res with
    | true => exact ⟨(Bool.or_false _).symm, rfl, rfl, rfl⟩
    | false =>
      refine ⟨(Bool.or_true _).symm, ?_, rfl, rfl⟩
      show (Zcrx.errorIfNeg s.stats c.res).bytesTransferred = _
      unfold Zcrx.errorIfNeg
      split <;> rfl
  | true =>
    rw [if_neg Bool.noConfusion]
    by_cases hr : 0 < c.res
    · rw [if_pos hr, decide_eq_true hr]
      exact ⟨(Bool.or_false _).symm, rfl, rfl, rfl⟩
    · rw [if_neg hr, decide_eq_false hr]
      exact ⟨(Bool.or_false _).symm, rfl, rfl, rfl⟩

theorem zc_taken (h : Zcrx.clientStep conn s .cqe = some t) : ∃ c cs, (zcSolo conn).Taken s t c cs := by
  obtain ⟨c, cs, hcq, -, hring⟩ := Zcrx.client_cqe h
  simp only [Zcrx.clientStep, hcq] at h
  split at h
  next d ds hpc hd =>
    cases hd
    cases h
    obtain ⟨hclosed, hbytes, hstop, hpc'⟩ := onClientRx_effect s conn c.toCompletion
    refine ⟨c, cs, hcq, hring, ?_, hbytes, hstop⟩
    show (!(Zcrx.onClientRx s conn c.toCompletion).peerClosed && (Zcrx.onClientRx s conn c.toCompletion).pc != .exit &&
        (Zcrx.onClientRx s conn c.toCompletion).pc != .done)
      = (!s.peerClosed && s.pc != .exit && s.pc != .done && !Zcrx.isFinal c.toCompletion)
    rw [hclosed, hpc', hpc, Bool.not_or]
    cases s.peerClosed <;> cases Zcrx.isFinal c.toCompletion <;> rfl
  · cases h

/-- the actions that neither process nor post a completion -/
theorem zc_other (h : Zcrx.clientStep conn s a = some t) (hcqe : a ≠ .cqe) (hpost : ∀ i c, a ≠ .post i c) :
    (t.ring = s.ring ∨ t.ring = s.ring.submit) ∧
      (zcSolo conn).isOpen t = ((zcSolo conn).isOpen s && !zcQuits a) ∧ (t.stop = false → s.stop = false) ∧
      (zcQuits a = true → t.stop = s.stop) := by
  have hopen : ∀ u : Zcrx.ClientSt, (zcSolo conn).isOpen u = (!u.peerClosed && u.pc != .exit && u.pc != .done) :=
    fun _ => rfl
  have kept : false = true → t.stop = s.stop := fun h => absurd h Bool.false_ne_true
  rw [hopen, hopen]
  cases a with
  | wait =>
    simp only [Zcrx.clientStep] at h
    split at h
    next hc =>
      cases h
      rw [hc.1]
      exact ⟨Or.inr rfl, (Bool.and_true _).symm, id, kept⟩
    · cases h
  | abort =>
    simp only [Zcrx.clientStep] at h
    split at h
    next hc =>
      cases h
      refine ⟨Or.inl rfl, ?_, id, fun _ => rfl⟩
      rw [zcQuits, Bool.not_true, Bool.and_false]
      cases s.peerClosed <;> rfl
    · cases h
  | cqe => exact absurd rfl hcqe
  | advance =>
    simp only [Zcrx.clientStep] at h
    split at h
    next hc =>
      cases h
      rw [hc.1]
      exact ⟨Or.inl rfl, (Bool.and_true _).symm, id, kept⟩
    · cases h
  | finish =>
    simp only [Zcrx.clientStep] at h
    split at h
    next hc =>
      cases h
      refine ⟨Or.inl rfl, ?_, id, fun _ => rfl⟩
      rw [zcQuits, Bool.not_true, Bool.and_false]
      cases s.peerClosed <;> rfl
    · cases h
  | signal =>
    simp only [Zcrx.clientStep] at h
    split at h
    · cases h
    · cases h
      exact ⟨Or.inl rfl, (Bool.and_true _).symm, fun h => absurd h.symm Bool.false_ne_true, kept⟩
  | post i c => exact absurd rfl (hpost i c)
  | refill =>
    obtain ⟨-, rfl⟩ := Zcrx.client_refill h
    exact ⟨Or.inl rfl, (Bool.and_true _).symm, id, kept⟩

theorem zcRecvs_step (hJ : ZcRecvs conn s) (h : Zcrx.clientStep conn s a = some t) : ZcRecvs conn t := by
  intro o ho
  by_cases hcqe : a = .cqe
  · rw [hcqe] at h
    obtain ⟨c, cs, hcq, -, hring⟩ := Zcrx.client_cqe h
    rw [hring] at ho
    rcases IoRing.mem_outstanding_pushAll _ ho with ho | ho
    · exact hJ o ((IoRing.mem_outstanding_seen hcq).mpr (Or.inr ho))
    · split at ho
      · exact List.mem_singleton.mp ho
      · exact absurd ho List.not_mem_nil
  by_cases hpost : ∃ i c, a = .post i c
  · obtain ⟨i, c, rfl⟩ := hpost
    obtain ⟨r, hr, rfl⟩ := Zcrx.client_post h
    exact hJ o ((IoRing.mem_outstanding_post hr).mp ho)
  · obtain ⟨hring | hring, -⟩ := zc_other h hcqe fun i c e => hpost ⟨i, c, e⟩
    · rw [hring] at ho
      exact hJ o ho
    · rw [hring] at ho
      exact hJ o (IoRing.mem_outstanding_submit.mp ho)

/-- **The zero-copy client follows the discipline of a receiver.** -/
theorem zc_law (conn : Conn) : (zcSolo conn).Law (ZcRecvs conn) where
  inv := fun s a t hJ h => zcRecvs_step hJ h
  apart := by
    intro a ha
    obtain rfl : a = .cqe := beq_iff_eq.mp ha
    exact ⟨rfl, rfl⟩
  takes := by
    intro s a t _ h ha
    obtain rfl : a = .cqe := beq_iff_eq.mp ha
    exact zc_taken h
  posts := by
    intro s a t i c _ h hpost
    cases a with
    | post j d =>
      cases hpost
      replace h : Zcrx.clientStep conn s (.post i c) = some t := h
      obtain ⟨r, hr, rfl⟩ := Zcrx.client_post h
      exact ⟨rfl, hr, rfl, rfl⟩
    | _ => cases hpost
  other := by
    intro s a t _ h htak hpost
    have hcqe : a ≠ .cqe := beq_eq_false_iff_ne.mp htak
    have hpost' : ∀ i c, a ≠ .post i c := by
      rintro i c rfl
      cases hpost
    obtain ⟨hring, hopen, hstop, hkeep⟩ := zc_other h hcqe hpost'
    refine ⟨?_, ?_, hopen, hstop, hkeep⟩
    · show t.ring.cq = s.ring.cq
      rcases hring with hring | hring
      · rw [hring]
      · rw [hring, IoRing.submit_cq]
    · show t.ring.armedIn Zcrx.Op.kind Solo.key () = s.ring.armedIn Zcrx.Op.kind Solo.key ()
      rcases hring with hring | hring
      · rw [hring]
      · rw [hring, IoRing.armedIn_submit]
  again := by
    intro s c cs hJ _ hcq hcl hends
    have hop : c.op = .recv conn := hJ c.op ((IoRing.mem_outstanding_seen hcq).mpr (Or.inl rfl))
    replace hcl : c.op.kind.closes c.toCompletion = true := hcl
    rw [hop] at hcl
    have hmore : c.more = false := (Bool.not_eq_true' _).mp hcl
    replace hends : (!c.more && !Zcrx.isStarved c.res) = false := hends
    rw [hmore, Bool.not_false, Bool.true_and, Bool.not_eq_false'] at hends
    refine ⟨.recv conn, ?_⟩
    show (if !c.more && Zcrx.isStarved c.res then [Zcrx.Op.recv conn] else []) = _
    rw [hmore, hends]
    rfl
  counts_le := by
    intro c
    show zcCounts c ≤ _
    unfold zcCounts
    split <;> omega
  exact := by
    intro c _ hends
    replace hends : (!c.more && !Zcrx.isStarved c.res) = false := hends
    show zcCounts c = _
    unfold zcCounts Zcrx.isData
    by_cases hr : 0 < c.res
    · -- data without the MORE flag is not a shortage of buffers, so it would have ended the connection
      have hst : Zcrx.isStarved c.res = false := by
        unfold Zcrx.isStarved ENOSPC ENOMEM
        rw [beq_eq_false_iff_ne.mpr (by omega), beq_eq_false_iff_ne.mpr (by omega)]
        rfl
      rw [hst, Bool.not_false, Bool.and_true, Bool.not_eq_false'] at hends
      rw [hends, decide_eq_true hr]
      rfl
    · rw [decide_eq_false hr, Bool.and_false, if_neg Bool.false_ne_true]
      omega

/-- **The zero-copy client begins with a receive in the kernel.** -/
theorem zc_ready {cap : Nat} (hcap : 1 ≤ cap) (rq : Zcrx.RefillQueue) (conn : Conn) :
    ZcRecvs conn (Zcrx.clientStart cap rq conn) ∧
    (zcSolo conn).tap.pending (Zcrx.clientStart cap rq conn) = [] ∧
    (zcSolo conn).tap.Receives (Zcrx.clientStart cap rq conn) := by
  have hring : (Zcrx.clientStart cap rq conn).ring = ((IoRing.init cap false).pushAll [.recv conn]).submit := rfl
  refine ⟨fun o ho => ?_, ?_, rfl, ?_⟩
  · rw [hring, IoRing.mem_outstanding_submit] at ho
    rcases IoRing.mem_outstanding_pushAll _ ho with ho | ho
    · exact absurd ho List.not_mem_nil
    · exact List.mem_singleton.mp ho
  · rw [Solo.pending_eq]
    refine IoRing.unseen_nil _ ?_
    show (Zcrx.clientStart cap rq conn).ring.cq = []
    rw [hring, IoRing.submit_cq, IoRing.pushAll_cq]
    rfl
  · show 0 < (Zcrx.clientStart cap rq conn).ring.armedIn Zcrx.Op.kind Solo.key ()
    rw [hring]
    exact Solo.armed_init (List.cons_ne_nil _ _) hcap

end
end Recv
end UringPerf
