import UringPerf.Server.Queue

/-!
# The receives of a UDP server

A UDP server has no connections: it lives by the receives on its socket, one multishot receive or one
receive for each buffer.

* `udpOps`         how many receives it starts with;
* `Alive`          all of them are still there, unless the worker has been told to stop;
* `Repeats`        a single-shot receive has a result after which the code queues it again;
* `udp_alive_iff`  along every run the receives stay alive exactly if all results are of this kind.
-/

namespace UringPerf
namespace Server
open Uring

section
variable (L : Setup)

def udpOps : Nat := if L.useMultishot then 1 else L.config.inFlight

def Alive (s : St) : Prop := s.stop = false → (s.ring.armed Sqe.kind).length = udpOps L

/-- the condition on the completion that is processed next -/
def Repeats (s : St) : Act → Prop
  | .cqe _ _ => s.stop = false → L.useMultishot = false →
      ∀ c ∈ s.ring.cq.head?, isRepeat c.res = true
  | _ => True

instance (s : St) : (a : Act) → Decidable (Repeats L s a)
  | .cqe _ _ => inferInstanceAs (Decidable (s.stop = false → L.useMultishot = false →
      ∀ c ∈ s.ring.cq.head?, isRepeat c.res = true))
  | .sweep _ | .reap | .submit | .finish | .signal | .post _ _ | .consume => isTrue trivial

/-- the entries of a UDP server -/
def udpOpcode : Opcode := if L.useMultishot then .recvMultishot else .recv

/-- no connections, and nothing but receives -/
structure UdpRecvs (s : St) : Prop where
  sessions : ∀ f, s.sessions.lookup f = none
  recvs : ∀ o ∈ s.ring.outstanding, o.userData.type = .recv ∧ o.opcode = udpOpcode L

structure UdpInv (cap : Nat) (s : St) : Prop where
  entries : s.ring.cap = cap
  sessions : ∀ f, s.sessions.lookup f = none
  recvs : ∀ o ∈ s.ring.outstanding, o.userData.type = .recv ∧ o.opcode = udpOpcode L
  count : (s.ring.armed Sqe.kind).length ≤ udpOps L

variable {L}

/-! ## one completion -/

/-- whether the processed completion terminates its receive -/
def ends (L : Setup) (c : Completion) : Bool := !L.useMultishot || !c.more

theorem closes_udp {o : Sqe} (h : o.opcode = udpOpcode L) (c : Completion) :
    (Sqe.kind o).closes c = ends L c := by
  unfold Sqe.kind ends
  rw [h]
  unfold udpOpcode
  cases L.useMultishot with
  | true => exact (Bool.false_or _).symm
  | false => rfl

/-- whether it is queued again -/
def requeues (L : Setup) (s : St) (c : Completion) : Bool :=
  if L.useMultishot then !c.more && (c.res == -ENOBUFS || !s.stop) else isRepeat c.res

theorem queued_udp {now : Nat} {hs : Option (Bool × Nat)} {s : St} {c : Cqe Sqe}
    (hudp : L.config.protocol = .udp) (ht : c.op.userData.type = .recv) :
    (queued L now hs s c).length = (if requeues L s c.toCompletion then 1 else 0) ∧
      ∀ o ∈ queued L now hs s c, o.userData.type = .recv ∧ o.opcode = udpOpcode L := by
  unfold queued requeues udpOpcode
  rw [ht, hudp]
  dsimp only
  rw [show (Protocol.udp == Protocol.udp) = true from rfl, Bool.true_and]
  cases L.useMultishot with
  | true =>
    simp only [if_true]
    split
    · refine ⟨rfl, fun o ho => ?_⟩
      rw [List.mem_singleton.mp ho]
      exact ⟨ht, rfl⟩
    · exact ⟨rfl, fun o ho => absurd ho List.not_mem_nil⟩
  | false =>
    simp only [Bool.false_eq_true, if_false]
    split
    · refine ⟨rfl, fun o ho => ?_⟩
      rw [List.mem_singleton.mp ho]
      exact ⟨ht, rfl⟩
    · exact ⟨rfl, fun o ho => absurd ho List.not_mem_nil⟩

/-- only a terminated receive is queued again -/
theorem requeues_le {s : St} {c : Completion} (h : requeues L s c = true) : ends L c = true := by
  unfold requeues at h
  unfold ends
  cases hm : L.useMultishot with
  | false => rfl
  | true =>
    rw [hm, if_pos rfl] at h
    exact ((Bool.and_eq_true _ _).mp h).1

/-- before the signal a terminated receive is queued again in multishot mode, and otherwise exactly if
its result is one to repeat -/
theorem requeues_iff {s : St} {c : Completion} (hs : s.stop = false) :
    (requeues L s c = ends L c) ↔ (L.useMultishot = false → isRepeat c.res = true) := by
  unfold requeues ends
  rw [hs]
  cases L.useMultishot with
  | true => simp
  | false => simp

theorem book_udp {now : Nat} {hs : Option (Bool × Nat)} {s : St} {c : Cqe Sqe}
    (h : ∀ f, s.sessions.lookup f = none) (ht : c.op.userData.type = .recv) :
    book L now hs s c = s := by
  have hacc : accepts c = false := by
    unfold accepts
    rw [ht]
    rfl
  have he : ended L s c = none := by
    unfold ended
    split
    · exact h _
    · rfl
  simp only [book, hacc, he, Bool.false_eq_true, if_false]

section
variable {cap n : Nat} {now : Nat} {hs : Option (Bool × Nat)} {s t : St} {c : Cqe Sqe}
  {cs : List (Cqe Sqe)}

theorem UdpInv.toRecvs (h : UdpInv L cap s) : UdpRecvs L s := ⟨h.sessions, h.recvs⟩

theorem udpRecvs_cqe (hudp : L.config.protocol = .udp) (hi : UdpRecvs L s) (h : CqeStep L now hs s t n c cs) :
    UdpRecvs L t := by
  have ht := (hi.recvs c.op (head_outstanding h.cq)).1
  refine ⟨?_, ?_⟩
  · rw [h.sessions, book_udp hi.sessions ht]
    exact hi.sessions
  · intro o ho
    rw [h.ring] at ho
    rcases IoRing.mem_outstanding_pushAll _ ho with ho | ho
    · exact hi.recvs o ((IoRing.mem_outstanding_seen h.cq).mpr (Or.inr ho))
    · exact (queued_udp hudp ht).2 o ho

theorem UdpRecvs.quiet (hi : UdpRecvs L s) (hq : Quiet s t) : UdpRecvs L t := by
  refine ⟨fun f => ?_, fun o ho => hi.recvs o (hq.outstanding o ho)⟩
  cases hl : t.sessions.lookup f with
  | none => rfl
  | some ss =>
    have := hq.sessions f ss hl
    rw [hi.sessions f] at this
    cases this

theorem udpRecvs_step (hudp : L.config.protocol = .udp) {a : Act} (hi : UdpRecvs L s) (h : step L s a = some t) :
    UdpRecvs L t := by
  rcases step_quiet h with ⟨now, hs, n, c, cs, -, hc⟩ | ⟨-, hq⟩
  · exact udpRecvs_cqe hudp hi hc
  · exact hi.quiet hq

/-- the receives after a completion has been processed; there is always room for the new entry -/
theorem armed_udp (hudp : L.config.protocol = .udp) (hcap : udpOps L ≤ cap) (hi : UdpInv L cap s)
    (h : CqeStep L now hs s t n c cs) :
    (t.ring.armed Sqe.kind).length + (if ends L c.toCompletion then 1 else 0) =
      (s.ring.armed Sqe.kind).length + if requeues L s c.toCompletion then 1 else 0 := by
  obtain ⟨ht, hop⟩ := hi.recvs c.op (head_outstanding h.cq)
  have hq : (queued L now hs s c).length = _ := (queued_udp hudp ht).1
  have h1 : s.ring.armedIn Sqe.kind IoRing.allKey () = _ := IoRing.armedIn_seen h.cq ()
  rw [closes_udp hop, IoRing.armedIn_all, IoRing.armedIn_all] at h1
  have hend : (if IoRing.allKey c.op = some () ∧ ends L c.toCompletion = true then 1 else 0) =
      if ends L c.toCompletion then 1 else 0 := by
    cases ends L c.toCompletion <;> rfl
  rw [hend] at h1
  have hfit : s.ring.seen.sq.length + (queued L now hs s c).length ≤ s.ring.seen.cap := by
    have h2 := IoRing.sq_le_armed Sqe.kind s.ring.seen
    have h3 := hi.count
    have h4 : s.ring.seen.cap = cap := hi.entries
    have h5 := s.ring.seen.sq_le
    rw [hq]
    cases hr : requeues L s c.toCompletion with
    | false => exact h5
    | true =>
      rw [requeues_le hr, if_pos rfl] at h1
      rw [if_pos rfl]
      omega
  have h6 := (IoRing.armed_pushAll Sqe.kind s.ring.seen (queued L now hs s c)).length_eq
  rw [List.length_append, List.take_of_length_le (by omega), ← h.ring, hq] at h6
  omega

theorem udpInv_cqe (hudp : L.config.protocol = .udp) (hcap : udpOps L ≤ cap) (hi : UdpInv L cap s)
    (h : CqeStep L now hs s t n c cs) : UdpInv L cap t := by
  obtain ⟨hsess, hrecvs⟩ := udpRecvs_cqe hudp hi.toRecvs h
  refine ⟨?_, hsess, hrecvs, ?_⟩
  · rw [h.ring, IoRing.pushAll_cap]
    exact hi.entries
  · have h1 := armed_udp hudp hcap hi h
    have h2 := hi.count
    cases hr : requeues L s c.toCompletion with
    | true =>
      rw [hr, requeues_le hr] at h1
      omega
    | false =>
      rw [hr, if_neg Bool.false_ne_true] at h1
      omega

end

/-- **Every action keeps the invariant.** -/
theorem udpInv_step (hudp : L.config.protocol = .udp) {cap : Nat} (hcap : udpOps L ≤ cap) (s : St)
    (a : Act) (t : St) (hi : UdpInv L cap s) (h : step L s a = some t) : UdpInv L cap t := by
  rcases step_quiet h with ⟨now, hs, n, c, cs, -, hc⟩ | ⟨-, hq⟩
  · exact udpInv_cqe hudp hcap hi hc
  · obtain ⟨hsess, hrecvs⟩ := hi.toRecvs.quiet hq
    refine ⟨hq.cap.trans hi.entries, hsess, hrecvs, ?_⟩
    rw [← IoRing.armedIn_all, hq.armedIn, IoRing.armedIn_all]
    exact hi.count

/-- one action keeps the receives alive exactly if it repeats -/
theorem alive_step (hudp : L.config.protocol = .udp) {cap : Nat} (hcap : udpOps L ≤ cap) (s : St)
    (a : Act) (t : St) (hi : UdpInv L cap s) (ha : Alive L s) (h : step L s a = some t) :
    Alive L t ↔ Repeats L s a := by
  rcases step_quiet h with ⟨now, hs, n, c, cs, rfl, hc⟩ | ⟨hne, hq⟩
  · have ht := (hi.recvs c.op (head_outstanding hc.cq)).1
    have hstop : t.stop = s.stop := by rw [hc.stop, book_udp hi.sessions ht]
    have hrep : Repeats L s (.cqe now hs) ↔
        (s.stop = false → L.useMultishot = false → isRepeat c.res = true) := by
      unfold Repeats
      rw [hc.cq]
      simp
    rw [hrep]
    unfold Alive
    rw [hstop]
    refine forall_congr' fun hs => ?_
    have h1 := armed_udp hudp hcap hi hc
    have h2 := ha hs
    rw [← requeues_iff hs]
    cases hr : requeues L s c.toCompletion with
    | true =>
      rw [hr, requeues_le hr] at h1
      rw [requeues_le hr]
      exact iff_of_true (by omega) rfl
    | false =>
      rw [hr, if_neg Bool.false_ne_true] at h1
      cases he : ends L c.toCompletion with
      | false =>
        rw [he, if_neg Bool.false_ne_true] at h1
        exact iff_of_true (by omega) rfl
      | true =>
        rw [he, if_pos rfl] at h1
        exact iff_of_false (by omega) Bool.false_ne_true
  · have h1 : Alive L t := by
      intro hs
      rw [← IoRing.armedIn_all, hq.armedIn, IoRing.armedIn_all]
      exact ha (hq.stop hs)
    refine iff_of_true h1 ?_
    cases a with
    | cqe now hs => exact absurd rfl (hne now hs)
    | _ => exact trivial

/-! ## the state before the loop -/

/-- the receive on the `i`-th buffer of the pool -/
def poolSqe (L : Setup) (reg : Registered) (i : Nat) : Sqe :=
  recvSqe reg L.udpRecvFd (some ⟨.pool, i⟩) L.config.bufSize i (L.poolCtx i) L.udpFixedFile

def udpPrime (L : Setup) : List Sqe :=
  if L.useMultishot then [recvMultishotSqe L.reg L.pool.bgid L.udpRecvFd L.udpMsCtx L.udpFixedFile]
  else (List.range L.config.inFlight).map (poolSqe L L.reg)

theorem prime_pool (is : List Nat) : ∀ e : UringEngine,
    (is.foldl (fun e i => (e.prepRecv L.udpRecvFd (some ⟨.pool, i⟩) L.config.bufSize i (L.poolCtx i)
      L.udpFixedFile).2) e).ring = e.ring.pushAll (is.map (poolSqe L e.reg)) := by
  induction is with
  | nil => intro e; rfl
  | cons i is ih =>
    intro e
    rw [List.foldl_cons, ih]
    rfl

theorem udp_start_ring (hudp : L.config.protocol = .udp) (cap : Nat) : (start L cap).ring =
    ((IoRing.init cap L.sqpoll).pushAll (udpPrime L)).submit := by
  show (primed L cap).ring.submit = _
  unfold primed udpPrime
  rw [hudp]
  dsimp only
  cases L.useMultishot with
  | true => rfl
  | false =>
    simp only [Bool.false_eq_true, if_false]
    rw [prime_pool]
    rfl

theorem length_udpPrime : (udpPrime L).length = udpOps L := by
  unfold udpPrime udpOps
  cases L.useMultishot with
  | true => rfl
  | false =>
    simp only [Bool.false_eq_true, if_false]
    rw [List.length_map, List.length_range]

theorem udpPrime_recv {o : Sqe} (h : o ∈ udpPrime L) :
    o.userData.type = .recv ∧ o.opcode = udpOpcode L := by
  unfold udpPrime at h
  unfold udpOpcode
  cases hm : L.useMultishot with
  | true =>
    rw [hm, if_pos rfl, List.mem_singleton] at h
    rw [h]
    exact ⟨rfl, rfl⟩
  | false =>
    rw [hm, if_neg Bool.false_ne_true] at h
    obtain ⟨i, -, rfl⟩ := List.mem_map.mp h
    exact ⟨rfl, rfl⟩

theorem udpRecvs_start (hudp : L.config.protocol = .udp) (cap : Nat) : UdpRecvs L (start L cap) := by
  refine ⟨fun f => rfl, fun o ho => ?_⟩
  rw [udp_start_ring hudp cap, IoRing.mem_outstanding_submit] at ho
  rcases IoRing.mem_outstanding_pushAll _ ho with ho | ho
  · exact absurd ho List.not_mem_nil
  · exact udpPrime_recv ho

theorem udp_start (hudp : L.config.protocol = .udp) {cap : Nat} (hcap : udpOps L ≤ cap) :
    UdpInv L cap (start L cap) ∧ Alive L (start L cap) := by
  have hring := udp_start_ring hudp cap
  obtain ⟨hsess, hrecvs⟩ := udpRecvs_start hudp cap
  have hlen : ((start L cap).ring.armed Sqe.kind).length = udpOps L := by
    have h1 := (IoRing.armed_pushAll Sqe.kind (IoRing.init cap L.sqpoll) (udpPrime L)).length_eq
    rw [List.length_append, List.length_take, length_udpPrime] at h1
    replace h1 : _ = min (cap - 0) (udpOps L) + 0 := h1
    rw [hring, ← IoRing.armedIn_all, IoRing.armedIn_submit, IoRing.armedIn_all, h1]
    omega
  refine ⟨⟨?_, hsess, hrecvs, Nat.le_of_eq hlen⟩, fun _ => hlen⟩
  rw [hring, IoRing.submit_cap, IoRing.pushAll_cap]
  rfl

/-- **Along every run the receives of a UDP server stay alive exactly if every single-shot result that is
processed before the signal is one to repeat.**  With multishot receives there is no condition. -/
theorem udp_alive_iff (hudp : L.config.protocol = .udp) (hN : 1 ≤ L.config.inFlight) {cap : Nat}
    (hcap : L.config.inFlight ≤ cap) (as : List Act) :
    Trans.Along (step L) (fun _ _ t => Alive L t) (start L cap) as ↔
      Trans.Along (step L) (fun s a _ => Repeats L s a) (start L cap) as := by
  have hops : udpOps L ≤ cap := by
    unfold udpOps
    split <;> omega
  obtain ⟨hi, ha⟩ := udp_start hudp hops
  exact Trans.along_iff (I := UdpInv L cap) (G := Alive L) (udpInv_step hudp hops)
    (fun s a t h => h) (fun s a t hi ha h => alive_step hudp hops s a t hi ha h) as _ hi ha

/-- a UDP server without multishot receives, as the command line sets it up -/
def udpSetup : Setup :=
  worker { mode := .server, protocol := .udp, multishotRecv := false, bufSize := 58880 }

/-- a datagram, and a receive that is to be tried again -/
def repeatedRun : List Act :=
  [.post 0 (.plain 100), .post 0 (.plain (-EAGAIN)), .sweep 0, .reap, .cqe 0 none, .cqe 0 none, .submit]

/-- both receives are queued again, and there are 32 of them in every state -/
theorem udp_alive_iff_pool : (udpSetup.config.protocol = .udp ∧ 1 ≤ udpSetup.config.inFlight ∧
      udpSetup.config.inFlight ≤ 256) ∧
    Trans.Along (step udpSetup) (fun s a _ => Repeats udpSetup s a) (start udpSetup 256) repeatedRun ∧
    Trans.Along (step udpSetup) (fun _ _ t => Alive udpSetup t) (start udpSetup 256) repeatedRun ∧
    (Trans.runFrom (step udpSetup) (start udpSetup 256) repeatedRun).any
      (fun s => decide (s.stats.bytesTransferred = 100 ∧ (s.ring.armed Sqe.kind).length = 32)) = true := by
  have hrep : Trans.Along (step udpSetup) (fun s a _ => Repeats udpSetup s a) (start udpSetup 256) repeatedRun := by
    decide +kernel
  exact ⟨⟨rfl, by decide, by decide⟩, hrep, (udp_alive_iff rfl (by decide) (by decide) repeatedRun).mpr hrep,
    by decide +kernel⟩

/-- as many empty datagrams as there are buffers -/
def emptyRun : List Act :=
  List.replicate 32 (.post 0 (.plain 0)) ++ [.sweep 0, .reap] ++ List.replicate 32 (.cqe 0 none) ++
    [.submit]

/-- they leave the server without any receive -/
theorem emptyRun_dead : parseArgs [.server, .udp, .noMultishotRecv] = .ok udpSetup.config ∧
    ∃ s, Trans.Reach (step udpSetup) (start udpSetup 256) s ∧ s.stop = false ∧
      (s.ring.armed Sqe.kind).length = 0 ∧ ¬ Alive udpSetup s := by
  have h : ∃ s, Trans.Reach (step udpSetup) (start udpSetup 256) s ∧ s.stop = false ∧
      (s.ring.armed Sqe.kind).length = 0 := Trans.exists_reach emptyRun (by decide +kernel)
  obtain ⟨s, hreach, hstop, hzero⟩ := h
  refine ⟨by decide +kernel, s, hreach, hstop, hzero, fun ha => ?_⟩
  have h32 : (s.ring.armed Sqe.kind).length = 32 := ha hstop
  omega

end
end Server
end UringPerf
