import UringPerf.Server.Inv

/-!
# Every action keeps the invariant

* `inv_sweep`, `inv_finish`   the two loops over the session table;
* `again_ofConn`              what a completion of a session's entry queues is that entry again;
* `inv_requeue`, `inv_end`    a completion that repeats an entry, and one that ends the session;
* `accept_cases`              an accept is refused, or a session is entered;
* `inv_refused`, `inv_opened` both keep the invariant;
* `inv_step`, `reach_inv`     the invariant holds in every state a TCP server reaches.
-/

namespace UringPerf
namespace Server
open Uring

section
variable {L : Setup}

/-! ## the loops over the table -/

theorem mem_entries {s : St} {f : Int} {ss : ClientSession} :
    (⟨f, ss⟩ : Sigma fun _ : Int => ClientSession) ∈ s.sessions.entries ↔
      s.sessions.lookup f = some ss := AList.mem_lookup_iff.symm

/-- the descriptors of the sessions that a sweep takes out -/
theorem mem_sweptOut {now : Nat} {s : St} {f : Int} :
    f ∈ (sweptOut now s).map Sigma.fst ↔
      ∃ ss, s.sessions.lookup f = some ss ∧ expired now ss = true :=
  AList.mem_filter_keys (expired now) s.sessions f

theorem mem_sweep_freed {now : Nat} {s : St} {p : Ptr} :
    p ∈ (sweep now s).freed ↔ p ∈ s.freed ∨
      ∃ f ss, s.sessions.lookup f = some ss ∧ expired now ss = true ∧ p ∈ ss.buffers := by
  rw [sweep_eq]
  show p ∈ s.freed ++ (sweptOut now s).flatMap (fun e => e.2.buffers) ↔ _
  rw [List.mem_append, List.mem_flatMap]
  apply or_congr_right
  constructor
  · rintro ⟨⟨f, ss⟩, he, hb⟩
    obtain ⟨h1, h2⟩ := List.mem_filter.mp he
    exact ⟨f, ss, mem_entries.mp h1, h2, hb⟩
  · rintro ⟨f, ss, h1, h2, hb⟩
    exact ⟨⟨f, ss⟩, List.mem_filter.mpr ⟨mem_entries.mpr h1, h2⟩, hb⟩

theorem mem_cleanup_freed {s : St} {p : Ptr} :
    p ∈ (cleanup s).freed ↔ p ∈ s.freed ∨
      ∃ f ss, s.sessions.lookup f = some ss ∧ p ∈ ss.buffers := by
  rw [cleanup_eq]
  show p ∈ s.freed ++ s.sessions.entries.flatMap (fun e => e.2.buffers) ↔ _
  rw [List.mem_append, List.mem_flatMap]
  apply or_congr_right
  constructor
  · rintro ⟨⟨f, ss⟩, he, hb⟩
    exact ⟨f, ss, mem_entries.mp he, hb⟩
  · rintro ⟨f, ss, h1, hb⟩
    exact ⟨⟨f, ss⟩, mem_entries.mpr h1, hb⟩

theorem sweep_isOpen {now : Nat} {s : St} {f : Int} (ho : s.isOpen f = true)
    (hf : ¬ ∃ ss, s.sessions.lookup f = some ss ∧ expired now ss = true) :
    (sweep now s).isOpen f = true := by
  rw [sweep_eq]
  show closeAll _ _ _ = true
  rw [closeAll_eq, ho, decide_eq_false (fun h => hf (mem_sweptOut.mp h))]
  rfl

/-- **The deadline sweep**: it takes out reverse sessions only, and these have no multishot receive. -/
theorem inv_sweep {s : St} {now : Nat} (hpc : s.pc = .head) (h : Inv L s) :
    Inv L { sweep now s with pc := .reap } := by
  have hd : s.pc ≠ .done := by rw [hpc]; exact Pc.noConfusion
  have hring : (sweep now s).ring = s.ring := by rw [sweep_eq]; rfl
  refine h.leave hd (by rw [sweep_eq]) ?_ ?_ ?_ ?_ ?_ ?_ ?_
  · intro o ho
    replace ho : o ∈ (sweep now s).ring.outstanding := ho
    rw [hring] at ho
    exact h.ops o ho
  · rintro f ⟨c, hc, hf⟩
    replace hc : c ∈ (sweep now s).ring.cq := hc
    rw [hring] at hc
    have hp := h.pend f ⟨c, hc, hf⟩ hd
    refine ⟨⟨c, hc, hf⟩, fun _ => sweep_isOpen hp.1 ?_⟩
    rintro ⟨ss, hl, -⟩
    rw [hp.2] at hl
    cases hl
  · intro f ss hl
    obtain ⟨h1, h2⟩ := (lookup_sweep now s f ss).mp hl
    refine ⟨h1, fun _ => sweep_isOpen ((h.sess f ss h1).isOpen hd) ?_⟩
    rintro ⟨ss', hl', he⟩
    rw [h1] at hl'
    cases hl'
    rw [h2] at he
    cases he
  · intro o ho conn ss hk hl hc
    replace ho : o ∈ (sweep now s).ring.outstanding := ho
    rw [hring] at ho
    obtain ⟨ss', hl', -, hr⟩ := (h.ops o ho).live conn hk
    rw [hl] at hl'
    cases hl'
    refine (lookup_sweep now s _ ss).mpr ⟨hl, ?_⟩
    unfold expired
    rw [hr, Bool.false_and]
  · intro p hp
    rcases mem_sweep_freed.mp hp with hp | ⟨f, ss, hl, he, hb⟩
    · exact Or.inl hp
    · refine Or.inr ⟨f, ss, hl, hb, fun _ => ?_⟩
      show (sweep now s).sessions.lookup f = none
      cases hl' : (sweep now s).sessions.lookup f with
      | none => rfl
      | some ss' =>
        obtain ⟨h1, h2⟩ := (lookup_sweep now s f ss').mp hl'
        rw [hl] at h1
        cases h1
        rw [h2] at he
        cases he
  · show IoRing.Single _ _ (sweep now s).ring
    rw [hring]
    exact h.acc
  · show IoRing.Single _ _ (sweep now s).ring
    rw [hring]
    exact h.ms

theorem inv_finish {s : St} (hpc : s.pc = .head) (h : Inv L s) :
    Inv L { cleanup s with pc := .done } := by
  have hd : s.pc ≠ .done := by rw [hpc]; exact Pc.noConfusion
  have hring : (cleanup s).ring = s.ring := by rw [cleanup_eq]; rfl
  have hsess : (cleanup s).sessions = s.sessions := by rw [cleanup_eq]
  refine h.leave hd (by rw [cleanup_eq]) ?_ ?_ ?_ ?_ ?_ ?_ ?_
  · intro o ho
    replace ho : o ∈ (cleanup s).ring.outstanding := ho
    rw [hring] at ho
    exact h.ops o ho
  · rintro f ⟨c, hc, hf⟩
    replace hc : c ∈ (cleanup s).ring.cq := hc
    rw [hring] at hc
    exact ⟨⟨c, hc, hf⟩, fun hn => absurd rfl hn⟩
  · intro f ss hl
    replace hl : (cleanup s).sessions.lookup f = some ss := hl
    rw [hsess] at hl
    exact ⟨hl, fun hn => absurd rfl hn⟩
  · intro o ho conn ss hk hl hc
    show (cleanup s).sessions.lookup conn.fd = some ss
    rw [hsess]
    exact hl
  · intro p hp
    refine (mem_cleanup_freed.mp hp).imp id ?_
    rintro ⟨f, ss, hl, hb⟩
    exact ⟨f, ss, hl, hb, fun hn => absurd rfl hn⟩
  · show IoRing.Single _ _ (cleanup s).ring
    rw [hring]
    exact h.acc
  · show IoRing.Single _ _ (cleanup s).ring
    rw [hring]
    exact h.ms

/-! ## a completion of a session's entry -/

/-- `o` is the entry `o'` again -/
structure Again (L : Setup) (o o' : Sqe) (conn : Conn) : Prop where
  ofConn : OfConn L o conn
  userData : o.userData = o'.userData
  buf : o.buf = o'.buf
  multishot : o.opcode = .recvMultishot ↔ o'.opcode = .recvMultishot

theorem Again.msKey {o o' : Sqe} {conn : Conn} (h : Again L o o' conn) : msKey o = msKey o' := by
  have hc : o.conn = o'.conn := by
    unfold Sqe.conn
    rw [h.userData]
  unfold Server.msKey
  rw [hc]
  by_cases ho : o.opcode = .recvMultishot
  · rw [if_pos ho, if_pos (h.multishot.mp ho)]
  · rw [if_neg ho, if_neg (fun h' => ho (h.multishot.mpr h'))]

theorem Again.opInv {s : St} {o o' : Sqe} {conn : Conn} (h : Again L o o' conn)
    (hi : OpInv L s o') : OpInv L s o := by
  have hc : o.conn = o'.conn := by
    unfold Sqe.conn
    rw [h.userData]
  refine ⟨Shape.session conn h.ofConn, ?_, ?_, ?_⟩
  · rw [hc]
    exact hi.old
  · rw [hc, h.userData, h.buf]
    exact hi.owned
  · rw [h.msKey]
    exact hi.live

/-- the send of a context of `conn` -/
theorem sendSqe_ofConn (reg : Registered) {ctx : IOContext} {conn : Conn}
    (ho : ctx.addr.owner = .session conn) (hfd : ctx.fd = conn.fd) (ht : ctx.type = .send)
    (hb : ∀ p, ctx.bufPtr = some p → p.owner = .session conn) :
    OfConn L (sendSqe reg L.config.zeroCopy ctx false) conn := by
  refine ⟨?_, ?_, ?_, ?_, ?_, Or.inl ⟨?_, sendSqe_opcode _ _ _ _⟩⟩
  · rw [sendSqe_userData]
    exact ho
  · rw [sendSqe_userData]
    exact hfd
  · rw [sendSqe_fd]
    exact hfd
  · rw [sendSqe_userData, sendSqe_buf]
  · rw [sendSqe_buf]
    exact hb
  · rw [sendSqe_userData]
    exact ht

theorem send_not_multishot {o : Sqe} (h : o.opcode = .send ∨ o.opcode = .sendZc) :
    ¬ o.opcode = .recvMultishot := by
  rcases h with h | h <;> rw [h] <;> exact Opcode.noConfusion

theorem OfConn.send {o : Sqe} {conn : Conn} (h : OfConn L o conn) (ht : o.userData.type = .send) :
    o.opcode = .send ∨ o.opcode = .sendZc := by
  rcases h.type with h | h | h
  · exact h.2
  · rw [ht] at h
    cases h.1
  · rw [ht] at h
    cases h.1

theorem again_send (reg : Registered) {o : Sqe} {conn : Conn} (h : OfConn L o conn)
    (ht : o.userData.type = .send) :
    Again L (sendSqe reg L.config.zeroCopy o.userData false) o conn := by
  have hb := h.bufOwner
  rw [h.buf] at hb
  refine ⟨sendSqe_ofConn reg h.owner h.ctxFd ht hb, sendSqe_userData _ _ _ _, ?_, ?_⟩
  · rw [sendSqe_buf, h.buf]
  · exact iff_of_false (send_not_multishot (sendSqe_opcode _ _ _ _)) (send_not_multishot (h.send ht))

/-- a receive is multishot exactly if the worker uses multishot receives -/
theorem OfConn.recv {o : Sqe} {conn : Conn} (h : OfConn L o conn) (ht : o.userData.type = .recv) :
    (o.opcode = .recvMultishot ∧ L.useMultishot = true ∧ o.userData.bufPtr = none) ∨
      (o.opcode = .recv ∧ L.useMultishot = false) := by
  rcases h.type with h | h | h
  · rw [ht] at h
    cases h.1
  · exact Or.inl h.2
  · exact Or.inr h.2

theorem again_recvMultishot (reg : Registered) (bgid : Nat) (ff : Bool) {o : Sqe} {conn : Conn}
    (h : OfConn L o conn) (ht : o.userData.type = .recv) (hm : L.useMultishot = true) :
    Again L (recvMultishotSqe reg bgid o.userData.fd o.userData ff) o conn := by
  rcases h.recv ht with ⟨h1, -, h2⟩ | ⟨-, h2⟩
  · exact ⟨⟨h.owner, h.ctxFd, h.ctxFd, h2.symm, nofun,
      Or.inr (Or.inl ⟨ht, rfl, hm, h2⟩)⟩, rfl, (h.buf.trans h2).symm, iff_of_true rfl h1⟩
  · rw [hm] at h2
    cases h2

theorem again_recv (reg : Registered) (ff : Bool) {o : Sqe} {conn : Conn} (h : OfConn L o conn)
    (ht : o.userData.type = .recv) (hm : L.useMultishot = false) :
    Again L (recvCtxSqe reg o.userData ff) o conn := by
  rcases h.recv ht with ⟨-, h2, -⟩ | ⟨h1, -⟩
  · rw [hm] at h2
    cases h2
  · have hb := h.bufOwner
    rw [h.buf] at hb
    have hn : ¬ o.opcode = .recvMultishot := by
      rw [h1]
      exact Opcode.noConfusion
    exact ⟨⟨h.owner, h.ctxFd, h.ctxFd, rfl, hb, Or.inr (Or.inr ⟨ht, rfl, hm⟩)⟩, rfl, h.buf.symm,
      iff_of_false Opcode.noConfusion hn⟩

/-- **A session's completion queues at most its own entry again**, and a multishot receive only when
it has terminated. -/
theorem queued_again {now : Nat} {hs : Option (Bool × Nat)} {s : St} {c : Cqe Sqe} {conn : Conn}
    (h : OfConn L c.op conn) : queued L now hs s c = [] ∨
      ∃ o, queued L now hs s c = [o] ∧ Again L o c.op conn ∧
        (o.opcode = .recvMultishot → c.more = false) := by
  unfold queued
  cases ht : c.op.userData.type with
  | accept => exact absurd ht h.not_accept.2
  | send =>
    have ha := again_send s.engine.reg h ht
    dsimp only
    split
    · exact Or.inr ⟨_, rfl, ha,
        fun hm => absurd hm (send_not_multishot (sendSqe_opcode _ _ _ _))⟩
    · exact Or.inl rfl
  | recv =>
    dsimp only
    cases hm : L.useMultishot with
    | true =>
      simp only [if_true]
      split
      · rename_i hc
        have hmore : c.more = false := by
          rw [Bool.and_eq_true, Bool.not_eq_true'] at hc
          exact hc.1
        exact Or.inr ⟨_, rfl, again_recvMultishot _ _ _ h ht hm, fun _ => hmore⟩
      · exact Or.inl rfl
    | false =>
      simp only [Bool.false_eq_true, if_false]
      split
      · exact Or.inr ⟨_, rfl, again_recv _ _ h ht hm, fun hm => Opcode.noConfusion hm⟩
      · exact Or.inl rfl
  | timer => exact Or.inl rfl

theorem accKey_ofConn {o : Sqe} {conn : Conn} (h : OfConn L o conn) : accKey o = none := by
  unfold accKey
  rw [if_neg h.not_accept.1]

theorem acc_again {now : Nat} {hs : Option (Bool × Nat)} {s : St} {c : Cqe Sqe} {conn : Conn}
    {cs : List (Cqe Sqe)} (hi : Inv L s) (hcq : s.ring.cq = c :: cs) (h : OfConn L c.op conn) :
    IoRing.Single Sqe.kind accKey (s.ring.seen.pushAll (queued L now hs s c)) := by
  refine hi.acc.again hcq _ (fun k => ?_)
  rcases queued_again h with hq | ⟨o, hq, ho, -⟩
  · rw [hq]
    exact Nat.zero_le _
  · rw [hq, List.countP_singleton, accKey_ofConn ho.ofConn]
    exact Nat.zero_le _

theorem ms_again {now : Nat} {hs : Option (Bool × Nat)} {s : St} {c : Cqe Sqe} {conn : Conn}
    {cs : List (Cqe Sqe)} (hi : Inv L s) (hcq : s.ring.cq = c :: cs) (h : OfConn L c.op conn) :
    IoRing.Single Sqe.kind msKey (s.ring.seen.pushAll (queued L now hs s c)) := by
  refine hi.ms.again hcq _ (fun k => ?_)
  rcases queued_again h with hq | ⟨o, hq, ho, hm⟩
  · rw [hq]
    exact Nat.zero_le _
  · rw [hq, List.countP_singleton, ho.msKey]
    by_cases hk : msKey c.op = some k
    · have hop := (msKey_some.mp hk).1
      have hcl : (Sqe.kind c.op).closes c.toCompletion = true := by
        unfold Sqe.kind
        rw [hop]
        show (!c.more) = true
        rw [hm (ho.multishot.mpr hop)]
        rfl
      simp [hk, hcl]
    · simp [hk]

/-- an entry in the ring after a completion was there before, or has been queued for it -/
theorem mem_after {s : St} {c : Cqe Sqe} {cs : List (Cqe Sqe)} {ops : List Sqe} {o : Sqe}
    (hcq : s.ring.cq = c :: cs) (ho : o ∈ (s.ring.seen.pushAll ops).outstanding) :
    o ∈ s.ring.outstanding ∨ o ∈ ops :=
  (IoRing.mem_outstanding_pushAll ops ho).imp
    (fun h => (IoRing.mem_outstanding_seen hcq).mpr (Or.inr h)) id

theorem head_outstanding {s : St} {c : Cqe Sqe} {cs : List (Cqe Sqe)} (hcq : s.ring.cq = c :: cs) :
    c.op ∈ s.ring.outstanding := (IoRing.mem_outstanding_seen hcq).mpr (Or.inl rfl)

/-- a pending accept after a completion was pending before -/
theorem pend_after {s t : St} {c : Cqe Sqe} {cs : List (Cqe Sqe)} {ops : List Sqe} {f : Int}
    (hcq : s.ring.cq = c :: cs) (hr : t.ring = s.ring.seen.pushAll ops) (hp : Pend t f) :
    ∃ d ∈ cs, accepts d = true ∧ d.res = f := by
  obtain ⟨d, hd, hf⟩ := hp
  rw [hr, IoRing.pushAll_cq] at hd
  replace hd : d ∈ s.ring.cq.tail := hd
  rw [hcq] at hd
  exact ⟨d, hd, hf⟩

theorem pend_of_tail {s : St} {c : Cqe Sqe} {cs : List (Cqe Sqe)} {f : Int}
    (hcq : s.ring.cq = c :: cs) (hp : ∃ d ∈ cs, accepts d = true ∧ d.res = f) : Pend s f := by
  obtain ⟨d, hd, hf⟩ := hp
  refine ⟨d, ?_, hf⟩
  rw [hcq]
  exact List.mem_cons_of_mem _ hd

theorem ops_again {now : Nat} {hs : Option (Bool × Nat)} {s : St} {c : Cqe Sqe} {conn : Conn}
    {cs : List (Cqe Sqe)} (hi : Inv L s) (hcq : s.ring.cq = c :: cs) (h : OfConn L c.op conn) :
    ∀ o ∈ (s.ring.seen.pushAll (queued L now hs s c)).outstanding, OpInv L s o := by
  intro o ho
  rcases mem_after hcq ho with ho | ho
  · exact hi.ops o ho
  · rcases queued_again h with hq | ⟨o', hq, ha, -⟩
    · rw [hq] at ho
      exact absurd ho List.not_mem_nil
    · rw [hq, List.mem_singleton] at ho
      rw [ho]
      exact ha.opInv (hi.ops _ (head_outstanding hcq))

/-- a completion that leaves the table alone -/
theorem inv_requeue {now : Nat} {hs : Option (Bool × Nat)} {s t : St} {c : Cqe Sqe} {conn : Conn}
    {cs : List (Cqe Sqe)} (hi : Inv L s) (hpc : s.pc ≠ .done) (hcq : s.ring.cq = c :: cs)
    (h : OfConn L c.op conn) (hr : t.ring = s.ring.seen.pushAll (queued L now hs s c))
    (hss : t.sessions = s.sessions) (hgen : t.gen = s.gen) (hop : t.isOpen = s.isOpen)
    (hfr : t.freed = s.freed) : Inv L t := by
  refine hi.transfer hpc ?_ ?_ hss hgen hop hfr ?_ ?_
  · rw [hr]
    exact ops_again hi hcq h
  · intro f hp
    exact pend_of_tail hcq (pend_after hcq hr hp)
  · rw [hr]
    exact acc_again hi hcq h
  · rw [hr]
    exact ms_again hi hcq h

/-- the only multishot receive that could refer to a session is gone when its last completion has been
seen -/
theorem ms_alone {s : St} {c : Cqe Sqe} {conn conn' : Conn} {cs : List (Cqe Sqe)} {o : Sqe}
    {ss : ClientSession} (hi : Inv L s) (hcq : s.ring.cq = c :: cs) (h : OfConn L c.op conn)
    (ht : c.op.userData.type = .recv) (he : recvEnds L c.toCompletion = true)
    (ho : o ∈ s.ring.seen.outstanding) (hk : msKey o = some conn')
    (hl : s.sessions.lookup conn'.fd = some ss) (hc : ss.conn = conn') : conn'.fd ≠ conn.fd := by
  intro hfd
  have hoo := hi.ops o ((IoRing.mem_outstanding_seen hcq).mpr (Or.inr ho))
  have hmo := msKey_some.mp hk
  have hm : L.useMultishot = true := by
    rcases (hoo.shape.ofConn hmo.2).type with ⟨-, h1 | h1⟩ | h1 | h1
    · rw [hmo.1] at h1
      cases h1
    · rw [hmo.1] at h1
      cases h1
    · exact h1.2.2.1
    · rw [hmo.1] at h1
      cases h1.2.1
  rcases h.recv ht with ⟨hop, -, -⟩ | ⟨-, h2⟩
  · have hkc : msKey c.op = some conn := msKey_some.mpr ⟨hop, h.conn⟩
    obtain ⟨ss', hl', hc', -⟩ := (hi.ops _ (head_outstanding hcq)).live conn hkc
    rw [hfd, hl'] at hl
    cases hl
    have hcl : (Sqe.kind c.op).closes c.toCompletion = true := by
      unfold recvEnds at he
      rw [if_pos hm, Bool.and_eq_true, Bool.and_eq_true] at he
      unfold Sqe.kind
      rw [hop]
      exact he.1.1
    refine hi.ms.alone msKey_zerocopy hcq hkc hcl o ho ?_
    rw [hk, ← hc, hc']
  · rw [hm] at h2
    cases h2

theorem queued_end {now : Nat} {hs : Option (Bool × Nat)} {s : St} {c : Cqe Sqe}
    (ht : c.op.userData.type = .recv) (he : recvEnds L c.toCompletion = true) :
    queued L now hs s c = [] := by
  unfold recvEnds at he
  unfold queued isRepeat
  rw [ht]
  dsimp only
  cases hm : L.useMultishot with
  | true =>
    simp only [hm, if_true, Bool.and_eq_true, bne_iff_ne, ne_eq] at he
    simp [he.1.2, he.2]
  | false =>
    simp only [hm, Bool.false_eq_true, if_false, Bool.and_eq_true, Bool.not_eq_true'] at he
    simp [he.1, he.2]

/-- the session that ends is the one found under the descriptor of the completion's context -/
theorem ended_some {s : St} {c : Cqe Sqe} {conn : Conn} {ss : ClientSession}
    (h : OfConn L c.op conn) (he : ended L s c = some ss) :
    c.op.userData.type = .recv ∧ recvEnds L c.toCompletion = true ∧
      s.sessions.lookup conn.fd = some ss := by
  unfold ended at he
  split at he
  · rename_i hc
    rw [h.ctxFd] at he
    exact ⟨hc.1, hc.2, he⟩
  · cases he

/-- a completion that ends the session found under its descriptor -/
theorem inv_end {now : Nat} {hs : Option (Bool × Nat)} {s t : St} {c : Cqe Sqe} {conn : Conn}
    {cs : List (Cqe Sqe)} {ss : ClientSession} (hi : Inv L s) (hpc : s.pc ≠ .done)
    (hcq : s.ring.cq = c :: cs) (h : OfConn L c.op conn) (ht : c.op.userData.type = .recv)
    (he : recvEnds L c.toCompletion = true) (hl : s.sessions.lookup conn.fd = some ss)
    (hr : t.ring = s.ring.seen.pushAll (queued L now hs s c))
    (hss : t.sessions = s.sessions.erase conn.fd) (hgen : t.gen = s.gen)
    (hop : t.isOpen = Function.update s.isOpen conn.fd false)
    (hfr : t.freed = s.freed ++ released L ss) : Inv L t := by
  refine hi.leave hpc hgen ?_ ?_ ?_ ?_ ?_ ?_ ?_
  · rw [hr]
    exact ops_again hi hcq h
  · intro f hp
    have hp' := pend_of_tail hcq (pend_after hcq hr hp)
    obtain ⟨h1, h2⟩ := hi.pend f hp' hpc
    have hne : f ≠ conn.fd := by
      intro e
      rw [e, hl] at h2
      cases h2
    rw [hop, Function.update_of_ne hne]
    exact ⟨hp', fun _ => h1⟩
  · intro f ss' hl'
    rw [hss, AList.lookup_erase_eq] at hl'
    by_cases hf : f = conn.fd
    · rw [if_pos hf] at hl'
      cases hl'
    · rw [if_neg hf] at hl'
      rw [hop, Function.update_of_ne hf]
      exact ⟨hl', fun _ => (hi.sess f ss' hl').isOpen hpc⟩
  · intro o ho conn' ss' hk hl' hc
    rw [hr, queued_end ht he] at ho
    have hne := ms_alone hi hcq h ht he ho hk hl' hc
    rw [hss, AList.lookup_erase_eq, if_neg hne]
    exact hl'
  · intro p hp
    rw [hfr, List.mem_append] at hp
    refine hp.imp id (fun hp => ⟨conn.fd, ss, hl, ?_, fun _ => ?_⟩)
    · unfold released at hp
      split at hp
      · exact absurd hp List.not_mem_nil
      · exact hp
    · rw [hss, AList.lookup_erase_eq, if_pos rfl]
  · rw [hr]
    exact acc_again hi hcq h
  · rw [hr]
    exact ms_again hi hcq h

/-! ## a completion of the accept -/

theorem accept_msKey : msKey (acceptSqe L.listenFd L.acceptCtx) = none := rfl

theorem accept_opInv (s : St) : OpInv L s (acceptSqe L.listenFd L.acceptCtx) := by
  refine ⟨Shape.accept rfl, ?_, ?_, ?_⟩
  · intro conn hc
    rw [accept_conn] at hc
    cases hc
  · intro conn ss hc
    rw [accept_conn] at hc
    cases hc
  · intro conn hk
    rw [accept_msKey] at hk
    cases hk

/-- the accept's completion is the only trace of an accept -/
theorem acc_alone {s : St} {c : Cqe Sqe} {cs : List (Cqe Sqe)} (hi : Inv L s)
    (hcq : s.ring.cq = c :: cs) (h : c.op = acceptSqe L.listenFd L.acceptCtx) :
    ∀ o ∈ s.ring.seen.outstanding, accKey o ≠ some () := by
  refine hi.acc.alone accKey_zerocopy hcq ?_ ?_
  · rw [h]
    rfl
  · rw [h]
    rfl

theorem no_pend {s : St} {c : Cqe Sqe} {cs : List (Cqe Sqe)} {f : Int} (hi : Inv L s)
    (hcq : s.ring.cq = c :: cs) (h : c.op = acceptSqe L.listenFd L.acceptCtx) :
    ¬ ∃ d ∈ cs, accepts d = true ∧ d.res = f := by
  rintro ⟨d, hd, ha, -⟩
  have hd' : d ∈ s.ring.seen.cq := by
    show d ∈ s.ring.cq.tail
    rw [hcq]
    exact hd
  have ho : d.op ∈ s.ring.seen.outstanding :=
    IoRing.mem_outstanding.mpr (Or.inr (Or.inr ⟨d, hd', rfl⟩))
  have hsh := (hi.ops d.op ((IoRing.mem_outstanding_seen hcq).mpr (Or.inr ho))).shape
  unfold accepts at ha
  rw [Bool.and_eq_true, beq_iff_eq] at ha
  refine acc_alone hi hcq h d.op ho ?_
  unfold accKey
  rw [if_pos (hsh.accept_iff.mpr ha.1)]

/-- an accept that failed, or whose handshake failed: only the accept is queued again -/
theorem inv_refused {s t : St} {c : Cqe Sqe} {cs : List (Cqe Sqe)} (hi : Inv L s)
    (hpc : s.pc ≠ .done) (hcq : s.ring.cq = c :: cs) (h : c.op = acceptSqe L.listenFd L.acceptCtx)
    (hr : t.ring = s.ring.seen.pushAll [acceptSqe L.listenFd L.acceptCtx])
    (hss : t.sessions = s.sessions) (hgen : t.gen = s.gen)
    (hop : ∀ f ss, s.sessions.lookup f = some ss → t.isOpen f = s.isOpen f)
    (hfr : t.freed = s.freed) : Inv L t := by
  refine hi.leave hpc hgen ?_ ?_ ?_ ?_ ?_ ?_ ?_
  · intro o ho
    rw [hr] at ho
    rcases mem_after hcq ho with ho | ho
    · exact hi.ops o ho
    · rw [List.mem_singleton.mp ho]
      exact accept_opInv s
  · intro f hp
    exact absurd (pend_after hcq hr hp) (no_pend hi hcq h)
  · intro f ss hl
    rw [hss] at hl
    rw [hop f ss hl]
    exact ⟨hl, fun _ => (hi.sess f ss hl).isOpen hpc⟩
  · intro o ho conn ss hk hl hc
    rw [hss]
    exact hl
  · intro p hp
    rw [hfr] at hp
    exact Or.inl hp
  · rw [hr]
    refine hi.acc.again hcq _ (fun k => ?_)
    rw [h]
    exact Nat.le_refl 1
  · rw [hr]
    refine hi.ms.again hcq _ (fun k => ?_)
    exact Nat.zero_le _

/-! ## a new session -/

section
variable (now : Nat) (conn : Conn) (reverse : Bool) (d : Nat)

theorem newSession_conn : (newSession L now conn reverse d).conn = conn := by
  unfold newSession
  split
  · rfl
  · split <;> rfl

theorem newSession_isReverse : (newSession L now conn reverse d).isReverse = reverse := by
  unfold newSession
  cases reverse with
  | true => rfl
  | false =>
    simp only [Bool.false_eq_true, if_false]
    split <;> rfl

theorem sessionCtxs_owner {type : IOType} {ctx : IOContext} (h : ctx ∈ L.sessionCtxs type conn) :
    ctx.addr.owner = .session conn := by
  obtain ⟨b, -, rfl⟩ := List.mem_map.mp h
  rfl

theorem newSession_owned {ctx : IOContext} (h : ctx ∈ (newSession L now conn reverse d).owned) :
    ctx.addr.owner = .session conn := by
  unfold newSession ClientSession.owned at h
  split at h
  · rw [Option.toList_none, List.append_nil] at h
    exact sessionCtxs_owner conn h
  · split at h
    · rw [List.nil_append, Option.toList_some, List.mem_singleton] at h
      rw [h]
      rfl
    · rw [Option.toList_none, List.append_nil] at h
      exact sessionCtxs_owner conn h

theorem newSession_buffers {p : Ptr} (h : p ∈ (newSession L now conn reverse d).buffers) :
    p.owner = .session conn := by
  have hb : p ∈ L.sessionBuffers conn := by
    unfold newSession at h
    split at h
    · exact h
    · split at h
      · exact absurd h List.not_mem_nil
      · exact h
  obtain ⟨b, -, rfl⟩ := List.mem_map.mp hb
  rfl

theorem newSession_sessInv {t : St} (hc : conn = ⟨conn.fd, t.gen conn.fd⟩)
    (ho : t.isOpen conn.fd = true) : SessInv L t conn.fd (newSession L now conn reverse d) := by
  refine ⟨?_, ?_, fun _ => ho, ?_, ?_, ?_, ?_⟩
  · unfold newSession
    split
    · rfl
    · split <;> rfl
  · rw [newSession_conn]
    exact hc
  · intro ctx h
    rw [newSession_conn]
    exact newSession_owned now conn reverse d h
  · intro p h
    rw [newSession_conn]
    exact newSession_buffers now conn reverse d h
  · intro hr
    rw [newSession_isReverse] at hr
    subst hr
    unfold newSession
    rw [if_neg Bool.false_ne_true]
    split <;> rfl
  · intro hr hm
    rw [newSession_isReverse] at hr
    subst hr
    unfold newSession
    rw [if_neg Bool.false_ne_true, if_pos hm]
    exact ⟨rfl, rfl⟩

/-- the `b`-th context of a session names the `b`-th buffer -/
theorem sessionCtxs_buf {type : IOType} {ctx : IOContext} (h : ctx ∈ L.sessionCtxs type conn) :
    ctx.type = type ∧ ∀ p, ctx.bufPtr = some p → p ∈ L.sessionBuffers conn := by
  obtain ⟨b, hb, rfl⟩ := List.mem_map.mp h
  refine ⟨rfl, fun p hp => ?_⟩
  cases hp
  exact List.mem_map.mpr ⟨b, hb, rfl⟩

theorem sessionCtxs_bufOwner {type : IOType} {ctx : IOContext} (h : ctx ∈ L.sessionCtxs type conn) :
    ∀ p, ctx.bufPtr = some p → p.owner = .session conn := by
  intro p hp
  obtain ⟨b, -, e⟩ := List.mem_map.mp ((sessionCtxs_buf conn h).2 p hp)
  rw [← e]

/-- a first operation of a session carries a context and a buffer of that session -/
structure FirstOp (L : Setup) (ss : ClientSession) (o : Sqe) : Prop where
  ofConn : OfConn L o ss.conn
  owned : o.userData ∈ ss.owned
  buf : ∀ p, o.buf = some p → p ∈ ss.buffers
  multishot : o.opcode = .recvMultishot → ss.isReverse = false

theorem sessionOps_first (e : UringEngine) {o : Sqe} (h : o ∈ sessionOps L e conn reverse) :
    FirstOp L (newSession L now conn reverse d) o := by
  unfold sessionOps at h
  unfold newSession
  split at h
  · rename_i hr
    obtain ⟨ctx, hctx, rfl⟩ := List.mem_map.mp h
    rw [if_pos hr]
    have hb := sessionCtxs_buf conn hctx
    refine ⟨sendSqe_ofConn _ (sessionCtxs_owner conn hctx) (sessionCtxs_fd L hctx) hb.1
      (sessionCtxs_bufOwner conn hctx), ?_, ?_, ?_⟩
    · rw [sendSqe_userData]
      exact List.mem_append_left _ hctx
    · rw [sendSqe_buf]
      exact hb.2
    · intro hm
      exact absurd hm (send_not_multishot (sendSqe_opcode _ _ _ _))
  · rename_i hr
    rw [if_neg hr]
    split at h
    · rename_i hm
      rw [if_pos hm, List.mem_singleton.mp h]
      refine ⟨⟨rfl, rfl, rfl, rfl, nofun, Or.inr (Or.inl ⟨rfl, rfl, hm, rfl⟩)⟩, ?_, nofun, fun _ => rfl⟩
      exact List.mem_singleton_self _
    · rename_i hm
      rw [if_neg hm]
      obtain ⟨ctx, hctx, rfl⟩ := List.mem_map.mp h
      have hb := sessionCtxs_buf conn hctx
      have hfd := sessionCtxs_fd L hctx
      refine ⟨⟨sessionCtxs_owner conn hctx, hfd, hfd, rfl, sessionCtxs_bufOwner conn hctx,
        Or.inr (Or.inr ⟨hb.1, rfl, Bool.eq_false_of_not_eq_true hm⟩)⟩, ?_, hb.2, fun _ => rfl⟩
      exact List.mem_append_left _ hctx

/-- at most one multishot receive, and it is the session's own -/
theorem sessionOps_ms (e : UringEngine) (k : Conn) :
    (sessionOps L e conn reverse).countP (fun o => msKey o = some k) ≤ if k = conn then 1 else 0 := by
  by_cases hk : k = conn
  · rw [if_pos hk]
    unfold sessionOps
    split
    · refine le_trans (Nat.le_of_eq (List.countP_eq_zero.mpr ?_)) (Nat.zero_le 1)
      intro o ho
      obtain ⟨ctx, -, rfl⟩ := List.mem_map.mp ho
      have hn := send_not_multishot (sendSqe_opcode e.reg L.config.zeroCopy ctx false)
      simp [msKey, hn]
    · split
      · exact List.countP_le_length
      · refine le_trans (Nat.le_of_eq (List.countP_eq_zero.mpr ?_)) (Nat.zero_le 1)
        intro o ho
        obtain ⟨ctx, -, rfl⟩ := List.mem_map.mp ho
        simp [msKey, recvCtxSqe, recvSqe]
  · rw [if_neg hk, Nat.le_zero]
    apply List.countP_eq_zero.mpr
    intro o ho
    have h1 := (sessionOps_first 0 conn reverse 0 e ho).ofConn.conn
    rw [newSession_conn] at h1
    simp only [decide_eq_true_eq, msKey_some, h1]
    rintro ⟨-, h2⟩
    cases h2
    exact hk rfl

end

/-- a forward session starts with its multishot receive -/
theorem sessionOps_armed (e : UringEngine) (conn : Conn) {reverse : Bool} (hr : reverse = false)
    (hm : L.useMultishot = true) :
    1 ≤ (sessionOps L e conn reverse).countP (fun o => msKey o = some conn) := by
  unfold sessionOps
  rw [hr, if_neg Bool.false_ne_true, if_pos hm, List.countP_singleton]
  have h : msKey (recvMultishotSqe e.reg e.pool.bgid conn.fd (L.msCtx conn) false) = some conn := rfl
  rw [h, if_pos (decide_eq_true rfl)]

theorem FirstOp.opInv {t : St} {ss : ClientSession} {o : Sqe} (h : FirstOp L ss o)
    (hl : t.sessions.lookup ss.conn.fd = some ss) (hold : Old t ss.conn) : OpInv L t o := by
  have hc := h.ofConn.conn
  refine ⟨Shape.session _ h.ofConn, ?_, ?_, ?_⟩
  · intro conn hc'
    rw [hc] at hc'
    cases hc'
    exact hold
  · intro conn ss' hc' hl' _
    rw [hc] at hc'
    cases hc'
    rw [hl] at hl'
    cases hl'
    exact ⟨h.owned, h.buf⟩
  · intro conn hk
    obtain ⟨h1, h2⟩ := msKey_some.mp hk
    rw [hc] at h2
    cases h2
    exact ⟨ss, hl, rfl, h.multishot h1⟩

/-- **A connection gets its session.**  Its number is pending, so no session stands under it, and no
entry and no released buffer belongs to this connection yet. -/
theorem inv_opened {s t : St} {c : Cqe Sqe} {cs : List (Cqe Sqe)} {ss : ClientSession}
    {ops : List Sqe} (hi : Inv L s) (hpc : s.pc ≠ .done) (hcq : s.ring.cq = c :: cs)
    (h : c.op = acceptSqe L.listenFd L.acceptCtx) (hacc : accepts c = true)
    (hconn : ss.conn = ⟨c.res, s.gen c.res⟩) (hsess : SessInv L s c.res ss)
    (hops : ∀ o ∈ ops, FirstOp L ss o)
    (hms : ∀ k, ops.countP (fun o => msKey o = some k) ≤ if k = ss.conn then 1 else 0)
    (hr : t.ring = s.ring.seen.pushAll (ops ++ [acceptSqe L.listenFd L.acceptCtx]))
    (hss : t.sessions = s.sessions.insert c.res ss) (hgen : t.gen = s.gen)
    (hop : t.isOpen = s.isOpen) (hfr : t.freed = s.freed) : Inv L t := by
  have hp : Pend s c.res := ⟨c, by rw [hcq]; exact List.mem_cons_self, hacc, rfl⟩
  obtain ⟨-, hnone⟩ := hi.pend _ hp hpc
  have hnp : ∀ f, ¬ Pend t f := fun f hp' => no_pend hi hcq h (pend_after hcq hr hp')
  have hold : ∀ conn, Old s conn → Old t conn ∧ conn ≠ ss.conn := by
    intro conn ho
    refine ⟨⟨by rw [hgen]; exact ho.1, fun hp' => absurd hp' (hnp _)⟩, ?_⟩
    intro e
    have := ho.2
    rw [e, hconn] at this
    exact absurd (this hp) (by simp)
  have hlook : t.sessions.lookup ss.conn.fd = some ss := by
    rw [hss, AList.lookup_insert_eq, hconn, if_pos rfl]
  refine ⟨?_, ?_, ?_, ?_, ?_, ?_⟩
  · intro o ho
    rw [hr] at ho
    rcases mem_after hcq ho with ho | ho
    · have h1 := hi.ops o ho
      refine ⟨h1.shape, fun conn hc => (hold conn (h1.old conn hc)).1, ?_, ?_⟩
      · intro conn ss' hc hl hc'
        rw [hss, AList.lookup_insert_eq] at hl
        split at hl
        · cases hl
          exact absurd hc'.symm (hold conn (h1.old conn hc)).2
        · exact h1.owned conn ss' hc hl hc'
      · intro conn hk
        obtain ⟨ss', hl, hc, hrev⟩ := h1.live conn hk
        refine ⟨ss', ?_, hc, hrev⟩
        have hne : conn.fd ≠ c.res := by
          intro e
          rw [e, hnone] at hl
          cases hl
        rw [hss, AList.lookup_insert_eq, if_neg hne]
        exact hl
    · rcases List.mem_append.mp ho with ho | ho
      · refine (hops o ho).opInv hlook ⟨?_, fun hp' => absurd hp' (hnp _)⟩
        rw [hgen, hconn]
      · rw [List.mem_singleton.mp ho]
        exact accept_opInv t
  · intro f ss' hl
    rw [hss, AList.lookup_insert_eq] at hl
    split at hl
    · rename_i hf
      cases hl
      rw [hf]
      exact hsess.transfer (by rw [hgen]) (fun _ => by rw [hop]; exact hsess.isOpen hpc)
    · have hs := hi.sess f ss' hl
      exact hs.transfer (by rw [hgen]) (fun _ => by rw [hop]; exact hs.isOpen hpc)
  · intro f hp'
    exact absurd hp' (hnp f)
  · rw [hr]
    refine hi.acc.again hcq _ (fun k => ?_)
    have h0 : ops.countP (fun o => accKey o = some k) = 0 := by
      apply List.countP_eq_zero.mpr
      intro o ho
      simp [accKey_ofConn (hops o ho).ofConn]
    rw [List.countP_append, h0, h]
    exact Nat.le_refl 1
  · rw [hr]
    refine hi.ms.seen.pushAll _ (fun k => ?_)
    rw [List.countP_append]
    have h1 := hms k
    have h2 : [acceptSqe L.listenFd L.acceptCtx].countP (fun o => msKey o = some k) = 0 := rfl
    have h3 := hi.ms.seen.once k
    by_cases hk : k = ss.conn
    · have h4 : s.ring.seen.armedIn Sqe.kind msKey k = 0 := by
        apply IoRing.armedIn_zero
        intro o ho hko
        have hoo := hi.ops o ((IoRing.mem_outstanding_seen hcq).mpr (Or.inr ho))
        exact (hold k (hoo.old k (msKey_some.mp hko).2)).2 hk
      rw [if_pos hk] at h1
      omega
    · rw [if_neg hk] at h1
      omega
  · intro p hp'
    rw [hfr] at hp'
    obtain ⟨conn, h1, h2, h3⟩ := hi.freed p hp'
    refine ⟨conn, h1, (hold conn h2).1, fun _ ss' hl => ?_⟩
    rw [hss, AList.lookup_insert_eq] at hl
    split at hl
    · cases hl
      exact fun e => (hold conn h2).2 e.symm
    · exact h3 hpc ss' hl

/-! ## every step -/

/-- no session is entered: the accept failed, or the handshake did -/
structure Refuses (L : Setup) (now : Nat) (hs : Option (Bool × Nat)) (s : St) (c : Cqe Sqe) :
    Prop where
  queued : queued L now hs s c = [acceptSqe L.listenFd L.acceptCtx]
  sessions : (book L now hs s c).sessions = s.sessions
  gen : (book L now hs s c).gen = s.gen
  isOpen : ∀ f ss, s.sessions.lookup f = some ss → (book L now hs s c).isOpen f = s.isOpen f
  stays : ∀ f, (book L now hs s c).isOpen f = true → s.isOpen f = true
  freed : (book L now hs s c).freed = s.freed

/-- the session `ss` is entered under the accepted descriptor and `ops` are queued for it -/
structure Opens (L : Setup) (now : Nat) (hs : Option (Bool × Nat)) (s : St) (c : Cqe Sqe)
    (ss : ClientSession) (ops : List Sqe) : Prop where
  accepts : accepts c = true
  free : s.sessions.lookup c.res = none
  conn : ss.conn = ⟨c.res, s.gen c.res⟩
  sess : SessInv L s c.res ss
  first : ∀ o ∈ ops, FirstOp L ss o
  single : ∀ k, ops.countP (fun o => msKey o = some k) ≤ if k = ss.conn then 1 else 0
  armed : ss.isReverse = false → L.useMultishot = true →
    1 ≤ ops.countP (fun o => msKey o = some ss.conn)
  queued : queued L now hs s c = ops ++ [acceptSqe L.listenFd L.acceptCtx]
  book : book L now hs s c = { s.noteAccepted c.res with sessions := s.sessions.insert c.res ss }

theorem queued_accept {now : Nat} {hs : Option (Bool × Nat)} {s : St} {c : Cqe Sqe}
    (h : c.op = acceptSqe L.listenFd L.acceptCtx) : queued L now hs s c =
      (if 0 ≤ c.res then connectOps L hs s c.res else []) ++ [acceptSqe L.listenFd L.acceptCtx] := by
  have ht : c.op.userData.type = .accept := by rw [h]; rfl
  unfold queued
  rw [ht]

theorem accept_cases (now : Nat) (hs : Option (Bool × Nat)) {s : St} {c : Cqe Sqe}
    {cs : List (Cqe Sqe)} (hi : Inv L s) (hpc : s.pc ≠ .done) (hcq : s.ring.cq = c :: cs)
    (h : c.op = acceptSqe L.listenFd L.acceptCtx) :
    Refuses L now hs s c ∨ ∃ ss ops, Opens L now hs s c ss ops := by
  have ht : c.op.userData.type = .accept := by rw [h]; rfl
  have hq : queued L now hs s c = _ := queued_accept h
  by_cases hres : 0 ≤ c.res
  · have hacc : accepts c = true := by
      unfold accepts
      rw [ht, decide_eq_true hres]
      rfl
    have hb : book L now hs s c = bookConnect L now hs s c.res := by
      unfold book
      rw [if_pos hacc]
    have hp : Pend s c.res := ⟨c, by rw [hcq]; exact List.mem_cons_self, hacc, rfl⟩
    obtain ⟨hopen, hnone⟩ := hi.pend _ hp hpc
    rw [if_pos hres] at hq
    unfold bookConnect at hb
    unfold connectOps at hq
    cases hh : handshake L hs with
    | none =>
      rw [hh] at hb hq
      refine Or.inl ⟨hq, by rw [hb]; rfl, by rw [hb]; rfl, fun f ss hl => ?_, fun f hf => ?_,
        by rw [hb]; rfl⟩
      · have hne : f ≠ c.res := by
          intro e
          rw [e, hnone] at hl
          cases hl
        rw [hb]
        exact Function.update_of_ne hne _ _
      · rw [hb] at hf
        replace hf : Function.update s.isOpen c.res false f = true := hf
        rw [Function.update_apply] at hf
        split at hf
        · cases hf
        · exact hf
    | some hd =>
      rw [hh] at hb hq
      have hc := newSession_conn (L := L) now ⟨c.res, s.gen c.res⟩ hd.1 hd.2
      refine Or.inr ⟨_, _, hacc, hnone, hc, ?_, ?_, ?_, ?_, hq, hb⟩
      · exact newSession_sessInv now ⟨c.res, s.gen c.res⟩ hd.1 hd.2 rfl hopen
      · intro o ho
        exact sessionOps_first now _ hd.1 hd.2 _ ho
      · intro k
        rw [hc]
        exact sessionOps_ms _ hd.1 _ k
      · intro hr hm
        rw [newSession_isReverse] at hr
        rw [hc]
        exact sessionOps_armed _ _ hr hm
  · have hb : book L now hs s c = s := by
      unfold book accepts ended
      rw [ht, decide_eq_false hres]
      rfl
    rw [if_neg hres, List.nil_append] at hq
    exact Or.inl ⟨hq, by rw [hb], by rw [hb], fun f ss _ => by rw [hb], fun f hf => by rwa [hb] at hf,
      by rw [hb]⟩

/-- the bookkeeping of a session's completion -/
theorem book_session {now : Nat} {hs : Option (Bool × Nat)} {s : St} {c : Cqe Sqe} {conn : Conn}
    (h : OfConn L c.op conn) : book L now hs s c =
    match ended L s c with
    | none => s
    | some ss => ((s.closeFd conn.fd).freeBuffers (released L ss)).erase conn.fd := by
  have hacc : accepts c = false := by
    unfold accepts
    rw [beq_eq_false_iff_ne.mpr h.not_accept.2, Bool.false_and]
  cases he : ended L s c with
  | none => simp only [book, hacc, he, Bool.false_eq_true, if_false]
  | some ss => simp only [book, hacc, he, h.ctxFd, Bool.false_eq_true, if_false]

theorem inv_cqe {now : Nat} {hs : Option (Bool × Nat)} {s t : St} {c : Cqe Sqe}
    {cs : List (Cqe Sqe)} (hi : Inv L s) (hpc : s.pc ≠ .done) (hcq : s.ring.cq = c :: cs)
    (hr : t.ring = s.ring.seen.pushAll (queued L now hs s c))
    (hss : t.sessions = (book L now hs s c).sessions) (hgen : t.gen = (book L now hs s c).gen)
    (hop : t.isOpen = (book L now hs s c).isOpen) (hfr : t.freed = (book L now hs s c).freed) :
    Inv L t := by
  cases (hi.ops _ (head_outstanding hcq)).shape with
  | accept h =>
    rcases accept_cases now hs hi hpc hcq h with ha | ⟨ss, ops, ha⟩
    · refine inv_refused hi hpc hcq h (by rw [hr, ha.queued]) (by rw [hss, ha.sessions])
        (by rw [hgen, ha.gen]) (fun f ss hl => ?_) (by rw [hfr, ha.freed])
      rw [hop]
      exact ha.isOpen f ss hl
    · rw [ha.book] at hss hgen hop hfr
      exact inv_opened hi hpc hcq h ha.accepts ha.conn ha.sess ha.first ha.single
        (by rw [hr, ha.queued]) hss hgen hop hfr
  | session conn h =>
    rw [book_session h] at hss hgen hop hfr
    cases he : ended L s c with
    | none =>
      rw [he] at hss hgen hop hfr
      exact inv_requeue hi hpc hcq h hr hss hgen hop hfr
    | some ss =>
      rw [he] at hss hgen hop hfr
      obtain ⟨ht, hends, hl⟩ := ended_some h he
      exact inv_end hi hpc hcq h ht hends hl hr hss hgen hop hfr

/-- **Every action keeps the invariant.** -/
theorem inv_step (s : St) (a : Act) (t : St) (hi : Inv L s) (h : step L s a = some t) : Inv L t := by
  cases a with
  | sweep now =>
    obtain ⟨hpc, -, rfl⟩ := step_sweep h
    exact inv_sweep hpc hi
  | reap =>
    obtain ⟨hpc, ⟨-, rfl⟩ | ⟨-, rfl⟩⟩ := step_reap h
    · exact inv_submit .head (by rw [hpc]; exact Pc.noConfusion) hi
    · exact hi.transfer (by rw [hpc]; exact Pc.noConfusion) hi.ops (fun _ => id) rfl rfl rfl rfl hi.acc
        hi.ms
  | cqe now hs =>
    obtain ⟨n, c, cs, hc⟩ := step_cqe h
    exact inv_cqe hi hc.not_done.1 hc.cq hc.ring hc.sessions hc.gen hc.isOpen hc.freed
  | submit =>
    obtain ⟨hpc, rfl⟩ := step_submit h
    exact inv_submit .head (by rw [hpc]; exact Pc.noConfusion) hi
  | finish =>
    obtain ⟨hpc, -, rfl⟩ := step_finish h
    exact inv_finish hpc hi
  | signal =>
    obtain ⟨hpc, rfl⟩ := step_signal h
    exact hi.transfer hpc hi.ops (fun _ => id) rfl rfl rfl rfl hi.acc hi.ms
  | post i c =>
    obtain ⟨hpc, p, r, hp, hr, ⟨-, -, ho, -, rfl⟩ | ⟨hna, rfl⟩⟩ := step_post h
    · exact inv_post_accept hp hr ho hpc hi
    · exact inv_post_quiet hp hr hna hpc hi
  | consume =>
    obtain ⟨hpc, r, hr, rfl⟩ := step_consume h
    exact inv_consume hpc hr hi

/-! ## the state before the loop -/

theorem start_ring (htcp : L.config.protocol = .tcp) (cap : Nat) : (start L cap).ring =
    ((IoRing.init cap L.sqpoll).pushAll [acceptSqe L.listenFd L.acceptCtx]).submit := by
  unfold start primed
  rw [htcp]
  rfl

theorem inv_start (htcp : L.config.protocol = .tcp) (cap : Nat) : Inv L (start L cap) := by
  have hring := start_ring htcp cap
  have hcq : (start L cap).ring.cq = [] := by
    rw [hring, IoRing.submit_cq, IoRing.pushAll_cq]
    rfl
  refine ⟨?_, ?_, ?_, ?_, ?_, ?_⟩
  · intro o ho
    rw [hring, IoRing.mem_outstanding_submit] at ho
    rcases IoRing.mem_outstanding_pushAll _ ho with ho | ho
    · exact absurd ho List.not_mem_nil
    · rw [List.mem_singleton.mp ho]
      exact accept_opInv _
  · intro f ss hl
    exact absurd hl (by rw [show (start L cap).sessions = ∅ from rfl, AList.lookup_empty]; nofun)
  · rintro f ⟨c, hc, -⟩
    rw [hcq] at hc
    exact absurd hc List.not_mem_nil
  · rw [hring]
    refine ((IoRing.single_init cap L.sqpoll).pushAll _ (fun k => ?_)).submit
    exact Nat.le_refl 1
  · rw [hring]
    refine ((IoRing.single_init cap L.sqpoll).pushAll _ (fun k => ?_)).submit
    exact Nat.zero_le 1
  · intro p hp
    exact absurd hp List.not_mem_nil

/-- **The invariant holds in every state a TCP server reaches.** -/
theorem reach_inv (htcp : L.config.protocol = .tcp) {cap : Nat} {s : St}
    (h : Trans.Reach (step L) (start L cap) s) : Inv L s :=
  h.inv (inv_start htcp cap) inv_step

end
end Server
end UringPerf
