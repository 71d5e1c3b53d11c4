import UringPerf.Base.Trace
import UringPerf.Server.Preserve

/-!
# The memory of the sessions (TCP)

A session's buffers are allocated when it is opened and released on four paths: the deadline sweep, the end of a
single-shot receive, the end of a multishot receive (which releases nothing) and the cleanup after the loop.

* `opened`, `held`           the session that an action opens, and the buffers the table holds;
* `TableStep`                what an action can do to the table and to the released buffers;
* `memory_step`              what is released or held grows by what is allocated, and by nothing else;
* `buffers_released_once`    a run releases each buffer it has allocated exactly once;
* `Naming`, `Once`           a way to name the contexts, and that no name is armed twice;
* `Coexist`, `Apart`         allocations that exist at the same time, and addresses that keep them apart;
* `buffers_exclusive`        no two armed operations that exist at the same time share a context or a buffer.
-/

namespace UringPerf
namespace Server
open Uring

/-- the session that an action opens -/
def opened (L : Setup) (s : St) : Act → List ClientSession
  | .cqe now hs =>
    match s.ring.cq with
    | [] => []
    | c :: _ =>
      if accepts c then
        ((handshake L hs).map fun h => newSession L now ⟨c.res, s.gen c.res⟩ h.1 h.2).toList
      else []
  | _ => []

/-- the buffers of the sessions in the table; after the cleanup they are gone -/
def held (s : St) : List Ptr :=
  if s.pc = .done then [] else s.sessions.entries.flatMap fun e => e.2.buffers

/-- the sessions that receive into the provided buffers have none of their own -/
def Bare (L : Setup) (s : St) : Prop :=
  ∀ f ss, s.sessions.lookup f = some ss → ss.isReverse = false → L.useMultishot = true → ss.buffers = []

section
variable {L : Setup} {s t : St}

theorem held_running (h : s.pc ≠ .done) : held s = s.sessions.entries.flatMap fun e => e.2.buffers := if_neg h

theorem opened_cqe {now : Nat} {hs : Option (Bool × Nat)} {c : Cqe Sqe} {cs : List (Cqe Sqe)}
    (hcq : s.ring.cq = c :: cs) : opened L s (.cqe now hs) =
      if accepts c then ((handshake L hs).map fun h => newSession L now ⟨c.res, s.gen c.res⟩ h.1 h.2).toList
      else [] := by
  unfold opened
  rw [hcq]

/-! ## what one action does to the table -/

inductive TableStep (L : Setup) (s t : St) : List ClientSession → Prop where
  | quiet (sessions : t.sessions = s.sessions) (freed : t.freed = s.freed) (running : t.pc ≠ .done) : TableStep L s t []
  | opens (now : Nat) (f : Int) (d : Bool × Nat) (pend : Pend s f) (free : s.sessions.lookup f = none)
      (sessions : t.sessions = s.sessions.insert f (newSession L now ⟨f, s.gen f⟩ d.1 d.2))
      (freed : t.freed = s.freed) (running : t.pc ≠ .done) :
      TableStep L s t [newSession L now ⟨f, s.gen f⟩ d.1 d.2]
  | leaves (out : List (Sigma fun _ : Int => ClientSession))
      (sessions : s.sessions.entries.Perm (out ++ t.sessions.entries))
      (freed : t.freed = s.freed ++ out.flatMap fun e => e.2.buffers) (running : t.pc ≠ .done) : TableStep L s t []
  | finish (sessions : t.sessions = s.sessions) (freed : t.freed = s.freed ++ held s) (done : t.pc = .done) :
      TableStep L s t []

/-- a terminated multishot receive only ends sessions without buffers, so that nothing is lost on this path -/
theorem released_eq (hi : Inv L s) (hm : Bare L s) {c : Cqe Sqe} {cs : List (Cqe Sqe)} {conn : Conn}
    {ss : ClientSession} (hcq : s.ring.cq = c :: cs) (h : OfConn L c.op conn) (he : ended L s c = some ss) :
    released L ss = ss.buffers := by
  obtain ⟨ht, -, hl⟩ := ended_some h he
  unfold released
  rcases h.recv ht with ⟨hop, hms, -⟩ | ⟨-, hms⟩
  · obtain ⟨ss', hl', -, hr⟩ := (hi.ops _ (head_outstanding hcq)).live conn (msKey_some.mpr ⟨hop, h.conn⟩)
    rw [hl] at hl'
    cases hl'
    rw [if_pos hms, hm _ ss hl hr hms]
  · rw [if_neg (by rw [hms]; exact Bool.false_ne_true)]

theorem tableStep_accept {now : Nat} {hs : Option (Bool × Nat)} {n : Nat} {c : Cqe Sqe} {cs : List (Cqe Sqe)}
    (hi : Inv L s) (hc : CqeStep L now hs s t n c cs) (h : c.op = acceptSqe L.listenFd L.acceptCtx) :
    TableStep L s t (opened L s (.cqe now hs)) := by
  obtain ⟨hpc, hpc'⟩ := hc.not_done
  have hss := hc.sessions
  have hfr := hc.freed
  rw [opened_cqe hc.cq]
  cases hacc : accepts c with
  | false =>
    have hend : ended L s c = none := by
      unfold ended
      rw [h]
      rfl
    have hb : book L now hs s c = s := by
      unfold book
      rw [hacc, hend]
      rfl
    rw [hb] at hss hfr
    exact .quiet hss hfr hpc'
  | true =>
    have hb : book L now hs s c = bookConnect L now hs s c.res := if_pos hacc
    have hpend : Pend s c.res := ⟨c, by rw [hc.cq]; exact List.mem_cons_self, hacc, rfl⟩
    rw [hb] at hss hfr
    unfold bookConnect at hss hfr
    rw [if_pos rfl]
    cases hh : handshake L hs with
    | none =>
      rw [hh] at hss hfr
      exact .quiet hss hfr hpc'
    | some d =>
      rw [hh] at hss hfr
      exact .opens now c.res d hpend (hi.pend _ hpend hpc).2 hss hfr hpc'

theorem tableStep_session {now : Nat} {hs : Option (Bool × Nat)} {n : Nat} {c : Cqe Sqe} {cs : List (Cqe Sqe)}
    {conn : Conn} (hi : Inv L s) (hm : Bare L s) (hc : CqeStep L now hs s t n c cs) (h : OfConn L c.op conn) :
    TableStep L s t (opened L s (.cqe now hs)) := by
  have hss := hc.sessions
  have hfr := hc.freed
  have hacc : accepts c = false := by
    unfold accepts
    rw [beq_eq_false_iff_ne.mpr h.not_accept.2, Bool.false_and]
  rw [book_session h] at hss hfr
  rw [opened_cqe hc.cq, hacc, if_neg Bool.false_ne_true]
  cases he : ended L s c with
  | none =>
    rw [he] at hss hfr
    exact .quiet hss hfr hc.not_done.2
  | some ss =>
    rw [he] at hss hfr
    obtain ⟨-, -, hl⟩ := ended_some h he
    have hperm : s.sessions.entries.Perm ([⟨conn.fd, ss⟩] ++ t.sessions.entries) := by
      rw [hss]
      exact AList.entries_erase_perm hl
    refine .leaves _ hperm ?_ hc.not_done.2
    rw [List.flatMap_singleton, ← released_eq hi hm hc.cq h he]
    exact hfr

theorem tableStep {a : Act} (hi : Inv L s) (hm : Bare L s) (hst : step L s a = some t) :
    TableStep L s t (opened L s a) := by
  cases a with
  | sweep now =>
    obtain ⟨-, -, rfl⟩ := step_sweep hst
    rw [sweep_eq]
    exact .leaves (sweptOut now s) (AList.entries_eraseAll_perm (expired now) s.sessions) rfl Pc.noConfusion
  | cqe now hs =>
    obtain ⟨n, c, cs, hc⟩ := step_cqe hst
    cases (hi.ops _ (head_outstanding hc.cq)).shape with
    | accept h => exact tableStep_accept hi hc h
    | session conn h => exact tableStep_session hi hm hc h
  | finish =>
    obtain ⟨hpc, -, rfl⟩ := step_finish hst
    have hh : held s = _ := held_running (by rw [hpc]; exact Pc.noConfusion)
    refine .finish ?_ ?_ rfl
    · rw [cleanup_eq]
    · rw [hh, cleanup_eq]
  | reap =>
    obtain ⟨-, ⟨-, rfl⟩ | ⟨-, rfl⟩⟩ := step_reap hst
    · exact .quiet rfl rfl Pc.noConfusion
    · exact .quiet rfl rfl Pc.noConfusion
  | submit =>
    obtain ⟨-, rfl⟩ := step_submit hst
    exact .quiet rfl rfl Pc.noConfusion
  | signal =>
    obtain ⟨hpc, rfl⟩ := step_signal hst
    exact .quiet rfl rfl hpc
  | consume =>
    obtain ⟨hpc, r, -, rfl⟩ := step_consume hst
    exact .quiet rfl rfl hpc
  | post i c =>
    obtain ⟨hpc, p, r, -, -, ⟨-, -, -, -, rfl⟩ | ⟨-, rfl⟩⟩ := step_post hst
    · exact .quiet rfl rfl hpc
    · exact .quiet rfl rfl hpc

theorem step_not_done {a : Act} (hst : step L s a = some t) : s.pc ≠ .done := by
  intro hd
  unfold step at hst
  rw [hd] at hst
  cases a <;> simp at hst

/-! ## the ledger of the buffers -/

structure Memory (L : Setup) (s : St) : Prop where
  bare : Bare L s
  nodup : (s.freed ++ held s).Nodup

theorem newSession_bare (now : Nat) (conn : Conn) (d : Bool × Nat)
    (hr : (newSession L now conn d.1 d.2).isReverse = false) (hm : L.useMultishot = true) :
    (newSession L now conn d.1 d.2).buffers = [] := by
  rw [newSession_isReverse] at hr
  unfold newSession
  rw [hr, if_neg Bool.false_ne_true, if_pos hm]

theorem sessionBuffers_nodup (conn : Conn) : (L.sessionBuffers conn).Nodup := by
  refine List.nodup_range.map fun i j hij => ?_
  exact congrArg Ptr.idx hij

theorem newSession_nodup (now : Nat) (conn : Conn) (d : Bool × Nat) :
    (newSession L now conn d.1 d.2).buffers.Nodup := by
  have hbufs := sessionBuffers_nodup (L := L) conn
  unfold newSession
  split
  · exact hbufs
  · split
    · exact List.nodup_nil
    · exact hbufs

/-- **What is released or held grows by what is allocated, and by nothing else.** -/
theorem TableStep.perm {new : List ClientSession} (h : TableStep L s t new) (hpc : s.pc ≠ .done) :
    (t.freed ++ held t).Perm (s.freed ++ held s ++ new.flatMap ClientSession.buffers) := by
  cases h with
  | quiet hss hfr hr =>
    rw [held_running hpc, held_running hr, hss, hfr, List.flatMap_nil, List.append_nil]
  | opens now f d _ hf hss hfr hr =>
    have hnot : f ∉ s.sessions := AList.lookup_eq_none.mp hf
    rw [held_running hpc, held_running hr, hss, hfr, AList.entries_insert_of_notMem hnot, List.flatMap_cons,
      List.append_assoc, List.flatMap_singleton]
    exact List.perm_append_comm.append_left _
  | leaves out hss hfr hr =>
    rw [held_running hpc, held_running hr, hfr, List.flatMap_nil, List.append_nil, List.append_assoc,
      ← List.flatMap_append]
    exact (hss.symm.flatMap_right _).append_left _
  | finish hss hfr hd =>
    have hh : held t = [] := if_pos hd
    rw [hh, hfr, List.flatMap_nil]

/-- the buffers of a new session have never been used: those released belong to older connections and those held to
other descriptors -/
theorem fresh_buffers (hi : Inv L s) (hpc : s.pc ≠ .done) {f : Int} (hp : Pend s f)
    (hf : s.sessions.lookup f = none) {p : Ptr} (ho : p.owner = .session ⟨f, s.gen f⟩) : p ∉ s.freed ++ held s := by
  intro hm
  rcases List.mem_append.mp hm with hm | hm
  · obtain ⟨conn, hc, hold, -⟩ := hi.freed p hm
    rw [ho] at hc
    cases hc
    exact absurd (hold.2 hp) (Nat.lt_irrefl _)
  · rw [held_running hpc] at hm
    obtain ⟨⟨f', ss⟩, he, hb⟩ := List.mem_flatMap.mp hm
    have hl : s.sessions.lookup f' = some ss := mem_entries.mp he
    have hs := hi.sess f' ss hl
    have hc := hs.bufs p hb
    rw [ho, hs.conn] at hc
    cases hc
    rw [hl] at hf
    cases hf

theorem memory_step {a : Act} (hi : Inv L s) (hm : Memory L s) (hst : step L s a = some t) : Memory L t := by
  have hpc := step_not_done hst
  have htab := tableStep hi hm.bare hst
  have hperm := htab.perm hpc
  generalize opened L s a = new at htab hperm
  cases htab with
  | quiet hss hfr hr =>
    rw [List.flatMap_nil, List.append_nil] at hperm
    refine ⟨?_, hperm.nodup_iff.mpr hm.nodup⟩
    unfold Bare
    rw [hss]
    exact hm.bare
  | opens now f d hp hf hss hfr hr =>
    constructor
    · intro f' ss' hl
      rw [hss, AList.lookup_insert_eq] at hl
      split at hl
      · cases hl
        exact newSession_bare now _ d
      · exact hm.bare f' ss' hl
    · refine hperm.nodup_iff.mpr (List.nodup_append.mpr ⟨hm.nodup, ?_, ?_⟩)
      · rw [List.flatMap_singleton]
        exact newSession_nodup now _ d
      · rw [List.flatMap_singleton]
        rintro p hp1 _ hp2 rfl
        exact fresh_buffers hi hpc hp hf (newSession_buffers now _ d.1 d.2 hp2) hp1
  | leaves out hss hfr hr =>
    rw [List.flatMap_nil, List.append_nil] at hperm
    refine ⟨fun f ss hl => ?_, hperm.nodup_iff.mpr hm.nodup⟩
    have hin : (⟨f, ss⟩ : Sigma fun _ : Int => ClientSession) ∈ s.sessions.entries :=
      hss.mem_iff.mpr (List.mem_append_right _ (mem_entries.mpr hl))
    exact hm.bare f ss (mem_entries.mp hin)
  | finish hss hfr hd =>
    rw [List.flatMap_nil, List.append_nil] at hperm
    refine ⟨?_, hperm.nodup_iff.mpr hm.nodup⟩
    unfold Bare
    rw [hss]
    exact hm.bare

theorem memory_start (cap : Nat) : Memory L (start L cap) where
  bare := fun f ss hl => by
    have hnone : (start L cap).sessions.lookup f = none := AList.lookup_empty f
    rw [hnone] at hl
    cases hl
  nodup := List.nodup_nil

end

/-- **Every buffer of a session is released exactly once.**  Along every run of the TCP server, whatever connections
arrive and in whatever order they end: the buffers allocated so far are the released ones and those the session table
holds, each once; when the function has returned, exactly the allocated buffers have been released. -/
theorem buffers_released_once (L : Setup) (htcp : L.config.protocol = .tcp) (cap : Nat) (as : List Act) (s : St)
    (h : Trans.runFrom (step L) (start L cap) as = some s) :
    let allocated := (Trans.observed (step L) (opened L) (start L cap) as).flatMap ClientSession.buffers
    allocated.Nodup ∧
    (s.pc ≠ .done → allocated.Perm (s.freed ++ s.sessions.entries.flatMap fun e => e.2.buffers)) ∧
    (s.pc = .done → s.freed.Perm allocated) := by
  intro allocated
  have hstep : ∀ s a t, Inv L s ∧ Memory L s → step L s a = some t → Inv L t ∧ Memory L t :=
    fun s a t hs hst => ⟨inv_step s a t hs.1 hst, memory_step hs.1 hs.2 hst⟩
  have h0 : Inv L (start L cap) ∧ Memory L (start L cap) := ⟨inv_start htcp cap, memory_start cap⟩
  have hmem := (Trans.Reach.of_runFrom as h).inv (I := fun s => Inv L s ∧ Memory L s) h0 hstep
  have hall : (s.freed ++ held s).Perm allocated :=
    Trans.observed_perm (f := fun s => s.freed ++ held s) hstep
      (fun s a t hs hst => (tableStep hs.1 hs.2.bare hst).perm (step_not_done hst)) as _ _ h0 h
  refine ⟨hall.nodup_iff.mp hmem.2.nodup, fun hpc => ?_, fun hpc => ?_⟩
  · rw [← held_running hpc]
    exact hall.symm
  · have hh : held s = [] := if_pos hpc
    rwa [hh, List.append_nil] at hall

/-- a reverse connection is accepted, and the sweep after its deadline takes it out -/
def servedRun : List Act :=
  [.post 0 (.plain 7), .sweep 0, .reap, .cqe 0 (some (true, 10)), .submit, .sweep (11 * second), .signal, .reap, .finish]

theorem buffers_released_once_served : defaultSetup.config.protocol = .tcp ∧
    ∃ s, Trans.runFrom (step defaultSetup) (start defaultSetup 256) servedRun = some s ∧ s.pc = .done ∧
      s.freed.length = 32 ∧ s.freed.Nodup := by
  have hrun : ((Trans.runFrom (step defaultSetup) (start defaultSetup 256) servedRun).any
      fun s => decide (s.pc = .done ∧ s.freed.length = 32)) = true := by decide +kernel
  obtain ⟨s, hs, hall⟩ := (Option.any_eq_true _ _).mp hrun
  obtain ⟨hpc, hlen⟩ := of_decide_eq_true hall
  obtain ⟨hnd, -, hdone⟩ := buffers_released_once defaultSetup rfl 256 servedRun s hs
  exact ⟨rfl, s, hs, hpc, hlen, (hdone hpc).nodup_iff.mpr hnd⟩

/-! ## nothing is armed twice -/

section
variable {L : Setup} {name : IOContext → Option Ptr} {s t : St}

/-- a pointer that belongs to a context: it has the context's owner, and those of a session are numbered -/
structure Naming (L : Setup) (name : IOContext → Option Ptr) : Prop where
  accept : ∀ p, name L.acceptCtx = some p → p.owner = .acceptCtx
  ofConn : ∀ o conn p, OfConn L o conn → name o.userData = some p → p.owner = .session conn
  numbered : ∀ type conn b, name (L.sessionCtx type conn b) = some ⟨.session conn, b⟩

/-- no two armed operations have contexts of the same name -/
def Once (name : IOContext → Option Ptr) (s : St) : Prop :=
  ∀ k, s.ring.armedIn Sqe.kind (fun o => name o.userData) k ≤ 1

theorem Naming.apart (hn : Naming L name) (type : IOType) (conn : Conn) (k : Ptr) :
    (L.sessionCtxs type conn).countP (fun ctx => name ctx = some k) ≤ 1 := by
  have hcount := List.nodup_iff_count_le_one.mp (sessionBuffers_nodup (L := L) conn) k
  refine le_trans (Nat.le_of_eq ?_) hcount
  unfold Setup.sessionCtxs Setup.sessionBuffers
  rw [List.count, List.countP_map, List.countP_map]
  refine List.countP_congr fun b _ => ?_
  rw [Function.comp_apply, Function.comp_apply, hn.numbered, decide_eq_true_eq, beq_iff_eq, Option.some.injEq]

theorem Once.of_eq (h : Once name s) (he : ∀ k, t.ring.armedIn Sqe.kind (fun o => name o.userData) k =
    s.ring.armedIn Sqe.kind (fun o => name o.userData) k) : Once name t :=
  fun k => (he k).le.trans (h k)

/-- a session's completion queues its own context again, and only when the operation is over -/
theorem queued_own {now : Nat} {hs : Option (Bool × Nat)} {c : Cqe Sqe} {conn : Conn} (h : OfConn L c.op conn) :
    queued L now hs s c = [] ∨ ∃ o, queued L now hs s c = [o] ∧ o.userData = c.op.userData ∧
      c.op.kind.closes c.toCompletion = true := by
  have hagain : queued L now hs s c = [] ∨ _ := queued_again h
  rcases hagain with hq | ⟨o, hq, ha, hms⟩
  · exact Or.inl hq
  rcases h.type with ⟨ht, hop⟩ | ⟨-, hop, -⟩ | ⟨-, hop, -⟩
  · cases hn : c.notif with
    | true =>
      refine Or.inl ?_
      unfold queued
      rw [ht, hn]
      rfl
    | false =>
      refine Or.inr ⟨o, hq, ha.userData, ?_⟩
      unfold Sqe.kind
      rcases hop with hop | hop
      · rw [hop]
        rfl
      · rw [hop]
        show (!c.notif) = true
        rw [hn]
        rfl
  · refine Or.inr ⟨o, hq, ha.userData, ?_⟩
    unfold Sqe.kind
    rw [hop]
    show (!c.more) = true
    rw [hms (ha.multishot.mpr hop)]
    rfl
  · refine Or.inr ⟨o, hq, ha.userData, ?_⟩
    unfold Sqe.kind
    rw [hop]
    rfl

theorem sessionOps_once (hn : Naming L name) (e : UringEngine) (conn : Conn) (reverse : Bool) (k : Ptr) :
    (sessionOps L e conn reverse).countP (fun o => name o.userData = some k) ≤ 1 := by
  unfold sessionOps
  split
  · rw [List.countP_map]
    refine le_trans (Nat.le_of_eq (List.countP_congr fun ctx _ => ?_)) (hn.apart .send conn k)
    rw [Function.comp_apply, sendSqe_userData]
  · split
    · exact List.countP_le_length
    · rw [List.countP_map]
      exact hn.apart .recv conn k

theorem connectOps_once (hn : Naming L name) (hs : Option (Bool × Nat)) (f : Int) (k : Ptr) :
    (connectOps L hs s f).countP (fun o => name o.userData = some k) ≤ 1 ∧
      (k.owner ≠ .session ⟨f, s.gen f⟩ → (connectOps L hs s f).countP (fun o => name o.userData = some k) = 0) := by
  unfold connectOps
  cases handshake L hs with
  | none => exact ⟨Nat.zero_le 1, fun _ => rfl⟩
  | some d =>
    refine ⟨sessionOps_once hn _ _ _ k, fun ho => List.countP_eq_zero.mpr fun o hin hk => ho ?_⟩
    have hfirst := (sessionOps_first 0 ⟨f, s.gen f⟩ d.1 0 s.engine hin).ofConn
    rw [newSession_conn] at hfirst
    exact hn.ofConn o _ k hfirst (of_decide_eq_true hk)

/-- no operation of a connection is outstanding before its accept has been processed -/
theorem Inv.unarmed (hi : Inv L s) (hn : Naming L name) {f : Int} (hp : Pend s f) {k : Ptr}
    (ho : k.owner = .session ⟨f, s.gen f⟩) : s.ring.armedIn Sqe.kind (fun o => name o.userData) k = 0 := by
  apply IoRing.armedIn_zero
  intro o hout hk
  have hop := hi.ops o hout
  cases hop.shape with
  | accept h =>
    rw [h] at hk
    have hown := hn.accept k hk
    rw [ho] at hown
    cases hown
  | session conn h =>
    have hown := hn.ofConn o conn k h hk
    rw [ho] at hown
    cases hown
    exact absurd ((hop.old _ h.conn).2 hp) (Nat.lt_irrefl _)

/-- a processed accept queues itself again, and the first operations of a connection of which nothing is armed -/
theorem accept_count (hn : Naming L name) (hi : Inv L s) (h : Once name s) {now : Nat} {hs : Option (Bool × Nat)}
    {c : Cqe Sqe} {cs : List (Cqe Sqe)} (hcq : s.ring.cq = c :: cs) (ho : c.op = acceptSqe L.listenFd L.acceptCtx)
    (k : Ptr) : (queued L now hs s c).countP (fun o => name o.userData = some k)
      + s.ring.armedIn Sqe.kind (fun o => name o.userData) k ≤ if name L.acceptCtx = some k then 2 else 1 := by
  have hone := h k
  rw [queued_accept ho, List.countP_append, List.countP_singleton]
  show _ + (if decide (name L.acceptCtx = some k) then 1 else 0) + _ ≤ _
  by_cases hres : 0 ≤ c.res
  · rw [if_pos hres]
    have hacc : accepts c = true := by
      unfold accepts
      rw [ho, decide_eq_true hres]
      rfl
    have hp : Pend s c.res := ⟨c, by rw [hcq]; exact List.mem_cons_self, hacc, rfl⟩
    obtain ⟨hle, hother⟩ := connectOps_once (s := s) hn hs c.res k
    by_cases hk : name L.acceptCtx = some k
    · have hzero := hother fun hown => by
        rw [hn.accept k hk] at hown
        cases hown
      rw [if_pos hk, if_pos (decide_eq_true hk), hzero]
      omega
    · rw [if_neg hk, if_neg fun hd => hk (of_decide_eq_true hd)]
      by_cases hown : k.owner = .session ⟨c.res, s.gen c.res⟩
      · rw [hi.unarmed hn hp hown]
        exact hle
      · rw [hother hown]
        omega
  · rw [if_neg hres, List.countP_nil]
    by_cases hk : name L.acceptCtx = some k
    · rw [if_pos hk, if_pos (decide_eq_true hk)]
      omega
    · rw [if_neg hk, if_neg fun hd => hk (of_decide_eq_true hd)]
      omega

theorem once_cqe (hn : Naming L name) (hi : Inv L s) (h : Once name s) {now : Nat} {hs : Option (Bool × Nat)}
    {n : Nat} {c : Cqe Sqe} {cs : List (Cqe Sqe)} (hc : CqeStep L now hs s t n c cs) : Once name t := by
  intro k
  have hpush : (s.ring.seen.pushAll (queued L now hs s c)).armedIn Sqe.kind (fun o => name o.userData) k ≤ _ :=
    IoRing.armedIn_pushAll_le _ _ k
  have hseen : s.ring.armedIn Sqe.kind (fun o => name o.userData) k = _ := IoRing.armedIn_seen hc.cq k
  have hone := h k
  rw [hc.ring]
  refine le_trans hpush ?_
  cases (hi.ops _ (head_outstanding hc.cq)).shape with
  | session conn ho =>
    have hown : queued L now hs s c = [] ∨ _ := queued_own ho
    rcases hown with hq | ⟨o, hq, hu, hcl⟩
    · rw [hq, List.countP_nil]
      omega
    · rw [hq, List.countP_singleton, hu]
      by_cases hk : name c.op.userData = some k
      · rw [if_pos ⟨hk, hcl⟩] at hseen
        rw [if_pos (decide_eq_true hk)]
        omega
      · rw [if_neg fun hd => hk (of_decide_eq_true hd)]
        omega
  | accept ho =>
    have hcount : (queued L now hs s c).countP _ + _ ≤ _ := accept_count hn hi h hc.cq ho k
    by_cases hk : name L.acceptCtx = some k
    · rw [if_pos hk] at hcount
      rw [if_pos ⟨by rw [ho]; exact hk, by rw [ho]; rfl⟩] at hseen
      omega
    · rw [if_neg hk] at hcount
      omega

theorem once_step (hn : Naming L name) {a : Act} (hi : Inv L s) (h : Once name s)
    (hst : step L s a = some t) : Once name t := by
  cases a with
  | sweep now =>
    obtain ⟨-, -, rfl⟩ := step_sweep hst
    rw [sweep_eq]
    exact h
  | cqe now hs =>
    obtain ⟨n, c, cs, hc⟩ := step_cqe hst
    exact once_cqe hn hi h hc
  | finish =>
    obtain ⟨-, -, rfl⟩ := step_finish hst
    rw [cleanup_eq]
    exact h
  | reap =>
    obtain ⟨-, ⟨-, rfl⟩ | ⟨-, rfl⟩⟩ := step_reap hst
    · exact h.of_eq fun k => IoRing.armedIn_submit s.ring k
    · exact h
  | submit =>
    obtain ⟨-, rfl⟩ := step_submit hst
    exact h.of_eq fun k => IoRing.armedIn_submit s.ring k
  | signal =>
    obtain ⟨-, rfl⟩ := step_signal hst
    exact h
  | consume =>
    obtain ⟨-, r, hr, rfl⟩ := step_consume hst
    exact h.of_eq fun k => IoRing.armedIn_consume hr k
  | post i c =>
    obtain ⟨-, p, r, -, hr, ⟨-, -, -, -, rfl⟩ | ⟨-, rfl⟩⟩ := step_post hst
    · exact h.of_eq fun k => IoRing.armedIn_post hr k
    · exact h.of_eq fun k => IoRing.armedIn_post hr k

theorem once_start (htcp : L.config.protocol = .tcp) (cap : Nat) : Once name (start L cap) := by
  intro k
  rw [start_ring htcp cap, IoRing.armedIn_submit]
  refine le_trans (IoRing.armedIn_pushAll_le _ _ k) ?_
  exact List.countP_le_length

theorem reach_armed_once (hn : Naming L name) (htcp : L.config.protocol = .tcp) {cap : Nat}
    (h : Trans.Reach (step L) (start L cap) s) : Once name s := by
  have hall := h.inv (I := fun s => Inv L s ∧ Once name s) ⟨inv_start htcp cap, once_start htcp cap⟩
    fun s a t hs hst => ⟨inv_step s a t hs.1 hst, once_step hn hs.1 hs.2 hst⟩
  exact hall.2

theorem addr_naming : Naming L fun ctx => some ctx.addr where
  accept := fun _ hp => by
    cases hp
    rfl
  ofConn := fun _ _ _ ho hp => by
    cases hp
    exact ho.owner
  numbered := fun _ _ _ => rfl

theorem buffer_naming : Naming L IOContext.bufPtr where
  accept := fun _ hp => by cases hp
  ofConn := fun _ _ p ho hp => ho.bufOwner p (ho.buf.trans hp)
  numbered := fun _ _ _ => rfl

/-- the buffer of an operation is that of its context -/
theorem Inv.buf_eq (hi : Inv L s) {o : Sqe} (ho : o ∈ s.ring.outstanding) : o.buf = o.userData.bufPtr := by
  cases (hi.ops o ho).shape with
  | accept h =>
    rw [h]
    rfl
  | session conn h => exact h.buf

/-- no two of the operations have the same pointer -/
theorem pairwise_ne {ops : List Sqe} {ptr : Sqe → Option Ptr}
    (h : ∀ p, ops.countP (fun o => ptr o = some p) ≤ 1) :
    ops.Pairwise fun o o' => ∀ p q, ptr o = some p → ptr o' = some q → p ≠ q := by
  induction ops with
  | nil => exact List.Pairwise.nil
  | cons o ops ih =>
    refine List.Pairwise.cons (fun o' ho' p q hp hq hpq => ?_) (ih fun p => ?_)
    · have hpos : 0 < ops.countP fun o => ptr o = some p :=
        List.countP_pos_iff.mpr ⟨o', ho', decide_eq_true (by rw [hq, hpq])⟩
      have hle := h p
      rw [List.countP_cons, if_pos (decide_eq_true hp)] at hle
      omega
    · exact le_trans ((List.sublist_cons_self o ops).countP_le) (h p)

end

/-- the allocation has not been released: it is the worker's own, or its session is in the table -/
def Live (s : St) (p : Ptr) : Prop :=
  ∀ conn, p.owner = .session conn → ∃ ss, s.sessions.lookup conn.fd = some ss ∧ ss.conn = conn

/-- two allocations that exist at the same time: those of one session are made together and released together -/
def Coexist (s : St) (p q : Ptr) : Prop := p.owner = q.owner ∨ (Live s p ∧ Live s q)

/-- addresses as an allocator gives them out: two allocations that exist at the same time lie apart, and the address
of a released one may be used again -/
def Apart (s : St) (place : Ptr → Nat) : Prop := ∀ p q, Coexist s p q → place p = place q → p = q

/-- no two of the operations have the same address in allocations that exist at the same time -/
def Exclusive (s : St) (place : Ptr → Nat) (ptr : Sqe → Option Ptr) (ops : List Sqe) : Prop :=
  ops.Pairwise fun o o' => ∀ p q, ptr o = some p → ptr o' = some q → Coexist s p q → place p ≠ place q

theorem Apart.exclusive {s : St} {place : Ptr → Nat} (h : Apart s place) {ptr : Sqe → Option Ptr} {ops : List Sqe}
    (hops : ∀ p, ops.countP (fun o => ptr o = some p) ≤ 1) : Exclusive s place ptr ops := by
  refine (pairwise_ne hops).imp fun hne p q hp hq hpq heq => ?_
  exact hne p q hp hq (h p q hpq heq)

/-- the allocator gives every session the same addresses -/
def slot (p : Ptr) : Nat :=
  match p.owner with
  | .acceptCtx => 4 * p.idx
  | .msCtx => 4 * p.idx + 1
  | .pool => 4 * p.idx + 2
  | .session _ => 4 * p.idx + 3

/-- which is possible while no two sessions exist at the same time -/
theorem slot_apart {s : St} {f : Int} (hs : s.sessions.keys = [f]) : Apart s slot := by
  rintro ⟨o, i⟩ ⟨o', j⟩ hco heq
  have hsame : o = o' := by
    rcases hco with ho | ⟨hp, hq⟩
    · exact ho
    · cases o with
      | session conn =>
        cases o' with
        | session conn' =>
          obtain ⟨ss, hl, hc⟩ := hp conn rfl
          obtain ⟨ss', hl', hc'⟩ := hq conn' rfl
          have hkey : ∀ {g : Int} {x : ClientSession}, s.sessions.lookup g = some x → g = f := fun hg => by
            have hmem := AList.mem_keys.mp (AList.lookup_isSome.mp (by rw [hg]; rfl))
            rw [hs] at hmem
            exact List.mem_singleton.mp hmem
          rw [hkey hl] at hl
          rw [hkey hl'] at hl'
          rw [← hc, ← hc', Option.some.inj (hl.symm.trans hl')]
        | _ => simp only [slot] at heq; omega
      | _ => cases o' <;> simp only [slot] at heq <;> first | rfl | omega
  subst hsame
  cases o <;> simp only [slot] at heq <;> exact congrArg (Ptr.mk _) (by omega)

/-- a single-shot connection ends while its other receives are outstanding, and its number is handed out again -/
def reusedRun : List Act :=
  [.post 0 (.plain 7), .sweep 0, .reap, .cqe 0 (some (false, 10)), .submit, .post 0 (.plain 0), .sweep 0, .reap,
    .cqe 0 none, .submit, .post 1 (.plain 7), .sweep 0, .reap, .cqe 0 (some (false, 10)), .submit]

def singleShotSetup : Setup := worker { mode := .server, multishotRecv := false, inFlight := 2 }

end Server
end UringPerf
