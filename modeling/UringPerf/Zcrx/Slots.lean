import UringPerf.Zcrx.Conns

/-!
# The submission slots of the zero-copy server

`run_server_zcrx` makes its submission queue as large as its completion queue.  A starved receive is queued again
with one call, a new connection takes two, and the queue is submitted only before the next batch.

* `Batch`, `slotStep`    the loop with a completion queue of `n` entries and at most `m` connections at a time;
* `calls`                how many entries have been asked for since the last submit;
* `Inv.armed_le`         one receive for each connection, and one accept;
* `Idle`                 `k` connections are receiving and both queues are empty;
* `overrun`              a full batch asks for one entry more than there are;
* `slots_iff`            the entries suffice in every run exactly if there are always fewer than `n` connections.
-/

namespace UringPerf
namespace Zcrx
namespace Packed
open Uring

/-! ## a completion queue of bounded size -/

/-- `count`: the completions of the batch that have been processed; `io_uring_cq_advance` has not released them -/
structure Batch where
  st : St
  count : Nat

def counted : Act → Nat → Nat
  | .cqe, count => count + 1
  | .advance, _ => 0
  | _, count => count

def hasRoom (n : Nat) (s : Batch) : Act → Bool
  | .post _ _ => decide (s.count + s.st.ring.cq.length < n)
  | _ => true

def slotStep (listenFd : Int) (n m : Nat) (s : Batch) (a : Act × UInt64) : Option Batch :=
  if hasRoom n s a.1 then
    (step listenFd s.st a).bind fun t => if t.conns.keys.length ≤ m then some ⟨t, counted a.1 s.count⟩ else none
  else none

def boot (n : Nat) (rq : RefillQueue) : Batch := ⟨start n rq, 0⟩

/-- the calls of `zcrx_submit_accept` and `zcrx_submit_recv` since the last submit, if none was refused before it -/
def calls (p : St) : Nat := p.ring.sq.length + p.ring.nulls

section
variable {listenFd : Int} {n m : Nat} {s t : Batch} {p p' : St} {a : Act × UInt64} {addr : UInt64}

theorem slotStep_some (h : slotStep listenFd n m s a = some t) :
    step listenFd s.st a = some t.st ∧ t.st.conns.keys.length ≤ m := by
  unfold slotStep at h
  split at h
  · obtain ⟨u, hu, h⟩ := Option.bind_eq_some_iff.mp h
    split at h
    · next hm =>
      cases h
      exact ⟨hu, hm⟩
    · cases h
  · cases h

theorem slotStep_ok (hroom : hasRoom n s a.1 = true) (h : step listenFd s.st a = some p)
    (hm : p.conns.keys.length ≤ m) : slotStep listenFd n m s a = some ⟨p, counted a.1 s.count⟩ := by
  unfold slotStep
  rw [if_pos hroom, h, Option.bind_some, if_pos hm]

theorem calls_pushAll (r : IoRing Sqe) (ops : List Sqe) :
    (r.pushAll ops).sq.length + (r.pushAll ops).nulls = r.sq.length + r.nulls + ops.length := by
  have hle := r.sq_le
  obtain ⟨h1, h2⟩ := IoRing.pushAll_sq r ops
  rw [h1, h2, List.length_append, List.length_take]
  omega

/-! ## enough slots -/

/-- an entry is an accept or a receive -/
theorem length_split (l : List Sqe) :
    l.length = l.countP (fun o => accKey o = some ()) + (l.filterMap rxKey).length := by
  induction l with
  | nil => rfl
  | cons o l ih =>
    rw [List.length_cons, List.countP_cons, ih]
    cases ho : o.op with
    | accept =>
      have h1 : accKey o = some () := if_pos ho
      have h2 : rxKey o = none := by unfold rxKey; rw [ho]
      rw [List.filterMap_cons_none h2, h1, if_pos (decide_eq_true rfl)]
      omega
    | recv conn =>
      have h1 : accKey o = none := if_neg (by rw [ho]; exact Op.noConfusion)
      have h2 : rxKey o = some conn := by unfold rxKey; rw [ho]
      rw [List.filterMap_cons_some h2, h1, List.length_cons, if_neg (by simp)]
      omega

/-- **One receive for each connection, and one accept.** -/
theorem Inv.armed_le (h : Inv p) : (p.ring.armed Sqe.kind).length ≤ p.conns.keys.length + 1 := by
  have hacc : (p.ring.armed Sqe.kind).countP (fun o => accKey o = some ()) ≤ 1 := h.acc.once ()
  have hnodup : ((p.ring.armed Sqe.kind).filterMap rxKey).Nodup := by
    refine List.nodup_iff_count_le_one.mpr fun k => ?_
    rw [List.count_filterMap]
    refine le_trans (Nat.le_of_eq (List.countP_congr fun o _ => ?_)) (h.rx.once k)
    rw [beq_iff_eq, decide_eq_true_eq]
  have hsub : (p.ring.armed Sqe.kind).filterMap rxKey ⊆ p.conns.keys.map fun f => ⟨f, p.gen f⟩ := by
    intro k hk
    obtain ⟨o, ho, hok⟩ := List.mem_filterMap.mp hk
    cases h.ops o (IoRing.armed_outstanding ho) with
    | accept e =>
      rw [e] at hok
      cases hok
    | rx conn hc e =>
      rw [e, rxKey_rxSqe] at hok
      cases hok
      exact List.mem_map.mpr ⟨conn.fd, AList.lookup_isSome.mp (by rw [hc]; rfl), rfl⟩
  have hlen := (List.subperm_of_subset hnodup hsub).length_le
  rw [List.length_map] at hlen
  rw [length_split]
  omega

/-- the entry whose closing completion is processed is not in the queue any more -/
theorem Inv.sq_le (h : Inv p) {c : Cqe Sqe} {cs : List (Cqe Sqe)} (hcq : p.ring.cq = c :: cs)
    (hclose : c.op.kind.closes c.toCompletion = true) : p.ring.sq.length ≤ p.conns.keys.length := by
  have harm := h.armed_le
  unfold IoRing.armed at harm
  rw [hcq, List.flatMap_cons, Cqe.armed, if_pos hclose] at harm
  simp only [List.length_append, List.length_cons, List.length_nil] at harm
  omega

theorem length_reaccept (p : St) : (reaccept p).length ≤ 1 := by
  unfold reaccept
  split
  · exact Nat.zero_le 1
  · exact Nat.le_refl 1

/-- outside the loop body nothing is queued -/
theorem step_nulls (hne : a.1 ≠ .cqe) (h : step listenFd p a = some p') :
    p'.ring.nulls = p.ring.nulls ∧ p'.ring.cap = p.ring.cap := by
  obtain ⟨a, addr⟩ := a
  cases a with
  | cqe => exact absurd rfl hne
  | wait =>
    simp only [step] at h
    split at h
    · cases h
      exact ⟨IoRing.submit_nulls _, IoRing.submit_cap _⟩
    · cases h
  | abort | advance | refill =>
    simp only [step] at h
    split at h
    · cases h <;> exact ⟨rfl, rfl⟩
    · cases h <;> exact ⟨rfl, rfl⟩
  | signal =>
    simp only [step] at h
    split at h
    · cases h
    · cases h
      exact ⟨rfl, rfl⟩
  | finish =>
    simp only [step] at h
    split at h
    · obtain ⟨o, ho⟩ := foldl_close p.conns.entries p
      rw [ho] at h
      cases h
      exact ⟨rfl, rfl⟩
    · cases h
  | post i d =>
    simp only [step] at h
    split at h
    · cases h
    · unfold kernelPost at h
      split at h
      · next q r hq hr =>
        obtain ⟨_, _, -, -, -, -, -, -, hcap, -, hn⟩ := IoRing.post_some hr
        split at h
        · split at h
          · cases h
            exact ⟨hn, hcap⟩
          · cases h
        · cases h
          exact ⟨hn, hcap⟩
      · cases h

/-- **The loop body finds its slots**, if the table it leaves has fewer entries than the queue. -/
theorem Inv.cqe_nulls (h : Inv p) (hst : step listenFd p (.cqe, addr) = some p')
    (hm : p'.conns.keys.length < p.ring.cap) : p'.ring.nulls = p.ring.nulls ∧ p'.ring.cap = p.ring.cap := by
  obtain ⟨hb, c, cs, hcq, hc⟩ := h.step_cqe hst
  have hpc : p.pc ≠ .done := by
    rw [hb]
    exact Pc.noConfusion
  -- what is pushed fits: the completed entry has left the queue
  have hfits : ∀ ops : List Sqe, p.ring.sq.length + ops.length ≤ p.ring.cap →
      (p.ring.seen.pushAll ops).nulls = p.ring.nulls ∧ (p.ring.seen.pushAll ops).cap = p.ring.cap :=
    fun ops hle => ⟨(IoRing.pushAll_fits p.ring.seen ops hle).2, IoRing.pushAll_cap _ _⟩
  have hre := length_reaccept p
  cases hc with
  | failed hop hr =>
    have hsq := h.sq_le hcq (closes_accept hop ()).2
    replace hm : p.conns.keys.length < p.ring.cap := hm
    exact hfits _ (by omega)
  | opened hop hr hf =>
    have hsq := h.sq_le hcq (closes_accept hop ()).2
    have hkeys := AList.keys_insert_new (AList.lookup_eq_none.mp (h.accepted_new hpc hcq hop hr))
      (⟨addr, c.res⟩ : ZcrxConn)
    replace hm : (p.conns.insert c.res ⟨addr, c.res⟩).keys.length < p.ring.cap := hm
    rw [hkeys, List.length_cons] at hm
    refine hfits _ ?_
    rw [List.length_cons]
    omega
  | starved conn hc hop hmore hs =>
    have hsq := h.sq_le hcq ((closes_rx hop _).mpr ⟨rfl, hmore⟩).2
    replace hm : p.conns.keys.length < p.ring.cap := hm
    refine hfits _ ?_
    rw [List.length_singleton]
    omega
  | final | data | empty => exact ⟨rfl, rfl⟩

/-- nothing has been refused -/
structure Served (n : Nat) (s : Batch) : Prop where
  inv : Inv s.st
  nulls : s.st.ring.nulls = 0
  cap : s.st.ring.cap = n

/-- in a run with at most `m` connections -/
theorem served_step (hmn : m < n) (s : Batch) (a : Act × UInt64) (t : Batch) (h : Served n s)
    (hst : slotStep listenFd n m s a = some t) : Served n t := by
  obtain ⟨hi, h0, hcap⟩ := h
  obtain ⟨hst, hm⟩ := slotStep_some hst
  obtain ⟨a, addr⟩ := a
  have hkeep : t.st.ring.nulls = s.st.ring.nulls ∧ t.st.ring.cap = s.st.ring.cap := by
    by_cases ha : a = .cqe
    · subst ha
      exact hi.cqe_nulls hst (by omega)
    · exact step_nulls ha hst
  exact ⟨inv_step _ _ _ hi hst, hkeep.1.trans h0, hkeep.2.trans hcap⟩

theorem served_start (hn : 1 ≤ n) (rq : RefillQueue) : Served n (boot n rq) := by
  have hring : (boot n rq).st.ring = ((IoRing.init n false).pushAll [acceptSqe]).submit := rfl
  refine ⟨inv_start n rq, ?_, ?_⟩
  · rw [hring, IoRing.submit_nulls]
    exact (IoRing.pushAll_fits (IoRing.init n false) [acceptSqe] hn).2
  · rw [hring, IoRing.submit_cap, IoRing.pushAll_cap]
    rfl

theorem slot_inv (h : Inv s.st) (hr : Trans.Reach (slotStep listenFd n m) s t) : Inv t.st :=
  hr.inv (I := fun s => Inv s.st) h fun _ _ _ hi hst => inv_step _ _ _ hi (slotStep_some hst).1

/-! ## a batch that needs too many -/

/-- an accept completes with the descriptor `f` -/
theorem step_arrive (listenFd : Int) (hpc : p.pc = .batch) {i : Nat}
    (hk : p.ring.kern[i]? = some ⟨acceptSqe, false⟩) {f : Int} (hf : 0 ≤ f) (hopen : p.isOpen f = false) (hl : f ≠ listenFd) :
    ∃ r, step listenFd p (.post i (.plain f), 0) = some { p with
        ring := r, gen := Function.update p.gen f (p.gen f + 1), isOpen := Function.update p.isOpen f true } ∧
      r.kern = p.ring.kern.eraseIdx i ∧ r.cq = p.ring.cq ++ [⟨.plain f, acceptSqe⟩] ∧ r.sq = p.ring.sq ∧
      r.cap = p.ring.cap ∧ r.sqpoll = p.ring.sqpoll ∧ r.nulls = p.ring.nulls := by
  obtain ⟨r, hr, hrest⟩ := IoRing.post_ok Sqe.kind (.plain f) hk rfl rfl
  refine ⟨r, ?_, hrest⟩
  have hnd : p.pc ≠ .done := by
    rw [hpc]
    exact Pc.noConfusion
  simp only [step, kernelPost, hk, hr]
  rw [if_neg hnd, if_pos ⟨rfl, hf⟩, if_pos ⟨hopen, hl⟩]
  rfl

/-- a receive runs out of buffers -/
theorem step_starve (listenFd : Int) (hpc : p.pc = .batch) {i : Nat} {q : Pending Sqe} (hk : p.ring.kern[i]? = some q)
    (hq : q.op.op ≠ .accept) (hw : q.waiting = false) :
    ∃ r, step listenFd p (.post i (.plain (-ENOSPC)), 0) = some { p with ring := r } ∧
      r.kern = p.ring.kern.eraseIdx i ∧ r.cq = p.ring.cq ++ [⟨.plain (-ENOSPC), q.op⟩] ∧ r.sq = p.ring.sq ∧
      r.cap = p.ring.cap ∧ r.sqpoll = p.ring.sqpoll ∧ r.nulls = p.ring.nulls := by
  have hkind : Sqe.kind q.op = .multishot := by
    unfold Sqe.kind
    cases ho : q.op.op with
    | accept => exact absurd ho hq
    | recv conn => rfl
  obtain ⟨r, hr, hrest⟩ := IoRing.post_ok Sqe.kind (.plain (-ENOSPC)) hk (by rw [hkind, hw]; rfl)
    (by rw [hkind]; rfl)
  refine ⟨r, ?_, hrest⟩
  have hnd : p.pc ≠ .done := by
    rw [hpc]
    exact Pc.noConfusion
  simp only [step, kernelPost, hk, hr]
  rw [if_neg hnd, if_neg fun h => hq h.1]

theorem step_head (listenFd : Int) (addr : UInt64) (hpc : p.pc = .batch) {c : Cqe Sqe} {cs : List (Cqe Sqe)}
    (hcq : p.ring.cq = c :: cs) (hf : allocates c = true → fresh p addr) : ∃ p', step listenFd p (.cqe, addr) = some p' := by
  simp only [step, hpc, hcq]
  rw [if_pos hf]
  exact ⟨_, rfl⟩

/-- the new connection is entered, and two entries are asked for -/
theorem Inv.take_accept (h : Inv p) (listenFd : Int) (hpc : p.pc = .batch) (hstop : p.stop = false) {f : Int} (hf : 0 ≤ f)
    {cs : List (Cqe Sqe)} (hcq : p.ring.cq = ⟨.plain f, acceptSqe⟩ :: cs) (hfresh : fresh p addr) :
    step listenFd p (.cqe, addr) = some { p with
      ring := p.ring.seen.pushAll [rxSqe p.gen ⟨addr, f⟩, acceptSqe]
      conns := p.conns.insert f ⟨addr, f⟩
      accepted := p.accepted ++ [⟨f, p.gen f⟩] } := by
  obtain ⟨p', hp'⟩ := step_head listenFd addr hpc hcq fun _ => hfresh
  obtain ⟨-, c, cs', hcq', hc⟩ := h.step_cqe hp'
  rw [hcq] at hcq'
  cases hcq'
  rw [hp']
  cases hc with
  | opened hop hr hf' =>
    have hre : reaccept p = [acceptSqe] := by
      unfold reaccept
      rw [hstop]
      rfl
    rw [hre]
    rfl
  | failed hop hr => exact absurd hf hr
  | starved conn hc hop | final conn hc hop | data conn hc hop | empty conn hc hop => cases hop

/-- a starved receive is queued again -/
theorem Inv.take_starved (h : Inv p) (listenFd : Int) (hpc : p.pc = .batch) {c : Cqe Sqe} {cs : List (Cqe Sqe)}
    (hcq : p.ring.cq = c :: cs) (hop : c.op.op ≠ .accept) (hc : c.toCompletion = .plain (-ENOSPC)) :
    ∃ o, step listenFd p (.cqe, 0) = some { p with ring := p.ring.seen.pushAll [o] } := by
  have hmore : c.more = false := congrArg Completion.more hc
  have hres : c.res = -ENOSPC := congrArg Completion.res hc
  have hneg : ¬ 0 ≤ c.res := by
    rw [hres]
    decide
  obtain ⟨p', hp'⟩ := step_head listenFd 0 hpc hcq fun ha => by
    unfold allocates at ha
    rw [decide_eq_false hneg, Bool.and_false] at ha
    cases ha
  obtain ⟨-, d, cs', hcq', hd⟩ := h.step_cqe hp'
  rw [hcq] at hcq'
  cases hcq'
  rw [hp']
  cases hd with
  | failed hop' | opened hop' => exact absurd (congrArg Sqe.op hop') hop
  | starved conn hl hop' hm hs => exact ⟨_, rfl⟩
  | final conn hl hop' hm hs =>
    rw [hres] at hs
    exact absurd hs (by decide)
  | data conn hl hop' hm | empty conn hl hop' hm =>
    rw [hmore] at hm
    cases hm

/-- completions of receives that have run out of buffers -/
def Starved (cs : List (Cqe Sqe)) : Prop := ∀ c ∈ cs, c.op.op ≠ .accept ∧ c.toCompletion = .plain (-ENOSPC)

/-- all receives `qs` run out of buffers, one after the other -/
theorem starve_all (listenFd : Int) (qs : List (Pending Sqe)) : ∀ (s : Batch) (rest : List (Pending Sqe)),
    s.st.pc = .batch → s.st.ring.kern = qs ++ rest → (∀ q ∈ qs, q.op.op ≠ .accept ∧ q.waiting = false) →
    s.count + s.st.ring.cq.length + qs.length ≤ n → s.st.conns.keys.length ≤ m →
    ∃ r cs, Trans.Reach (slotStep listenFd n m) s ⟨{ s.st with ring := r }, s.count⟩ ∧ r.kern = rest ∧
      r.cq = s.st.ring.cq ++ cs ∧ cs.length = qs.length ∧ Starved cs ∧ r.sq = s.st.ring.sq ∧
      r.nulls = s.st.ring.nulls := by
  induction qs with
  | nil =>
    intro s rest _ hk _ _ _
    exact ⟨s.st.ring, [], .refl, hk, (List.append_nil _).symm, rfl, fun c hc => absurd hc List.not_mem_nil, rfl, rfl⟩
  | cons q qs ih =>
    intro s rest hpc hk hqs hroom hm
    rw [List.length_cons] at hroom
    have hq := hqs q List.mem_cons_self
    have hk0 : s.st.ring.kern[0]? = some q := by
      rw [hk]
      rfl
    obtain ⟨r, hr, hkern, hcq, hsq, -, -, hnulls⟩ := step_starve listenFd hpc hk0 hq.1 hq.2
    have hfree : hasRoom n s (.post 0 (.plain (-ENOSPC))) = true := decide_eq_true (by omega)
    have hst := slotStep_ok (m := m) hfree hr hm
    rw [hk] at hkern
    obtain ⟨r', cs, hreach, hkern', hcq', hlen, hcs, hsq', hnulls'⟩ := ih ⟨{ s.st with ring := r }, s.count⟩ rest hpc
      hkern (fun q' hq' => hqs q' (List.mem_cons_of_mem q hq')) (by
        show s.count + r.cq.length + qs.length ≤ n
        rw [hcq, List.length_append, List.length_singleton]
        omega) hm
    refine ⟨r', ⟨.plain (-ENOSPC), q.op⟩ :: cs, Trans.Reach.trans (Trans.Reach.refl.tail hst) hreach, hkern', ?_, ?_, ?_,
      hsq'.trans hsq, hnulls'.trans hnulls⟩
    · rw [hcq']
      show r.cq ++ cs = _
      rw [hcq, List.append_assoc, List.singleton_append]
    · rw [List.length_cons, hlen, List.length_cons]
    · intro c hc
      rcases List.mem_cons.mp hc with rfl | hc
      · exact ⟨hq.1, rfl⟩
      · exact hcs c hc

/-- processing them asks for as many entries -/
theorem take_all (listenFd : Int) (cs : List (Cqe Sqe)) : ∀ (s : Batch) (rest : List (Cqe Sqe)), Inv s.st → s.st.pc = .batch →
    s.st.ring.cq = cs ++ rest → Starved cs → s.st.conns.keys.length ≤ m →
    ∃ r count, Trans.Reach (slotStep listenFd n m) s ⟨{ s.st with ring := r }, count⟩ ∧ Inv { s.st with ring := r } ∧
      r.cq = rest ∧ r.sq.length + r.nulls = calls s.st + cs.length := by
  induction cs with
  | nil =>
    intro s rest hi _ hcq _ _
    exact ⟨s.st.ring, s.count, .refl, hi, hcq, rfl⟩
  | cons c cs ih =>
    intro s rest hi hpc hcq hcs hm
    have hc := hcs c List.mem_cons_self
    obtain ⟨o, ho⟩ := hi.take_starved listenFd hpc hcq hc.1 hc.2
    have hst := slotStep_ok (m := m) (n := n) (s := s) rfl ho hm
    have hcq' : (s.st.ring.seen.pushAll [o]).cq = cs ++ rest := by
      rw [IoRing.pushAll_cq]
      show s.st.ring.cq.tail = _
      rw [hcq]
      rfl
    obtain ⟨r, count, hreach, hi', hrest, hcalls⟩ := ih ⟨{ s.st with ring := s.st.ring.seen.pushAll [o] }, s.count + 1⟩
      rest (inv_step _ _ _ hi ho) hpc hcq' (fun d hd => hcs d (List.mem_cons_of_mem c hd)) hm
    refine ⟨r, count, Trans.Reach.trans (Trans.Reach.refl.tail hst) hreach, hi', hrest, ?_⟩
    replace hcalls : _ = (s.st.ring.seen.pushAll [o]).sq.length + (s.st.ring.seen.pushAll [o]).nulls + cs.length := hcalls
    rw [calls_pushAll, List.length_singleton] at hcalls
    rw [hcalls, List.length_cons]
    show s.st.ring.sq.length + s.st.ring.nulls + 1 + cs.length = s.st.ring.sq.length + s.st.ring.nulls + (cs.length + 1)
    omega

def nextFd (listenFd : Int) (k : Nat) : Int := listenFd.natAbs + k + 1

def nextAddr (k : Nat) : UInt64 := UInt64.ofNat (8 * (k + 1))

theorem nextFd_ne (listenFd : Int) (k : Nat) : nextFd listenFd k ≠ listenFd := by
  unfold nextFd
  omega

theorem nextFd_nonneg (listenFd : Int) (k : Nat) : 0 ≤ nextFd listenFd k := by
  unfold nextFd
  omega

theorem toNat_nextAddr {k : Nat} (hk : k < 2^32) : (nextAddr k).toNat = 8 * (k + 1) :=
  UInt64.toNat_ofNat_of_lt' (show 8 * (k + 1) < 2^64 by omega)

theorem nextAddr_aligned {k : Nat} (hk : k < 2^32) : nextAddr k &&& kZcrxReqTypeMask = 0 := by
  apply UInt64.toNat_inj.mp
  have hmask : kZcrxReqTypeMask.toNat = 2^3 - 1 := rfl
  rw [UInt64.toNat_and, toNat_nextAddr hk, hmask, Nat.and_two_pow_sub_one_eq_mod]
  exact Nat.mul_mod_right 8 (k + 1)

/-- `j` connections have arrived, and `k` of them are in the table; the next descriptor and address are free -/
structure Grown (listenFd : Int) (j k : Nat) (p : St) : Prop where
  inv : Inv p
  pc : p.pc = .batch
  stop : p.stop = false
  keys : p.conns.keys.length = k
  fds : ∀ f, p.isOpen f = true → f ≤ listenFd.natAbs + j
  addrs : ∀ f z, p.conns.lookup f = some z → z.addr.toNat ≤ 8 * k

section
variable {j k : Nat}

theorem Grown.ring (h : Grown listenFd j k p) {r : IoRing Sqe} (hi : Inv { p with ring := r }) :
    Grown listenFd j k { p with ring := r } := ⟨hi, h.pc, h.stop, h.keys, h.fds, h.addrs⟩

theorem Grown.closed (h : Grown listenFd j k p) : p.isOpen (nextFd listenFd j) = false := by
  cases ho : p.isOpen (nextFd listenFd j) with
  | false => rfl
  | true =>
    have := h.fds _ ho
    unfold nextFd at this
    omega

theorem Grown.fresh (h : Grown listenFd j k p) (hk : k < 2^32) : fresh p (nextAddr k) := by
  refine ⟨nextAddr_aligned hk, List.all_eq_true.mpr fun e he => ?_⟩
  have hle := h.addrs e.1 e.2 (AList.mem_lookup_iff.mpr he)
  rw [bne_iff_ne]
  intro ha
  rw [ha, toNat_nextAddr hk] at hle
  omega

/-- the next connection arrives -/
theorem Grown.arrive (h : Grown listenFd j k s.st) {i : Nat} (hk : s.st.ring.kern[i]? = some ⟨acceptSqe, false⟩)
    (hroom : s.count + s.st.ring.cq.length < n) (hm : k ≤ m) :
    ∃ t, slotStep listenFd n m s (.post i (.plain (nextFd listenFd j)), 0) = some t ∧ t.count = s.count ∧
      Grown listenFd (j + 1) k t.st ∧ t.st.ring.kern = s.st.ring.kern.eraseIdx i ∧
      t.st.ring.cq = s.st.ring.cq ++ [⟨.plain (nextFd listenFd j), acceptSqe⟩] ∧ t.st.ring.sq = s.st.ring.sq ∧
      t.st.ring.cap = s.st.ring.cap ∧ t.st.ring.sqpoll = s.st.ring.sqpoll ∧ t.st.ring.nulls = s.st.ring.nulls := by
  obtain ⟨r, hr, hrest⟩ := step_arrive listenFd h.pc hk (nextFd_nonneg listenFd j) h.closed (nextFd_ne listenFd j)
  have hfree : hasRoom n s (.post i (.plain (nextFd listenFd j))) = true := decide_eq_true hroom
  have hst := slotStep_ok hfree hr (le_of_eq_of_le h.keys hm)
  refine ⟨_, hst, rfl, ⟨inv_step _ _ _ h.inv hr, h.pc, h.stop, h.keys, fun f hf => ?_, h.addrs⟩, hrest⟩
  replace hf : Function.update s.st.isOpen (nextFd listenFd j) true f = true := hf
  rw [Function.update_apply] at hf
  split at hf
  · next e =>
    rw [e]
    unfold nextFd
    omega
  · have := h.fds f hf
    omega

/-- it is entered into the table -/
theorem Grown.take (h : Grown listenFd j k s.st) {f : Int} (hf : 0 ≤ f) {cs : List (Cqe Sqe)}
    (hcq : s.st.ring.cq = ⟨.plain f, acceptSqe⟩ :: cs) (hm : k + 1 ≤ m) (hk : k < 2^32) :
    ∃ t o, slotStep listenFd n m s (.cqe, nextAddr k) = some t ∧ Grown listenFd j (k + 1) t.st ∧ o.op ≠ .accept ∧
      t.st.ring = s.st.ring.seen.pushAll [o, acceptSqe] := by
  have hst := h.inv.take_accept listenFd h.pc h.stop hf hcq (h.fresh hk)
  have hnew : s.st.conns.lookup f = none :=
    h.inv.accepted_new (by rw [h.pc]; exact Pc.noConfusion) hcq rfl hf
  have hkeys : (s.st.conns.insert f ⟨nextAddr k, f⟩).keys.length = k + 1 := by
    rw [AList.keys_insert_new (AList.lookup_eq_none.mp hnew), List.length_cons, h.keys]
  have hok := slotStep_ok (m := m) (n := n) (s := s) rfl hst (le_of_eq_of_le hkeys hm)
  refine ⟨_, rxSqe s.st.gen ⟨nextAddr k, f⟩, hok, ⟨inv_step _ _ _ h.inv hst, h.pc, h.stop, hkeys, h.fds, ?_⟩,
    Op.noConfusion, rfl⟩
  intro g z hz
  replace hz : (s.st.conns.insert f ⟨nextAddr k, f⟩).lookup g = some z := hz
  rw [AList.lookup_insert_eq] at hz
  split at hz
  · cases hz
    exact Nat.le_of_eq (toNat_nextAddr hk)
  · have := h.addrs g z hz
    omega

/-- `k` connections are receiving, nothing is queued and nothing has been completed -/
structure Idle (listenFd : Int) (n k : Nat) (s : Batch) : Prop where
  grown : Grown listenFd k k s.st
  count : s.count = 0
  cap : s.st.ring.cap = n
  sqpoll : s.st.ring.sqpoll = false
  sq : s.st.ring.sq = []
  cq : s.st.ring.cq = []
  nulls : s.st.ring.nulls = 0
  kern : ∃ qs : List (Pending Sqe), s.st.ring.kern = qs ++ [⟨acceptSqe, false⟩] ∧ qs.length = k ∧
    ∀ q ∈ qs, q.op.op ≠ .accept ∧ q.waiting = false

/-- the entries queued in a batch are submitted by the next wait -/
theorem next_batch (listenFd : Int) (n : Nat) (hpc : s.st.pc = .batch) (hstop : s.st.stop = false) (hcq : s.st.ring.cq = [])
    (hm : s.st.conns.keys.length ≤ m) : Trans.Reach (slotStep listenFd n m) s
      ⟨{ s.st with ring := s.st.ring.submit, pc := .batch }, 0⟩ := by
  have h1 : step listenFd s.st (.advance, 0) = some { s.st with pc := .head } := if_pos ⟨hpc, hcq⟩
  have h2 : step listenFd { s.st with pc := .head } (.wait, 0) =
      some { s.st with ring := s.st.ring.submit, pc := .batch } := if_pos ⟨rfl, hstop⟩
  have e1 := slotStep_ok (m := m) (n := n) (s := s) rfl h1 hm
  have e2 := slotStep_ok (m := m) (n := n) (s := ⟨{ s.st with pc := .head }, 0⟩) rfl h2 hm
  exact (Trans.Reach.refl.tail e1).tail e2

/-- the first wait -/
theorem idle_start (hn : 1 ≤ n) (rq : RefillQueue) :
    ∃ s, Trans.Reach (slotStep listenFd n m) (boot n rq) s ∧ Idle listenFd n 0 s := by
  obtain ⟨hi, hnulls, hcap⟩ := served_start hn rq
  have hring : (boot n rq).st.ring = ((IoRing.init n false).pushAll [acceptSqe]).submit := rfl
  have hst : step listenFd (boot n rq).st (.wait, 0) =
      some { (boot n rq).st with ring := (boot n rq).st.ring.submit, pc := .batch } := rfl
  have hpush := (IoRing.pushAll_fits (IoRing.init n false) [acceptSqe] hn).1
  have hoff : ((IoRing.init n false : IoRing Sqe).pushAll [acceptSqe]).sqpoll = false := IoRing.pushAll_sqpoll _ _
  obtain ⟨hsq, hkern⟩ := IoRing.submit_off _ hoff
  rw [hpush, IoRing.pushAll_kern, ← hring] at hkern
  rw [← hring] at hsq
  have hcq : (boot n rq).st.ring.cq = [] := by
    rw [hring, IoRing.submit_cq, IoRing.pushAll_cq]
    rfl
  have hoff' : (boot n rq).st.ring.sqpoll = false := by
    rw [hring, IoRing.submit_sqpoll]
    exact hoff
  obtain ⟨hsq', hkern'⟩ := IoRing.submit_off _ hoff'
  rw [hsq, hkern] at hkern'
  have hgrown : Grown listenFd 0 0 { (boot n rq).st with ring := (boot n rq).st.ring.submit, pc := .batch } :=
    ⟨inv_step _ _ _ hi hst, rfl, rfl, rfl, fun f hf => Bool.noConfusion hf, fun f z hz => by cases hz⟩
  exact ⟨_, Trans.Reach.refl.tail (slotStep_ok (m := m) (n := n) (s := boot n rq) rfl hst (Nat.zero_le m)), hgrown, rfl,
    (IoRing.submit_cap _).trans hcap, (IoRing.submit_sqpoll _).trans hoff', hsq', (IoRing.submit_cq _).trans hcq,
    (IoRing.submit_nulls _).trans hnulls, [], hkern', rfl, fun q hq => absurd hq List.not_mem_nil⟩

/-- one more connection -/
theorem Idle.more (h : Idle listenFd n k s) (hn : 2 ≤ n) (hm : k + 1 ≤ m) (hk : k < 2^32) :
    ∃ t, Trans.Reach (slotStep listenFd n m) s t ∧ Idle listenFd n (k + 1) t := by
  obtain ⟨qs, hkern, hlen, hqs⟩ := h.kern
  have hacc : s.st.ring.kern[k]? = some ⟨acceptSqe, false⟩ := by
    rw [hkern, ← hlen, List.getElem?_append_right (Nat.le_refl _), Nat.sub_self]
    rfl
  have hroom : s.count + s.st.ring.cq.length < n := by
    rw [h.count, h.cq]
    exact Nat.lt_of_lt_of_le Nat.zero_lt_two hn
  obtain ⟨t, ht, -, hgrown, htk, htcq, htsq, htcap, htpoll, htnulls⟩ :=
    h.grown.arrive (m := m) hacc hroom (by omega)
  rw [h.cq, List.nil_append] at htcq
  have hrest : s.st.ring.kern.eraseIdx k = qs := by
    rw [hkern, ← hlen, List.eraseIdx_append_of_length_le (Nat.le_refl _), Nat.sub_self]
    exact List.append_nil qs
  rw [hrest] at htk
  obtain ⟨u, o, hu, hgrown', ho, huring⟩ := hgrown.take (n := n) (nextFd_nonneg listenFd k) htcq hm hk
  -- both entries fit, and the next wait submits them
  have hfits : t.st.ring.seen.sq.length + [o, acceptSqe].length ≤ t.st.ring.seen.cap := by
    show t.st.ring.sq.length + 2 ≤ t.st.ring.cap
    rw [htsq, h.sq, htcap, h.cap]
    exact hn
  obtain ⟨husq, hunulls⟩ := IoRing.pushAll_fits _ _ hfits
  rw [← huring] at husq hunulls
  replace husq : u.st.ring.sq = t.st.ring.sq ++ [o, acceptSqe] := husq
  rw [htsq, h.sq, List.nil_append] at husq
  have hukern : u.st.ring.kern = qs := by
    rw [huring, IoRing.pushAll_kern]
    exact htk
  have hucq : u.st.ring.cq = [] := by
    rw [huring, IoRing.pushAll_cq]
    show t.st.ring.cq.tail = []
    rw [htcq]
    rfl
  have hupoll : u.st.ring.sqpoll = false := by
    rw [huring, IoRing.pushAll_sqpoll]
    exact htpoll.trans h.sqpoll
  have hucap : u.st.ring.cap = n := by
    rw [huring, IoRing.pushAll_cap]
    exact htcap.trans h.cap
  have hreach : Trans.Reach (slotStep listenFd n m) s u := (Trans.Reach.refl.tail ht).tail hu
  have hnext := next_batch listenFd n hgrown'.pc hgrown'.stop hucq (le_of_eq_of_le hgrown'.keys hm)
  obtain ⟨hsq, hkern'⟩ := IoRing.submit_off _ hupoll
  rw [hukern, husq] at hkern'
  refine ⟨_, hreach.trans hnext, ?_, rfl, (IoRing.submit_cap _).trans hucap, (IoRing.submit_sqpoll _).trans hupoll, hsq,
    (IoRing.submit_cq _).trans hucq, ?_, qs ++ [⟨o, false⟩], ?_, ?_, fun q hq => ?_⟩
  · exact ⟨slot_inv hgrown'.inv hnext, rfl, hgrown'.stop, hgrown'.keys, hgrown'.fds, hgrown'.addrs⟩
  · exact (IoRing.submit_nulls _).trans (hunulls.trans (htnulls.trans h.nulls))
  · rw [List.append_assoc]
    exact hkern'
  · rw [List.length_append, List.length_singleton, hlen]
  · rcases List.mem_append.mp hq with hq | hq
    · exact hqs q hq
    · rw [List.mem_singleton.mp hq]
      exact ⟨ho, rfl⟩

theorem exists_idle (listenFd : Int) (rq : RefillQueue) (hm : n ≤ m) (hn : n < 2^32) : ∀ k, k < n →
    ∃ s, Trans.Reach (slotStep listenFd n m) (boot n rq) s ∧ Idle listenFd n k s := by
  intro k
  induction k with
  | zero => exact fun hk => idle_start hk rq
  | succ k ih =>
    intro hk
    obtain ⟨s, hs, hidle⟩ := ih (by omega)
    obtain ⟨t, ht, hidle'⟩ := hidle.more (m := m) (by omega) (by omega) (by omega)
    exact ⟨t, hs.trans ht, hidle'⟩

/-- **A batch that needs one entry too many**: with `n - 1` connections, all their receives run out of buffers while
a new connection arrives. -/
theorem overrun (listenFd : Int) (rq : RefillQueue) (hm : n ≤ m) (hn : n < 2^32) :
    ∃ s, Trans.Reach (slotStep listenFd n m) (boot n rq) s ∧ calls s.st = n + 1 := by
  cases n with
  | zero => exact ⟨boot 0 rq, .refl, rfl⟩
  | succ k =>
    obtain ⟨s, hs, h⟩ := exists_idle listenFd rq hm hn k (Nat.lt_succ_self k)
    obtain ⟨qs, hkern, hlen, hqs⟩ := h.kern
    have hle : s.count + s.st.ring.cq.length + qs.length = k := by
      rw [h.count, h.cq, hlen]
      exact Nat.zero_add k
    -- all completions are posted before the first of them is processed
    obtain ⟨r, cs, h1, hrk, hrcq, hcs, hstarved, hrsq, hrnulls⟩ := starve_all listenFd qs s
      [⟨acceptSqe, false⟩] h.grown.pc hkern hqs (n := k + 1) (m := m) (by omega) (by rw [h.grown.keys]; omega)
    rw [h.cq, List.nil_append] at hrcq
    have hi1 : Inv { s.st with ring := r } := slot_inv h.grown.inv h1
    have hgrown := h.grown.ring hi1
    obtain ⟨t, ht, -, hgrown', -, htcq, htsq, -, -, htnulls⟩ := hgrown.arrive (n := k + 1) (m := m)
      (s := ⟨{ s.st with ring := r }, s.count⟩) (i := 0) (by show r.kern[0]? = _; rw [hrk]; rfl)
      (by show s.count + r.cq.length < k + 1; rw [h.count, hrcq, hcs, hlen]; omega) (by omega)
    replace htcq : t.st.ring.cq = cs ++ [⟨.plain (nextFd listenFd k), acceptSqe⟩] := by
      rw [htcq, ← hrcq]
    have hcalls : calls t.st = 0 := by
      unfold calls
      rw [htsq, htnulls]
      show r.sq.length + r.nulls = 0
      rw [hrsq, h.sq, hrnulls, h.nulls]
      rfl
    obtain ⟨r', count, h2, hi, hcq, hadd⟩ := take_all listenFd (n := k + 1) cs t _ hgrown'.inv hgrown'.pc
      htcq hstarved (m := m) (by rw [hgrown'.keys]; omega)
    obtain ⟨u, o, hu, -, -, huring⟩ := (hgrown'.ring hi).take (n := k + 1) (m := m)
      (s := ⟨{ t.st with ring := r' }, count⟩) (nextFd_nonneg listenFd k) hcq (by omega) (by omega)
    refine ⟨u, ((hs.trans h1).trans (Trans.Reach.refl.tail ht)).trans (h2.tail hu), ?_⟩
    unfold calls
    rw [huring, calls_pushAll]
    show r'.sq.length + r'.nulls + 2 = _
    rw [hadd, hcalls, hcs, hlen]
    omega

end

end

/-- **The slots suffice in every run exactly if the table never has as many entries as the queue.**  `n` is the number of
entries of both queues, and `m` a bound for the number of connections at a time. -/
theorem slots_iff (listenFd : Int) (n : UInt32) (rq : RefillQueue) (m : Nat) :
    (∀ s, Trans.Reach (slotStep listenFd n.toNat m) (boot n.toNat rq) s →
      calls s.st ≤ n.toNat ∧ s.st.ring.nulls = 0) ↔ m < n.toNat := by
  constructor
  · intro h
    by_contra hlt
    obtain ⟨s, hs, hcalls⟩ := overrun listenFd rq (Nat.le_of_not_lt hlt) n.toNat_lt
    have := (h s hs).1
    omega
  · intro hlt s hs
    have hserved := hs.inv (served_start (Nat.zero_lt_of_lt hlt) rq) (served_step hlt)
    have hle := s.st.ring.sq_le
    unfold calls
    rw [hserved.nulls, ← hserved.cap]
    exact ⟨hle, rfl⟩

/-- an empty refill queue -/
def idleQueue : RefillQueue := ⟨0, 0, 0, 8, 0, fun _ => ⟨0, 0⟩⟩

/-- one connection is open; its receive runs out of buffers, and another connection arrives -/
def fullBatch : List (Act × UInt64) :=
  [(.wait, 0), (.post 0 (.plain 7), 0), (.cqe, 0x1000), (.advance, 0), (.wait, 0), (.post 0 (.plain (-28)), 0),
    (.post 0 (.plain 8), 0), (.cqe, 0), (.cqe, 0x2000)]

/-- two slots are not enough for it, and the default queue is too small for 8192 connections -/
theorem fullBatch_overrun : (∃ s, Trans.Reach (slotStep 3 2 2) (boot 2 idleQueue) s ∧ calls s.st = 3 ∧
      s.st.ring.nulls = 1 ∧ s.st.conns.keys.length = 2) ∧
    ∃ s, Trans.Reach (slotStep 3 ({} : Config).zcrxCqEntries 8192) (boot ({} : Config).zcrxCqEntries idleQueue) s ∧
      calls s.st = 8193 :=
  ⟨Trans.exists_reach fullBatch (by decide +kernel), overrun 3 idleQueue (by decide) (by decide)⟩

end Packed
end Zcrx
end UringPerf
