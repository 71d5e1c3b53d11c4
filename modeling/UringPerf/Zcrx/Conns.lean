import UringPerf.Base.Trace
import UringPerf.Zcrx.Packed

/-!
# The connection table of the zero-copy server

* `Decodes p o`     the `user_data` of an entry is the tag of the accept, or decodes to an object in the table;
* `Inv p`           the table, the packed pointers, the outstanding operations and the descriptors agree;
* `CqeStep`         what the loop body does with a completion whose `user_data` decodes;
* `inv_step`        every action keeps the invariant;
* `accepted_observed`   the accepted connections are those of the accept completions that have been processed;
* `conn_table`      what follows for the table, the pointers and the descriptors, in every reachable state.
-/

namespace UringPerf
namespace Zcrx
namespace Packed
open Uring

def accKey (o : Sqe) : Option Unit := if o.op = .accept then some () else none

def rxKey (o : Sqe) : Option Conn :=
  match o.op with
  | .accept => none
  | .recv conn => some conn

/-- the accept, or a receive of an object that is in the table under its own descriptor -/
inductive Decodes (p : St) (o : Sqe) : Prop where
  | accept (h : o = acceptSqe)
  | rx (conn : ZcrxConn) (hc : p.conns.lookup conn.fd = some conn) (h : o = rxSqe p.gen conn)

/-- the descriptors of accept completions that have not been processed -/
def pendFds (r : IoRing Sqe) : List Int :=
  r.cq.filterMap fun c => if c.op.op = .accept ∧ 0 ≤ c.res then some c.res else none

structure Inv (p : St) : Prop where
  table : ∀ f z, p.conns.lookup f = some z → z.fd = f ∧ z.addr &&& kZcrxReqTypeMask = 0
  addrs : ∀ f g z w, p.conns.lookup f = some z → p.conns.lookup g = some w → z.addr = w.addr → f = g
  ops : ∀ o ∈ p.ring.outstanding, Decodes p o
  acc : IoRing.Single Sqe.kind accKey p.ring
  rx : IoRing.Single Sqe.kind rxKey p.ring
  armed : p.ring.nulls = 0 → ∀ f ∈ p.conns.keys, p.ring.armedIn Sqe.kind rxKey ⟨f, p.gen f⟩ = 1
  waits : p.ring.nulls = 0 → p.stop = false → p.ring.armedIn Sqe.kind accKey () = 1
  ledger : p.pc ≠ .done →
    Ledger.Sound Conn.mk p.gen p.isOpen (pendFds p.ring) p.conns.keys p.accepted p.closed
  settled : p.pc = .done → p.closed.Perm p.accepted ∧ p.accepted.Nodup
  sound : p.fault = false

/-! ## the loop body -/

/-- what the server queues after an accept -/
def reaccept (p : St) : List Sqe := if p.stop then [] else [acceptSqe]

inductive CqeStep (p : St) (addr : UInt64) (c : Cqe Sqe) : St → Prop where
  | failed (hop : c.op = acceptSqe) (hr : ¬ 0 ≤ c.res) :
    CqeStep p addr c { p with ring := p.ring.seen.pushAll (reaccept p) }
  | opened (hop : c.op = acceptSqe) (hr : 0 ≤ c.res) (hf : fresh p addr) :
    CqeStep p addr c { p with
      ring := p.ring.seen.pushAll (rxSqe p.gen ⟨addr, c.res⟩ :: reaccept p)
      conns := p.conns.insert c.res ⟨addr, c.res⟩
      accepted := p.accepted ++ [⟨c.res, p.gen c.res⟩] }
  | starved (conn : ZcrxConn) (hc : p.conns.lookup conn.fd = some conn) (hop : c.op = rxSqe p.gen conn)
    (hm : c.more = false) (hs : isStarved c.res = true) :
    CqeStep p addr c { p with ring := p.ring.seen.pushAll [rxSqe p.gen conn] }
  | final (conn : ZcrxConn) (hc : p.conns.lookup conn.fd = some conn) (hop : c.op = rxSqe p.gen conn)
    (hm : c.more = false) (hs : isStarved c.res = false) :
    CqeStep p addr c { ({ p with stats := errorIfNeg p.stats c.res } : St).closeFd conn.fd with
      ring := p.ring.seen, conns := p.conns.erase conn.fd }
  | data (conn : ZcrxConn) (hc : p.conns.lookup conn.fd = some conn) (hop : c.op = rxSqe p.gen conn)
    (hm : c.more = true) (hr : 0 < c.res) :
    CqeStep p addr c { p with
      ring := p.ring.seen
      stats := countChunk p.stats c.res
      rq := p.rq.returnBuffer (offset c.toCompletion) c.res }
  | empty (conn : ZcrxConn) (hc : p.conns.lookup conn.fd = some conn) (hop : c.op = rxSqe p.gen conn)
    (hm : c.more = true) (hr : ¬ 0 < c.res) : CqeStep p addr c { p with ring := p.ring.seen }

section
variable {listenFd : Int} {p t : St} {addr : UInt64}

/-- an address leads back to its object -/
theorem Inv.deref (h : Inv p) {conn : ZcrxConn} (hc : p.conns.lookup conn.fd = some conn) :
    p.deref conn.addr = some conn := by
  unfold St.deref
  have hmem : (⟨conn.fd, conn⟩ : Sigma fun _ : Int => ZcrxConn) ∈ p.conns.entries := AList.mem_lookup_iff.mp hc
  cases hf : p.conns.entries.find? fun e => e.2.addr == conn.addr with
  | none =>
    have := List.find?_eq_none.mp hf _ hmem
    exact absurd (beq_self_eq_true _) this
  | some e =>
    obtain ⟨f, z⟩ := e
    have hz : p.conns.lookup f = some z := AList.mem_lookup_iff.mpr (List.mem_of_find?_eq_some hf)
    have ha : z.addr = conn.addr := by simpa using List.find?_some hf
    obtain rfl := h.addrs f conn.fd z conn hz hc ha
    rw [hc] at hz
    cases hz
    rfl

theorem allocates_iff {c : Cqe Sqe} (hop : c.op = acceptSqe) : allocates c = true ↔ 0 ≤ c.res := by
  unfold allocates
  rw [hop, tag_accept, beq_self_eq_true, Bool.true_and, decide_eq_true_eq]

/-- the tag sends an accept to its branch -/
theorem onCqe_accept {c : Cqe Sqe} (hop : c.op = acceptSqe) : onCqe p addr c = onAccept p addr c.res := by
  unfold onCqe
  rw [hop]
  exact if_pos tag_accept

/-- the tag sends a receive to its branch, and the address is recovered -/
theorem Inv.onCqe_rx (h : Inv p) (addr : UInt64) {c : Cqe Sqe} {conn : ZcrxConn} (hc : p.conns.lookup conn.fd = some conn)
    (hop : c.op = rxSqe p.gen conn) : onCqe p addr c = onRx p c.op.userData c.toCompletion ∧
      p.deref (c.op.userData &&& ~~~kZcrxReqTypeMask) = some conn := by
  have ha := (h.table _ _ hc).2
  have htag : c.op.userData &&& kZcrxReqTypeMask = kZcrxReqRx := by
    rw [hop]
    exact tag_rx ha
  constructor
  · unfold onCqe
    dsimp only
    rw [htag, if_neg rx_ne_accept, if_pos rfl]
  · have e : c.op.userData &&& ~~~kZcrxReqTypeMask = conn.addr := by
      rw [hop]
      exact addr_rx ha
    rw [e]
    exact h.deref hc

theorem step_accept {c : Cqe Sqe} (hop : c.op = acceptSqe) (hf : allocates c = true → fresh p addr) :
    CqeStep p addr c { onAccept p addr c.res with ring := (onAccept p addr c.res).ring.seen } := by
  by_cases hr : 0 ≤ c.res
  · have e : onAccept p addr c.res = { p with
        ring := p.ring.pushAll (rxSqe p.gen ⟨addr, c.res⟩ :: reaccept p)
        conns := p.conns.insert c.res ⟨addr, c.res⟩
        accepted := p.accepted ++ [⟨c.res, p.gen c.res⟩] } := by
      unfold onAccept reaccept
      rw [if_pos hr]
      show (if p.stop = true then _ else _) = _
      by_cases hst : p.stop = true
      · rw [if_pos hst, if_pos hst]
        rfl
      · rw [if_neg hst, if_neg hst]
        rfl
    rw [e]
    dsimp only
    rw [IoRing.pushAll_seen]
    exact CqeStep.opened hop hr (hf ((allocates_iff hop).mpr hr))
  · have e : onAccept p addr c.res = { p with ring := p.ring.pushAll (reaccept p) } := by
      unfold onAccept reaccept
      rw [if_neg hr]
      show (if p.stop = true then _ else _) = _
      by_cases hst : p.stop = true
      · rw [if_pos hst, if_pos hst]
        rfl
      · rw [if_neg hst, if_neg hst]
        rfl
    rw [e]
    dsimp only
    rw [IoRing.pushAll_seen]
    exact CqeStep.failed hop hr

theorem Inv.step_rx (h : Inv p) {c : Cqe Sqe} {conn : ZcrxConn} (hc : p.conns.lookup conn.fd = some conn)
    (hop : c.op = rxSqe p.gen conn) :
    CqeStep p addr c { onCqe p addr c with ring := (onCqe p addr c).ring.seen } := by
  obtain ⟨e, hd⟩ := h.onCqe_rx addr hc hop
  rw [e]
  unfold onRx
  by_cases hm : c.more = false
  · rw [if_pos hm, hd]
    dsimp only
    by_cases hs : isStarved c.res = true
    · rw [if_pos hs]
      show CqeStep p addr c { p with ring := (p.ring.pushAll [rxSqe p.gen conn]).seen }
      rw [IoRing.pushAll_seen]
      exact CqeStep.starved conn hc hop hm hs
    · rw [if_neg hs, hc]
      exact CqeStep.final conn hc hop hm (Bool.not_eq_true _ ▸ hs)
  · rw [if_neg hm]
    by_cases hr : 0 < c.res
    · rw [if_pos hr]
      exact CqeStep.data conn hc hop (Bool.not_eq_false _ ▸ hm) hr
    · rw [if_neg hr]
      exact CqeStep.empty conn hc hop (Bool.not_eq_false _ ▸ hm) hr

/-- **The loop body**, in a state that satisfies the invariant. -/
theorem Inv.step_cqe (h : Inv p) (hst : step listenFd p (.cqe, addr) = some t) :
    p.pc = .batch ∧ ∃ c cs, p.ring.cq = c :: cs ∧ CqeStep p addr c t := by
  simp only [step] at hst
  split at hst
  · next c cs hpc hcq =>
    split at hst
    · next hf =>
      cases hst
      refine ⟨hpc, c, cs, hcq, ?_⟩
      have hmem : c.op ∈ p.ring.outstanding := (IoRing.mem_outstanding_seen hcq).mpr (Or.inl rfl)
      cases h.ops _ hmem with
      | accept hop =>
        rw [onCqe_accept hop]
        exact step_accept hop hf
      | rx conn hc hop => exact h.step_rx hc hop
    · cases hst
  · cases hst

end

/-! ## parts of the invariant after a step -/

theorem no_zerocopy (o : Sqe) : o.kind ≠ .zerocopy := by
  unfold Sqe.kind
  cases o.op with
  | accept => exact Kind.noConfusion
  | recv conn => exact Kind.noConfusion

theorem rxKey_rxSqe (gen : Int → Nat) (conn : ZcrxConn) : rxKey (rxSqe gen conn) = some ⟨conn.fd, gen conn.fd⟩ := rfl

section
variable {p : St} {c : Cqe Sqe} {cs : List (Cqe Sqe)}

theorem pendFds_congr {r r' : IoRing Sqe} (h : r'.cq = r.cq) : pendFds r' = pendFds r :=
  IoRing.results_congr (fun c : Cqe Sqe => c.op.op = .accept ∧ 0 ≤ c.res) h

/-- only an accept with a descriptor was pending -/
theorem pendFds_seen {r : IoRing Sqe} (hcq : r.cq = c :: cs) : pendFds r =
    (if c.op.op = .accept ∧ 0 ≤ c.res then [c.res] else []) ++ pendFds r.seen :=
  IoRing.results_seen (fun c : Cqe Sqe => c.op.op = .accept ∧ 0 ≤ c.res) hcq

theorem pendFds_rx {conn : ZcrxConn} (hcq : p.ring.cq = c :: cs) (hop : c.op = rxSqe p.gen conn) :
    pendFds p.ring.seen = pendFds p.ring := by
  have hne : ¬ (c.op.op = .accept ∧ 0 ≤ c.res) := by
    rw [hop]
    exact fun h => Op.noConfusion h.1
  rw [pendFds_seen hcq, if_neg hne, List.nil_append]

/-- a posted completion may make a descriptor pending -/
theorem pendFds_post {r r' : IoRing Sqe} {i : Nat} {d : Completion} {q : Pending Sqe}
    (hq : r.kern[i]? = some q) (hr : r.post Sqe.kind i d = some r') :
    pendFds r' = pendFds r ++ if q.op.op = .accept ∧ 0 ≤ d.res then [d.res] else [] :=
  IoRing.results_post (fun c : Cqe Sqe => c.op.op = .accept ∧ 0 ≤ c.res) hq hr

theorem count_acc_reaccept (p : St) :
    (reaccept p).countP (fun o => accKey o = some ()) = if p.stop then 0 else 1 := by
  unfold reaccept
  cases p.stop <;> rfl

theorem count_rx_reaccept (p : St) (k : Conn) : (reaccept p).countP (fun o => rxKey o = some k) = 0 := by
  unfold reaccept
  cases p.stop <;> rfl

theorem count_rx (gen : Int → Nat) (conn : ZcrxConn) (ops : List Sqe) (k : Conn) :
    (rxSqe gen conn :: ops).countP (fun o => rxKey o = some k) =
      ops.countP (fun o => rxKey o = some k) + if k = ⟨conn.fd, gen conn.fd⟩ then 1 else 0 := by
  rw [List.countP_cons, rxKey_rxSqe]
  congr 1
  by_cases h : k = ⟨conn.fd, gen conn.fd⟩
  · simp [h]
  · simp [h, Ne.symm h]

theorem count_acc_rx (gen : Int → Nat) (conn : ZcrxConn) (ops : List Sqe) :
    (rxSqe gen conn :: ops).countP (fun o => accKey o = some ()) =
      ops.countP fun o => accKey o = some () := List.countP_cons_of_neg (by simp [accKey, rxSqe])

theorem closes_accept (hop : c.op = acceptSqe) (k : Unit) :
    accKey c.op = some k ∧ c.op.kind.closes c.toCompletion = true := by
  rw [hop]
  exact ⟨rfl, rfl⟩

theorem not_rx_accept (hop : c.op = acceptSqe) (k : Conn) :
    ¬ (rxKey c.op = some k ∧ c.op.kind.closes c.toCompletion = true) := by
  rw [hop]
  exact fun h => by cases h.1

theorem not_acc_rx {conn : ZcrxConn} (hop : c.op = rxSqe p.gen conn) (k : Unit) :
    ¬ (accKey c.op = some k ∧ c.op.kind.closes c.toCompletion = true) := by
  rw [hop]
  exact fun h => by simp [accKey, rxSqe] at h

/-- a receive is closed by the completion without MORE -/
theorem closes_rx {conn : ZcrxConn} (hop : c.op = rxSqe p.gen conn) (k : Conn) :
    (rxKey c.op = some k ∧ c.op.kind.closes c.toCompletion = true) ↔
      k = ⟨conn.fd, p.gen conn.fd⟩ ∧ c.more = false := by
  rw [hop, rxKey_rxSqe]
  show _ ∧ (!c.more) = true ↔ _
  rw [Bool.not_eq_true', Option.some.injEq, eq_comm]

/-- steps that leave the table and the descriptors alone -/
theorem Inv.quiet (h : Inv p) (hpc : p.pc ≠ .done) {r : IoRing Sqe} {pc : Pc} {stop : Bool}
    {stats : ThreadStats} {rq : RefillQueue} (hpc' : pc ≠ .done)
    (hout : ∀ o ∈ r.outstanding, o ∈ p.ring.outstanding) (hacc : IoRing.Single Sqe.kind accKey r)
    (hrx : IoRing.Single Sqe.kind rxKey r) (hn : r.nulls = 0 → p.ring.nulls = 0)
    (harm : r.nulls = 0 → ∀ k, r.armedIn Sqe.kind rxKey k = p.ring.armedIn Sqe.kind rxKey k)
    (hwait : r.nulls = 0 → stop = false →
      p.stop = false ∧ r.armedIn Sqe.kind accKey () = p.ring.armedIn Sqe.kind accKey ())
    (hpend : pendFds r = pendFds p.ring) :
    Inv { p with ring := r, pc := pc, stop := stop, stats := stats, rq := rq } where
  table := h.table
  addrs := h.addrs
  ops := by
    intro o ho
    cases h.ops o (hout o ho) with
    | accept e => exact Decodes.accept e
    | rx conn hc e => exact Decodes.rx conn hc e
  acc := hacc
  rx := hrx
  armed := fun h0 f hf => (harm h0 _).trans (h.armed (hn h0) f hf)
  waits := fun h0 hs => (hwait h0 hs).2.trans (h.waits (hn h0) (hwait h0 hs).1)
  ledger := fun _ => by
    show Ledger.Sound Conn.mk p.gen p.isOpen (pendFds r) p.conns.keys p.accepted p.closed
    rw [hpend]
    exact h.ledger hpc
  settled := fun hd => absurd hd hpc'
  sound := h.sound

end

/-! ## every action keeps the invariant -/

section
variable {listenFd : Int} {p t : St} {addr : UInt64} {c : Cqe Sqe} {cs : List (Cqe Sqe)}

/-- a completion that is processed leaves no new entry but those in `ops` -/
theorem outstanding_cqe (hcq : p.ring.cq = c :: cs) {ops : List Sqe} {o : Sqe}
    (ho : o ∈ (p.ring.seen.pushAll ops).outstanding) : o ∈ p.ring.outstanding ∨ o ∈ ops := by
  rcases IoRing.mem_outstanding_pushAll ops ho with ho | ho
  · exact Or.inl ((IoRing.mem_outstanding_seen hcq).mpr (Or.inr ho))
  · exact Or.inr ho

theorem nulls_cqe {ops : List Sqe} (h : (p.ring.seen.pushAll ops).nulls = 0) : p.ring.nulls = 0 :=
  (IoRing.pushAll_nulls_zero p.ring.seen ops h).1

theorem Inv.failed (h : Inv p) (hpc : p.pc ≠ .done) (hcq : p.ring.cq = c :: cs) (hop : c.op = acceptSqe)
    (hr : ¬ 0 ≤ c.res) : Inv { p with ring := p.ring.seen.pushAll (reaccept p) } := by
  have hclose := closes_accept hop
  refine h.quiet hpc hpc ?_ ?_ ?_ nulls_cqe ?_ ?_ ?_
  · intro o ho
    rcases outstanding_cqe hcq ho with ho | ho
    · exact ho
    · refine (IoRing.mem_outstanding_seen hcq).mpr (Or.inl ?_)
      unfold reaccept at ho
      split at ho
      · exact absurd ho List.not_mem_nil
      · rw [List.mem_singleton.mp ho, hop]
  · refine h.acc.again hcq _ fun k => ?_
    rw [if_pos (hclose k), count_acc_reaccept]
    split <;> omega
  · refine h.rx.again hcq _ fun k => ?_
    rw [count_rx_reaccept]
    exact Nat.zero_le _
  · intro h0 k
    have e := IoRing.armedIn_seen_pushAll Sqe.kind rxKey hcq (reaccept p) k h0
    rwa [if_neg (not_rx_accept hop k), count_rx_reaccept, Nat.add_zero, Nat.zero_add] at e
  · intro h0 hs
    have e := IoRing.armedIn_seen_pushAll Sqe.kind accKey hcq (reaccept p) () h0
    rw [if_pos (hclose ()), count_acc_reaccept, hs] at e
    exact ⟨hs, by simpa [Nat.add_comm] using e⟩
  · rw [pendFds_congr (IoRing.pushAll_cq _ _), pendFds_seen hcq, if_neg fun hh => hr hh.2, List.nil_append]

theorem Inv.starved (h : Inv p) (hpc : p.pc ≠ .done) (hcq : p.ring.cq = c :: cs) {conn : ZcrxConn}
    (hop : c.op = rxSqe p.gen conn) (hm : c.more = false) :
    Inv { p with ring := p.ring.seen.pushAll [rxSqe p.gen conn] } := by
  have hcount : ∀ k, List.countP (fun o => rxKey o = some k) [rxSqe p.gen conn] =
      if rxKey c.op = some k ∧ c.op.kind.closes c.toCompletion = true then 1 else 0 := by
    intro k
    rw [count_rx, List.countP_nil, Nat.zero_add]
    simp only [closes_rx hop, hm, and_true]
  refine h.quiet hpc hpc ?_ ?_ ?_ nulls_cqe ?_ ?_ ?_
  · intro o ho
    rcases outstanding_cqe hcq ho with ho | ho
    · exact ho
    · refine (IoRing.mem_outstanding_seen hcq).mpr (Or.inl ?_)
      rw [List.mem_singleton.mp ho, hop]
  · refine h.acc.again hcq _ fun k => ?_
    rw [count_acc_rx]
    exact Nat.zero_le _
  · exact h.rx.again hcq _ fun k => Nat.le_of_eq (hcount k)
  · intro h0 k
    have e := IoRing.armedIn_seen_pushAll Sqe.kind rxKey hcq [rxSqe p.gen conn] k h0
    rw [hcount] at e
    omega
  · intro h0 hs
    have e := IoRing.armedIn_seen_pushAll Sqe.kind accKey hcq [rxSqe p.gen conn] () h0
    rw [if_neg (not_acc_rx hop ()), count_acc_rx, List.countP_nil, Nat.zero_add, Nat.add_zero] at e
    exact ⟨hs, e⟩
  · rw [pendFds_congr (IoRing.pushAll_cq _ _), pendFds_rx hcq hop]

/-- a completion with MORE leaves the receive where it is -/
theorem Inv.more (h : Inv p) (hpc : p.pc ≠ .done) (hcq : p.ring.cq = c :: cs) {conn : ZcrxConn}
    (hop : c.op = rxSqe p.gen conn) (hm : c.more = true) {stats : ThreadStats} {rq : RefillQueue} :
    Inv { p with ring := p.ring.seen, stats := stats, rq := rq } := by
  refine h.quiet hpc hpc ?_ h.acc.seen h.rx.seen id ?_ ?_ ?_
  · exact fun o ho => (IoRing.mem_outstanding_seen hcq).mpr (Or.inr ho)
  · intro _ k
    have e : p.ring.armedIn Sqe.kind rxKey k = _ := IoRing.armedIn_seen hcq k
    rw [if_neg fun hh => by
      rw [closes_rx hop, hm] at hh
      exact Bool.noConfusion hh.2, Nat.zero_add] at e
    exact e.symm
  · intro _ hs
    have e : p.ring.armedIn Sqe.kind accKey () = _ := IoRing.armedIn_seen hcq ()
    rw [if_neg (not_acc_rx hop ()), Nat.zero_add] at e
    exact ⟨hs, e.symm⟩
  · exact pendFds_rx hcq hop

/-- no receive of a connection that is not in the table is outstanding -/
theorem Inv.rx_none (h : Inv p) {f : Int} (hf : p.conns.lookup f = none) (n : Nat) :
    ∀ o ∈ p.ring.outstanding, rxKey o ≠ some ⟨f, n⟩ := by
  intro o ho e
  cases h.ops o ho with
  | accept e' =>
    rw [e'] at e
    cases e
  | rx conn hc e' =>
    rw [e', rxKey_rxSqe] at e
    have e1 : conn.fd = f := congrArg Conn.fd (Option.some.inj e)
    rw [e1, hf] at hc
    cases hc

/-- a descriptor that is accepted is not in the table -/
theorem Inv.accepted_new (h : Inv p) (hpc : p.pc ≠ .done) (hcq : p.ring.cq = c :: cs) (hop : c.op = acceptSqe)
    (hr : 0 ≤ c.res) : p.conns.lookup c.res = none := by
  have hled := h.ledger hpc
  rw [pendFds_seen hcq, if_pos ⟨by rw [hop]; rfl, hr⟩] at hled
  exact AList.lookup_eq_none.mpr fun hm => hled.apart List.mem_cons_self hm

/-- a new connection enters the table under an address of its own -/
theorem Inv.opened (h : Inv p) (hpc : p.pc ≠ .done) (hcq : p.ring.cq = c :: cs) (hop : c.op = acceptSqe)
    (hr : 0 ≤ c.res) (hf : fresh p addr) : Inv { p with
      ring := p.ring.seen.pushAll (rxSqe p.gen ⟨addr, c.res⟩ :: reaccept p)
      conns := p.conns.insert c.res ⟨addr, c.res⟩
      accepted := p.accepted ++ [⟨c.res, p.gen c.res⟩] } := by
  have hled := h.ledger hpc
  have hpend : pendFds p.ring = c.res :: pendFds p.ring.seen := by
    rw [pendFds_seen hcq, if_pos ⟨by rw [hop]; rfl, hr⟩]
    rfl
  rw [hpend] at hled
  have hnone := h.accepted_new hpc hcq hop hr
  have hnew : ∀ f z, p.conns.lookup f = some z → z.addr ≠ addr := by
    intro f z hz
    have := List.all_eq_true.mp hf.2 _ (AList.mem_lookup_iff.mp hz)
    simpa using this
  have hclose := closes_accept hop
  refine ⟨?_, ?_, ?_, ?_, ?_, ?_, ?_, ?_, fun hd => absurd hd hpc, h.sound⟩
  · intro f z hz
    rw [AList.lookup_insert_eq] at hz
    split at hz
    · next e =>
      cases hz
      exact ⟨e.symm, hf.1⟩
    · exact h.table f z hz
  · intro f g z w hz hw e
    rw [AList.lookup_insert_eq] at hz hw
    split at hz
    · next ef =>
      cases hz
      split at hw
      · next eg => exact ef.trans eg.symm
      · exact absurd e.symm (hnew g w hw)
    · split at hw
      · cases hw
        exact absurd e (hnew f z hz)
      · exact h.addrs f g z w hz hw e
  · intro o ho
    rcases outstanding_cqe hcq ho with ho | ho
    · cases h.ops o ho with
      | accept e => exact Decodes.accept e
      | rx conn hc e =>
        refine Decodes.rx conn ?_ e
        show (p.conns.insert c.res _).lookup conn.fd = some conn
        rw [AList.lookup_insert_eq, if_neg, hc]
        intro ef
        rw [ef, hnone] at hc
        cases hc
    · rcases List.mem_cons.mp ho with rfl | ho
      · refine Decodes.rx ⟨addr, c.res⟩ ?_ rfl
        show (p.conns.insert c.res _).lookup c.res = _
        rw [AList.lookup_insert_eq, if_pos rfl]
      · unfold reaccept at ho
        split at ho
        · exact absurd ho List.not_mem_nil
        · exact Decodes.accept (List.mem_singleton.mp ho)
  · refine h.acc.again hcq _ fun k => ?_
    rw [count_acc_rx, count_acc_reaccept, if_pos (hclose k)]
    split <;> omega
  · refine h.rx.seen.pushAll _ fun k => ?_
    rw [count_rx, count_rx_reaccept, Nat.zero_add]
    by_cases hk : k = ⟨c.res, p.gen c.res⟩
    · have h0 : p.ring.seen.armedIn Sqe.kind rxKey k = 0 := by
        rw [hk]
        exact IoRing.armedIn_zero fun o ho =>
          h.rx_none hnone _ o ((IoRing.mem_outstanding_seen hcq).mpr (Or.inr ho))
      rw [if_pos hk, h0]
    · rw [if_neg hk, Nat.zero_add]
      exact h.rx.seen.once k
  · intro h0 f hfk
    have e := IoRing.armedIn_seen_pushAll Sqe.kind rxKey hcq (rxSqe p.gen ⟨addr, c.res⟩ :: reaccept p)
      ⟨f, p.gen f⟩ h0
    rw [if_neg (not_rx_accept hop _), count_rx, count_rx_reaccept, Nat.add_zero, Nat.zero_add] at e
    refine e.trans ?_
    have hmem : f ∈ c.res :: p.conns.keys := AList.keys_insert_new (AList.lookup_eq_none.mp hnone) _ ▸ hfk
    rcases List.mem_cons.mp hmem with rfl | hmem
    · rw [if_pos rfl, IoRing.armedIn_zero (h.rx_none hnone _)]
    · rw [if_neg, h.armed (nulls_cqe h0) f hmem]
      intro ef
      have ef' : f = c.res := congrArg Conn.fd ef
      exact AList.lookup_eq_none.mp hnone (ef' ▸ hmem)
  · intro h0 hs
    have e := IoRing.armedIn_seen_pushAll Sqe.kind accKey hcq (rxSqe p.gen ⟨addr, c.res⟩ :: reaccept p) () h0
    rw [if_pos (hclose ()), count_acc_rx, count_acc_reaccept, hs, h.waits (nulls_cqe h0) hs] at e
    exact Nat.add_right_cancel e
  · intro _
    show Ledger.Sound Conn.mk p.gen p.isOpen _ (p.conns.insert c.res _).keys _ p.closed
    rw [pendFds_congr (IoRing.pushAll_cq _ _), AList.keys_insert_new (AList.lookup_eq_none.mp hnone)]
    exact hled.take fun i j n m e => ⟨congrArg Conn.fd e, congrArg Conn.gen e⟩

/-- an ended connection leaves the table, and nothing of it is outstanding -/
theorem Inv.final (h : Inv p) (hpc : p.pc ≠ .done) (hcq : p.ring.cq = c :: cs) {conn : ZcrxConn}
    (hc : p.conns.lookup conn.fd = some conn) (hop : c.op = rxSqe p.gen conn) (hm : c.more = false)
    (stats : ThreadStats) : Inv { ({ p with stats := stats } : St).closeFd conn.fd with
      ring := p.ring.seen, conns := p.conns.erase conn.fd } := by
  have hclose := (closes_rx hop ⟨conn.fd, p.gen conn.fd⟩).mpr ⟨rfl, hm⟩
  have hlast := h.rx.alone (fun o _ _ => no_zerocopy o) hcq hclose.1 hclose.2
  have hkeys : (p.conns.erase conn.fd).keys = p.conns.keys.erase conn.fd := AList.keys_erase _ _
  have hmem : conn.fd ∈ p.conns.keys := AList.lookup_isSome.mp (by rw [hc]; rfl)
  refine ⟨?_, ?_, ?_, h.acc.seen, h.rx.seen, ?_, ?_, ?_, fun hd => absurd hd hpc, h.sound⟩
  · intro f z hz
    rw [AList.lookup_erase_eq] at hz
    split at hz
    · cases hz
    · exact h.table f z hz
  · intro f g z w hz hw e
    rw [AList.lookup_erase_eq] at hz hw
    split at hz
    · cases hz
    · split at hw
      · cases hw
      · exact h.addrs f g z w hz hw e
  · intro o ho
    cases h.ops o ((IoRing.mem_outstanding_seen hcq).mpr (Or.inr ho)) with
    | accept e => exact Decodes.accept e
    | rx conn' hc' e =>
      refine Decodes.rx conn' ?_ e
      show (p.conns.erase conn.fd).lookup conn'.fd = some conn'
      rw [AList.lookup_erase_eq, if_neg, hc']
      intro ef
      apply hlast o ho
      rw [e, rxKey_rxSqe, ef]
  · intro h0 f hf
    have hf' : f ∈ p.conns.keys.erase conn.fd := hkeys ▸ hf
    obtain ⟨hne, hfm⟩ := (List.Nodup.mem_erase_iff p.conns.nodupKeys).mp hf'
    have e : p.ring.armedIn Sqe.kind rxKey ⟨f, p.gen f⟩ = _ := IoRing.armedIn_seen hcq _
    rw [if_neg, Nat.zero_add] at e
    · exact e.symm.trans (h.armed h0 f hfm)
    · rw [closes_rx hop]
      exact fun hh => hne (congrArg Conn.fd hh.1)
  · intro h0 hs
    have e : p.ring.armedIn Sqe.kind accKey () = _ := IoRing.armedIn_seen hcq ()
    rw [if_neg (not_acc_rx hop ()), Nat.zero_add] at e
    exact e.symm.trans (h.waits h0 hs)
  · intro _
    show Ledger.Sound Conn.mk p.gen (Function.update p.isOpen conn.fd false) (pendFds p.ring.seen)
      (p.conns.erase conn.fd).keys p.accepted (p.closed ++ [conn.fd].map fun f => ⟨f, p.gen f⟩)
    rw [pendFds_rx hcq hop, hkeys]
    refine (h.ledger hpc).drop (List.perm_cons_erase hmem) fun f => ?_
    rw [Function.update_apply, List.mem_singleton]
    by_cases hf : f = conn.fd
    · simp [hf]
    · simp [hf]

theorem Inv.cqe (h : Inv p) (hst : step listenFd p (.cqe, addr) = some t) : Inv t := by
  obtain ⟨hb, c, cs, hcq, hc⟩ := h.step_cqe hst
  have hpc : p.pc ≠ .done := by
    rw [hb]
    exact Pc.noConfusion
  cases hc with
  | failed hop hr => exact h.failed hpc hcq hop hr
  | opened hop hr hf => exact h.opened hpc hcq hop hr hf
  | starved conn hc hop hm hs => exact h.starved hpc hcq hop hm
  | final conn hc hop hm hs => exact h.final hpc hcq hc hop hm _
  | data conn hc hop hm hr => exact h.more hpc hcq hop hm
  | empty conn hc hop hm hr => exact h.more hpc hcq hop hm

/-- the kernel completes an operation; the number of a new connection is in no entry of the table -/
theorem Inv.post (h : Inv p) {i : Nat} {d : Completion} (hst : step listenFd p (.post i d, addr) = some t) :
    Inv t := by
  simp only [step] at hst
  split at hst
  · cases hst
  · next hpc =>
    unfold kernelPost at hst
    split at hst
    · next q r hq hr =>
      have hout : ∀ o, o ∈ r.outstanding ↔ o ∈ p.ring.outstanding := fun o => IoRing.mem_outstanding_post hr
      have hacc := h.acc.post (fun o _ _ => no_zerocopy o) hr
      have hrx := h.rx.post (fun o _ _ => no_zerocopy o) hr
      have hn : r.nulls = p.ring.nulls := by
        obtain ⟨_, _, -, -, -, -, -, -, -, -, e⟩ := IoRing.post_some hr
        exact e
      have hpend := pendFds_post hq hr
      split at hst
      · next ha =>
        split at hst
        · next ho =>
          cases hst
          rw [if_pos ha] at hpend
          have hled := h.ledger hpc
          have hne : ∀ f ∈ p.conns.keys, f ≠ d.res := by
            rintro f hf rfl
            have hop := (hled.isOpen _).mpr (Or.inr hf)
            rw [ho.1] at hop
            cases hop
          refine ⟨h.table, h.addrs, ?_, hacc, hrx, ?_, ?_, ?_, fun hd => absurd hd hpc, h.sound⟩
          · intro o hm
            cases h.ops o ((hout o).mp hm) with
            | accept e => exact Decodes.accept e
            | rx conn hc e =>
              refine Decodes.rx conn hc ?_
              have hf : conn.fd ≠ d.res := hne _ (AList.lookup_isSome.mp (by rw [hc]; rfl))
              rw [e, rxSqe, rxSqe]
              dsimp only
              rw [Function.update_of_ne hf]
          · intro h0 f hf
            show r.armedIn Sqe.kind rxKey ⟨f, Function.update p.gen d.res (p.gen d.res + 1) f⟩ = 1
            rw [Function.update_of_ne (hne f hf), IoRing.armedIn_post hr]
            exact h.armed (hn ▸ h0) f hf
          · intro h0 hs
            exact (IoRing.armedIn_post hr ()).trans (h.waits (hn ▸ h0) hs)
          · intro _
            show Ledger.Sound Conn.mk _ _ (pendFds r) p.conns.keys p.accepted p.closed
            rw [hpend]
            exact hled.arrive ho.1
        · cases hst
      · next ha =>
        cases hst
        rw [if_neg ha, List.append_nil] at hpend
        exact h.quiet hpc hpc (fun o => (hout o).mp) hacc hrx (fun h0 => hn ▸ h0)
          (fun _ k => IoRing.armedIn_post hr k) (fun _ hs => ⟨hs, IoRing.armedIn_post hr ()⟩) hpend
    · cases hst

theorem foldl_close (l : List (Sigma fun _ : Int => ZcrxConn)) (p : St) :
    ∃ o, l.foldl (fun p e => p.closeFd e.1) p =
      { p with isOpen := o, closed := p.closed ++ l.map fun e => ⟨e.1, p.gen e.1⟩ } := by
  induction l generalizing p with
  | nil => exact ⟨p.isOpen, by rw [List.map_nil, List.append_nil]; rfl⟩
  | cons e l ih =>
    obtain ⟨o, ho⟩ := ih (p.closeFd e.1)
    refine ⟨o, ?_⟩
    rw [List.foldl_cons, ho, List.map_cons]
    show ({ p with isOpen := o, closed := p.closed ++ [_] ++ _ } : St) = _
    rw [List.append_assoc]
    rfl

/-- **Every action keeps the invariant.** -/
theorem inv_step (p : St) (a : Act × UInt64) (t : St) (h : Inv p) (hst : step listenFd p a = some t) : Inv t := by
  obtain ⟨a, addr⟩ := a
  have hhead : p.pc = .head → p.pc ≠ .done := fun e => by rw [e]; exact Pc.noConfusion
  cases a with
  | cqe => exact h.cqe hst
  | post i d => exact h.post hst
  | wait =>
    simp only [step] at hst
    split at hst
    · next hc =>
      cases hst
      exact h.quiet (hhead hc.1) Pc.noConfusion (fun o => IoRing.mem_outstanding_submit.mp) h.acc.submit h.rx.submit
        (fun h0 => (IoRing.submit_nulls _).symm.trans h0) (fun _ k => IoRing.armedIn_submit _ k)
        (fun _ hs => ⟨hs, IoRing.armedIn_submit _ ()⟩) (pendFds_congr (IoRing.submit_cq _))
    · cases hst
  | abort =>
    simp only [step] at hst
    split at hst
    · next hc =>
      cases hst
      exact h.quiet (hhead hc.1) Pc.noConfusion (fun o => id) h.acc h.rx id (fun _ _ => rfl) (fun _ hs => ⟨hs, rfl⟩)
        rfl
    · cases hst
  | advance =>
    simp only [step] at hst
    split at hst
    · next hc =>
      cases hst
      exact h.quiet (by rw [hc.1]; exact Pc.noConfusion) Pc.noConfusion (fun o => id) h.acc h.rx id
        (fun _ _ => rfl) (fun _ hs => ⟨hs, rfl⟩) rfl
    · cases hst
  | signal =>
    simp only [step] at hst
    split at hst
    · cases hst
    · next hc =>
      cases hst
      exact h.quiet hc hc (fun o => id) h.acc h.rx id (fun _ _ => rfl) (fun _ hs => absurd hs Bool.noConfusion) rfl
  | refill =>
    simp only [step] at hst
    split at hst
    · cases hst
    · next hc =>
      cases hst
      have hpc : p.pc ≠ .done := fun e => hc (Or.inl e)
      exact h.quiet hpc hpc (fun o => id) h.acc h.rx id (fun _ _ => rfl) (fun _ hs => ⟨hs, rfl⟩) rfl
  | finish =>
    simp only [step] at hst
    split at hst
    · next hc =>
      obtain ⟨o, ho⟩ := foldl_close p.conns.entries p
      rw [ho] at hst
      cases hst
      have hpc : p.pc ≠ .done := by
        rcases hc with hc | hc
        · exact hhead hc.1
        · rw [hc]
          exact Pc.noConfusion
      refine ⟨h.table, h.addrs, ?_, h.acc, h.rx, h.armed, h.waits, fun hd => absurd rfl hd, fun _ => ?_, h.sound⟩
      · intro o hm
        cases h.ops o hm with
        | accept e => exact Decodes.accept e
        | rx conn hc e => exact Decodes.rx conn hc e
      · have hs := (h.ledger hpc).settled
        have e : p.conns.keys.map (fun f => Conn.mk f (p.gen f)) =
            p.conns.entries.map fun e => ⟨e.1, p.gen e.1⟩ := List.map_map ..
        rw [e] at hs
        exact hs
    · cases hst

end

/-! ## every reachable state -/

theorem inv_start (cap : Nat) (rq : RefillQueue) : Inv (start cap rq) := by
  have hring : (start cap rq).ring = ((IoRing.init cap false).pushAll [acceptSqe]).submit := rfl
  have hout : ∀ o ∈ (start cap rq).ring.outstanding, o = acceptSqe := by
    intro o ho
    rw [hring, IoRing.mem_outstanding_submit] at ho
    rcases IoRing.mem_outstanding_pushAll _ ho with ho | ho
    · exact absurd ho List.not_mem_nil
    · exact List.mem_singleton.mp ho
  have hpend : pendFds (start cap rq).ring = [] := by
    rw [hring, pendFds_congr (IoRing.submit_cq _), pendFds_congr (IoRing.pushAll_cq _ _)]
    rfl
  have hnone : ∀ f z, (start cap rq).conns.lookup f = some z → False := fun f z hz => by cases hz
  refine ⟨fun f z hz => (hnone f z hz).elim, fun f g z w hz _ _ => (hnone f z hz).elim,
    fun o ho => Decodes.accept (hout o ho), ?_, ?_, fun _ f hf => absurd hf List.not_mem_nil, ?_, ?_,
    fun hd => Pc.noConfusion hd, rfl⟩
  · rw [hring]
    refine IoRing.Single.submit ((IoRing.single_init cap false).pushAll [acceptSqe] fun k => ?_)
    exact Nat.le_refl 1
  · rw [hring]
    refine IoRing.Single.submit ((IoRing.single_init cap false).pushAll [acceptSqe] fun k => ?_)
    exact Nat.zero_le 1
  · intro h0 _
    rw [hring, IoRing.submit_nulls] at h0
    rw [hring, IoRing.armedIn_submit, IoRing.armedIn_pushAll _ _ _ h0]
    rfl
  · intro _
    rw [hpend]
    exact Ledger.sound_nil Conn.mk _

theorem reach_inv {listenFd : Int} {cap : Nat} {rq : RefillQueue} {p : St}
    (h : Trans.Reach (step listenFd) (start cap rq) p) : Inv p := h.inv (inv_start cap rq) inv_step

/-- the connection of a processed accept -/
def accepting (p : St) : Act × UInt64 → List Conn
  | (.cqe, _) =>
    match p.ring.cq with
    | [] => []
    | c :: _ => if c.op.op = .accept ∧ 0 ≤ c.res then [⟨c.res, p.gen c.res⟩] else []
  | _ => []

theorem accepted_cqe {listenFd : Int} {p t : St} {addr : UInt64} (h : Inv p)
    (hst : step listenFd p (.cqe, addr) = some t) : t.accepted = p.accepted ++ accepting p (.cqe, addr) := by
  obtain ⟨-, c, cs, hcq, hc⟩ := h.step_cqe hst
  unfold accepting
  rw [hcq]
  show t.accepted = p.accepted ++ if c.op.op = .accept ∧ 0 ≤ c.res then _ else _
  have hrx : ∀ conn : ZcrxConn, c.op = rxSqe p.gen conn → ¬ (c.op.op = .accept ∧ 0 ≤ c.res) := by
    rintro conn hop ⟨ha, -⟩
    rw [hop] at ha
    cases ha
  cases hc with
  | failed hop hr => rw [if_neg fun ha => hr ha.2, List.append_nil]
  | opened hop hr hf => rw [if_pos ⟨by rw [hop]; rfl, hr⟩]
  | starved conn _ hop => rw [if_neg (hrx conn hop), List.append_nil]
  | final conn _ hop =>
    rw [if_neg (hrx conn hop), List.append_nil]
    rfl
  | data conn _ hop => rw [if_neg (hrx conn hop), List.append_nil]
  | empty conn _ hop => rw [if_neg (hrx conn hop), List.append_nil]

theorem accepted_step {listenFd : Int} (p : St) (a : Act × UInt64) (t : St) (h : Inv p)
    (hst : step listenFd p a = some t) : t.accepted = p.accepted ++ accepting p a := by
  obtain ⟨a, addr⟩ := a
  cases a with
  | cqe => exact accepted_cqe h hst
  | finish =>
    simp only [step] at hst
    split at hst
    · obtain ⟨o, ho⟩ := foldl_close p.conns.entries p
      rw [ho] at hst
      cases hst
      exact (List.append_nil _).symm
    · cases hst
  | post i d =>
    simp only [step] at hst
    split at hst
    · cases hst
    · unfold kernelPost at hst
      split at hst
      · split at hst
        · split at hst
          · cases hst
            exact (List.append_nil _).symm
          · cases hst
        · cases hst
          exact (List.append_nil _).symm
      · cases hst
  | wait | abort | advance | signal | refill =>
    simp only [step] at hst
    split at hst <;> cases hst
    exact (List.append_nil _).symm

/-- `accepted` is the record of the accepts that a run has processed -/
theorem accepted_observed {listenFd : Int} {cap : Nat} {rq : RefillQueue} {p : St} {as : List (Act × UInt64)}
    (hrun : Trans.runFrom (step listenFd) (start cap rq) as = some p) :
    p.accepted = Trans.observed (step listenFd) accepting (start cap rq) as :=
  Trans.observed_append inv_step (fun p a t => accepted_step p a t) as (start cap rq) p (inv_start cap rq) hrun

/-- an entry carries the packed address of an object exactly if it is the receive of its connection -/
theorem Inv.userData_iff {p : St} (h : Inv p) {f : Int} {z : ZcrxConn} (hz : p.conns.lookup f = some z) {o : Sqe}
    (ho : o ∈ p.ring.outstanding) :
    o.userData = z.addr ||| kZcrxReqRx ↔ rxKey o = some ⟨f, p.gen f⟩ := by
  obtain ⟨hzf, hza⟩ := h.table f z hz
  cases h.ops o ho with
  | accept e =>
    rw [e]
    constructor
    · intro hu
      have ht : kZcrxReqAccept = kZcrxReqRx := by
        rw [← tag_accept, hu]
        exact tag_rx hza
      exact absurd ht.symm rx_ne_accept
    · intro hk
      cases hk
  | rx conn hc e =>
    rw [e, rxKey_rxSqe]
    constructor
    · intro hu
      replace hu : conn.addr ||| kZcrxReqRx = z.addr ||| kZcrxReqRx := hu
      have ha : conn.addr = z.addr := by
        rw [← addr_rx (h.table _ _ hc).2, hu, addr_rx hza]
      rw [h.addrs _ _ _ _ hc hz ha]
    · intro hk
      have hf : conn.fd = f := congrArg Conn.fd (Option.some.inj hk)
      rw [hf, hz] at hc
      cases hc
      rfl

/-- **The connection table.**  As long as no entry is refused, in every reachable state: each connection of the
table stands under its own descriptor and has exactly one receive outstanding; the `user_data` of every
outstanding receive decodes to an object in the table; the tags tell accepts from receives, and no dead object
has been dereferenced; until the stop signal exactly one accept is outstanding; and at the end every accepted
descriptor has been closed exactly once. -/
theorem conn_table (listenFd : Int) (cap : Nat) (rq : RefillQueue) (p : St)
    (h : Trans.Reach (step listenFd) (start cap rq) p) (hn : p.ring.nulls = 0) :
    (∀ f z, p.conns.lookup f = some z → z.fd = f ∧
      (p.ring.armed Sqe.kind).countP (fun o => o.userData = z.addr ||| kZcrxReqRx) = 1) ∧
    (∀ o ∈ p.ring.outstanding, ∀ conn, o.op = .recv conn →
      o.userData &&& kZcrxReqTypeMask = kZcrxReqRx ∧ ∃ z,
        p.deref (o.userData &&& ~~~kZcrxReqTypeMask) = some z ∧ p.conns.lookup z.fd = some z ∧
        conn = ⟨z.fd, p.gen z.fd⟩) ∧
    (∀ o ∈ p.ring.outstanding, o.op = .accept ↔ o.userData &&& kZcrxReqTypeMask = kZcrxReqAccept) ∧
    p.fault = false ∧
    (p.stop = false → p.ring.outstanding.countP (fun o => o.op = .accept) = 1) ∧
    (p.pc = .done → p.closed.Perm p.accepted ∧ p.accepted.Nodup) := by
  have hi := reach_inv h
  refine ⟨fun f z hz => ⟨(hi.table f z hz).1, ?_⟩, ?_, ?_, hi.sound, fun hs => ?_, hi.settled⟩
  · have hf : f ∈ p.conns.keys := AList.lookup_isSome.mp (by rw [hz]; rfl)
    refine Eq.trans (List.countP_congr fun o ho => ?_) (hi.armed hn f hf)
    rw [decide_eq_true_eq, decide_eq_true_eq]
    exact hi.userData_iff hz (IoRing.armed_outstanding ho)
  · intro o ho conn hop
    cases hi.ops o ho with
    | accept e =>
      rw [e] at hop
      cases hop
    | rx z hz e =>
      obtain ⟨-, hza⟩ := hi.table _ _ hz
      rw [e] at hop ⊢
      cases hop
      refine ⟨tag_rx hza, z, ?_, hz, rfl⟩
      show p.deref ((z.addr ||| kZcrxReqRx) &&& _) = _
      rw [addr_rx hza]
      exact hi.deref hz
  · intro o ho
    cases hi.ops o ho with
    | accept e =>
      rw [e]
      exact ⟨fun _ => tag_accept, fun _ => rfl⟩
    | rx z hz e =>
      rw [e]
      refine ⟨fun hop => Op.noConfusion hop, fun ht => absurd ?_ rx_ne_accept⟩
      rw [← ht]
      exact (tag_rx (hi.table _ _ hz).2).symm
  · have hone := hi.acc.outstanding_count (k := ()) fun o hk => by
      unfold accKey at hk
      split at hk
      · next e =>
        unfold Sqe.kind
        rw [e]
        rfl
      · cases hk
    rw [hi.waits hn hs] at hone
    refine Eq.trans (List.countP_congr fun o _ => ?_) hone
    unfold accKey
    by_cases e : o.op = .accept
    · simp [e]
    · simp [e]

/-- a connection on descriptor 7 receives, is starved and ends; the number and the address are used again -/
def reuseRun : List (Act × UInt64) :=
  [(.post 0 (.plain 7), 0), (.wait, 0), (.cqe, 0x1000), (.advance, 0), (.wait, 0),
    (.post 0 ⟨4096, true, false, some 0⟩, 0), (.cqe, 0), (.post 0 (.plain (-28)), 0), (.cqe, 0), (.advance, 0),
    (.wait, 0), (.post 1 (.plain 0), 0), (.cqe, 0), (.post 0 (.plain 7), 0), (.cqe, 0x1000)]

theorem conn_table_reuse : ∃ p, Trans.Reach (step 3) (start 4 ⟨0, 0, 0, 8, 0, fun _ => ⟨0, 0⟩⟩) p ∧
    p.ring.nulls = 0 ∧ p.conns.lookup 7 = some ⟨0x1000, 7⟩ ∧ p.accepted = [⟨7, 1⟩, ⟨7, 2⟩] ∧
    (p.ring.armed Sqe.kind).countP (fun o => o.userData = 0x1000 ||| kZcrxReqRx) = 1 := by
  have h : ∃ p, Trans.Reach (step 3) (start 4 ⟨0, 0, 0, 8, 0, fun _ => ⟨0, 0⟩⟩) p ∧ p.ring.nulls = 0 ∧
      p.conns.lookup 7 = some ⟨0x1000, 7⟩ ∧ p.accepted = [⟨7, 1⟩, ⟨7, 2⟩] :=
    Trans.exists_reach reuseRun (by decide +kernel)
  obtain ⟨p, hreach, h1, h2, h3⟩ := h
  exact ⟨p, hreach, h1, h2, h3, ((conn_table 3 4 _ p hreach h1).1 7 _ h2).2⟩

end Packed
end Zcrx
end UringPerf
