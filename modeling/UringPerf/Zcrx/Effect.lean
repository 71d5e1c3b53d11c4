import UringPerf.Base.Run
import UringPerf.Base.Single
import UringPerf.Zcrx.Model

/-!
# What one action of a zero-copy loop can do

* `isData`, `refilled`          a completion that carries a buffer of the area, and what it does to the queue;
* `queued`, `opened`, `ended`   what one completion of the server queues, enters into the table and closes;
* `CqeStep`, `step_cqe`         the body of the server's loop has exactly this effect;
* `step_wait` .. `step_refill`  inversion of the server's other actions;
* `client_cqe` .. `client_refill`  the same for the client's loop.
-/

namespace UringPerf
namespace Zcrx
open Uring

/-- the test of the data branch in both loops -/
def isData (c : Completion) : Bool := c.more && decide (0 < c.res)

/-- a termination after which nothing is received from the connection again -/
def isFinal (c : Completion) : Bool := !c.more && !isStarved c.res

/-- the refill queue after a completion of a receive -/
def refilled (q : RefillQueue) (c : Completion) : RefillQueue :=
  if isData c then q.returnBuffer (offset c) c.res else q

/-! ## one completion of the server -/

/-- the connection that a processed accept has returned -/
def opened (s : St) (c : Cqe Op) : Option Conn :=
  if c.op = .accept ∧ 0 ≤ c.res then some ⟨c.res, s.gen c.res⟩ else none

/-- the descriptor that a termination closes: the one of its connection, if it is in the table -/
def ended (s : St) (c : Cqe Op) : Option Int :=
  match c.op with
  | .accept => none
  | .recv conn =>
    if isFinal c.toCompletion ∧ (s.conns.lookup conn.fd).isSome then some conn.fd else none

def queued (s : St) (c : Cqe Op) : List Op :=
  match c.op with
  | .accept => (opened s c).toList.map .recv ++ if s.stop then [] else [.accept]
  | .recv conn => if !c.more && isStarved c.res then [.recv conn] else []

def bookConns (s : St) (c : Cqe Op) : AList fun _ : Int => Conn :=
  match opened s c, ended s c with
  | some conn, _ => s.conns.insert conn.fd conn
  | none, some fd => s.conns.erase fd
  | none, none => s.conns

structure CqeStep (s t : St) (c : Cqe Op) (cs : List (Cqe Op)) : Prop where
  pc : s.pc = .batch
  cq : s.ring.cq = c :: cs
  pc' : t.pc = .batch
  ring : t.ring = s.ring.seen.pushAll (queued s c)
  conns : t.conns = bookConns s c
  gen : t.gen = s.gen
  isOpen : ∀ f, t.isOpen f = (s.isOpen f && !decide (ended s c = some f))
  closed : t.closed = s.closed ++ (ended s c).toList.map fun fd => ⟨fd, s.gen fd⟩
  rq : t.rq = if c.op = .accept then s.rq else refilled s.rq c.toCompletion
  stop : t.stop = s.stop

section
variable {listenFd : Int} {s t : St} {c : Cqe Op} {cs : List (Cqe Op)}

theorem accept_step (hop : c.op = .accept) (hpc : s.pc = .batch) (hcq : s.ring.cq = c :: cs) :
    CqeStep s { onAccept s c.res with ring := (onAccept s c.res).ring.seen } c cs := by
  have he : ended s c = none := by
    unfold ended
    rw [hop]
  have hq : queued s c = (opened s c).toList.map .recv ++ if s.stop then [] else [.accept] := by
    unfold queued
    rw [hop]
  have e : onAccept s c.res =
      { s with ring := s.ring.pushAll (queued s c), conns := bookConns s c } := by
    unfold onAccept bookConns
    rw [hq, he]
    by_cases hr : 0 ≤ c.res
    · have ho : opened s c = some ⟨c.res, s.gen c.res⟩ := if_pos ⟨hop, hr⟩
      rw [if_pos hr, ho]
      show (if s.stop = true then s.openConn c.res else (s.openConn c.res).queue .accept) = _
      by_cases hst : s.stop = true
      · rw [if_pos hst, if_pos hst]
        rfl
      · rw [if_neg hst, if_neg hst]
        rfl
    · have ho : opened s c = none := if_neg fun h => hr h.2
      rw [if_neg hr, ho]
      show (if s.stop = true then s else s.queue .accept) = _
      by_cases hst : s.stop = true
      · rw [if_pos hst, if_pos hst]
        rfl
      · rw [if_neg hst, if_neg hst]
        rfl
  rw [e]
  refine ⟨hpc, hcq, hpc, IoRing.pushAll_seen _ _, rfl, rfl, ?_, ?_, by rw [if_pos hop], rfl⟩
  · intro f
    rw [he]
    exact (Bool.and_true _).symm
  · rw [he]
    exact (List.append_nil _).symm

theorem rx_step {conn : Conn} (hop : c.op = .recv conn) (hpc : s.pc = .batch) (hcq : s.ring.cq = c :: cs) :
    CqeStep s { onRx s conn c.toCompletion with
      ring := (onRx s conn c.toCompletion).ring.seen } c cs := by
  have hne : c.op ≠ .accept := by
    rw [hop]
    exact Op.noConfusion
  have ho : opened s c = none := if_neg fun h => hne h.1
  have hq : queued s c = if !c.more && isStarved c.res then [.recv conn] else [] := by
    unfold queued
    rw [hop]
  have he : ended s c = if isFinal c.toCompletion ∧ (s.conns.lookup conn.fd).isSome then some conn.fd
      else none := by
    unfold ended
    rw [hop]
  -- everything but the table, the queue and the refill queue stays
  have quiet : ∀ (q : List Op) (rq : RefillQueue) (st : ThreadStats), queued s c = q → ended s c = none →
      refilled s.rq c.toCompletion = rq →
      CqeStep s { s with ring := s.ring.seen.pushAll q, rq := rq, stats := st } c cs := by
    intro q rq st h1 h2 h3
    refine ⟨hpc, hcq, hpc, by rw [h1], ?_, rfl, ?_, ?_, ?_, rfl⟩
    · unfold bookConns
      rw [ho, h2]
    · intro f
      rw [h2]
      exact (Bool.and_true _).symm
    · rw [h2]
      exact (List.append_nil _).symm
    · rw [if_neg hne, h3]
  cases hm : c.more with
  | true =>
    have hq0 : queued s c = [] := by rw [hq, hm]; rfl
    have he0 : ended s c = none := by
      rw [he, if_neg]
      unfold isFinal
      rw [hm]
      simp
    by_cases hr : 0 < c.res
    · have h3 : refilled s.rq c.toCompletion = s.rq.returnBuffer (offset c.toCompletion) c.res := by
        unfold refilled isData
        rw [hm, decide_eq_true hr]
        rfl
      have e : onRx s conn c.toCompletion = { s with
          stats := countChunk s.stats c.res
          rq := s.rq.returnBuffer (offset c.toCompletion) c.res } := by
        unfold onRx
        rw [if_neg (by rw [hm]; exact Bool.noConfusion), if_pos hr]
      rw [e]
      exact quiet [] _ _ hq0 he0 h3
    · have h3 : refilled s.rq c.toCompletion = s.rq := by
        unfold refilled isData
        rw [decide_eq_false hr, Bool.and_false]
        rfl
      have e : onRx s conn c.toCompletion = s := by
        unfold onRx
        rw [if_neg (by rw [hm]; exact Bool.noConfusion), if_neg hr]
      rw [e]
      exact quiet [] s.rq s.stats hq0 he0 h3
  | false =>
    have h3 : refilled s.rq c.toCompletion = s.rq := by
      unfold refilled isData
      rw [hm]
      rfl
    cases hs : isStarved c.res with
    | true =>
      have he0 : ended s c = none := by
        rw [he, if_neg]
        unfold isFinal
        rw [hs]
        simp
      have e : onRx s conn c.toCompletion = { s with ring := s.ring.pushAll [.recv conn] } := by
        unfold onRx
        rw [if_pos hm, if_pos hs]
        rfl
      rw [e]
      show CqeStep s { s with ring := (s.ring.pushAll [.recv conn]).seen } c cs
      rw [IoRing.pushAll_seen]
      exact quiet [.recv conn] s.rq s.stats (by rw [hq, hm, hs]; rfl) he0 h3
    | false =>
      have hq0 : queued s c = [] := by rw [hq, hs, Bool.and_false]; rfl
      have hf : isFinal c.toCompletion = true := by
        unfold isFinal
        rw [hm, hs]
        rfl
      cases hl : s.conns.lookup conn.fd with
      | none =>
        have he0 : ended s c = none := by
          rw [he, if_neg]
          rw [hl]
          simp
        have e : onRx s conn c.toCompletion = { s with stats := errorIfNeg s.stats c.res } := by
          unfold onRx
          rw [if_pos hm, if_neg (by rw [hs]; exact Bool.noConfusion)]
          dsimp only
          rw [hl]
        rw [e]
        exact quiet [] s.rq _ hq0 he0 h3
      | some v =>
        have he1 : ended s c = some conn.fd := by
          rw [he, if_pos]
          exact ⟨hf, by rw [hl]; rfl⟩
        have e : onRx s conn c.toCompletion =
            { ({ s with stats := errorIfNeg s.stats c.res } : St).closeFd conn.fd with
              conns := s.conns.erase conn.fd } := by
          unfold onRx
          rw [if_pos hm, if_neg (by rw [hs]; exact Bool.noConfusion)]
          dsimp only
          rw [hl]
        rw [e]
        refine ⟨hpc, hcq, hpc, by rw [hq0]; rfl, ?_, rfl, ?_, by rw [he1]; rfl, ?_, rfl⟩
        · unfold bookConns
          rw [ho, he1]
        · intro f
          rw [he1]
          show Function.update s.isOpen conn.fd false f = _
          rw [Function.update_apply]
          by_cases h : f = conn.fd
          · simp [h]
          · simp [h, Ne.symm h]
        · rw [if_neg hne, h3]
          rfl

/-- **The loop body has the effect of `CqeStep`.** -/
theorem step_cqe (h : step listenFd s .cqe = some t) : ∃ c cs, CqeStep s t c cs := by
  unfold step at h
  dsimp only at h
  split at h
  · next c cs hpc hcq =>
    cases h
    refine ⟨c, cs, ?_⟩
    unfold onCqe
    cases hop : c.op with
    | accept => exact accept_step hop hpc hcq
    | recv conn => exact rx_step hop hpc hcq
  · cases h

theorem step_wait (h : step listenFd s .wait = some t) :
    s.pc = .head ∧ s.stop = false ∧ t = { s with ring := s.ring.submit, pc := .batch } := by
  simp only [step] at h
  split at h
  · next hc =>
    cases h
    exact ⟨hc.1, hc.2, rfl⟩
  · cases h

theorem step_abort (h : step listenFd s .abort = some t) : s.pc = .head ∧ t = { s with pc := .exit } := by
  simp only [step] at h
  split at h
  · next hc =>
    cases h
    exact ⟨hc.1, rfl⟩
  · cases h

theorem step_advance (h : step listenFd s .advance = some t) :
    s.pc = .batch ∧ t = { s with pc := .head } := by
  simp only [step] at h
  split at h
  · next hc =>
    cases h
    exact ⟨hc.1, rfl⟩
  · cases h

/-- closing every descriptor of the table -/
theorem foldl_closeFd (l : List (Sigma fun _ : Int => Conn)) (s : St) :
    ∃ o, l.foldl (fun s e => s.closeFd e.1) s =
      { s with isOpen := o, closed := s.closed ++ l.map fun e => ⟨e.1, s.gen e.1⟩ } := by
  induction l generalizing s with
  | nil => exact ⟨s.isOpen, by rw [List.map_nil, List.append_nil]; rfl⟩
  | cons e l ih =>
    obtain ⟨o, ho⟩ := ih (s.closeFd e.1)
    refine ⟨o, ?_⟩
    rw [List.foldl_cons, ho, List.map_cons]
    show ({ s with isOpen := o, closed := s.closed ++ [_] ++ _ } : St) = _
    rw [List.append_assoc]
    rfl

theorem step_finish (h : step listenFd s .finish = some t) :
    (s.pc = .head ∨ s.pc = .exit) ∧ ∃ o, t = { s with
      isOpen := o, closed := s.closed ++ s.conns.entries.map (fun e => ⟨e.1, s.gen e.1⟩), pc := .done } := by
  simp only [step] at h
  split at h
  · next hc =>
    obtain ⟨o, ho⟩ := foldl_closeFd s.conns.entries s
    rw [ho] at h
    cases h
    exact ⟨hc.imp And.left id, o, rfl⟩
  · cases h

theorem step_signal (h : step listenFd s .signal = some t) : s.pc ≠ .done ∧ t = { s with stop := true } := by
  simp only [step] at h
  split at h
  · cases h
  · next hc =>
    cases h
    exact ⟨hc, rfl⟩

/-- a completion is posted; a successful accept opens a new connection -/
theorem step_post {i : Nat} {d : Completion} (h : step listenFd s (.post i d) = some t) :
    s.pc ≠ .done ∧ ∃ p r, s.ring.kern[i]? = some p ∧ s.ring.post Op.kind i d = some r ∧
      ((¬ (p.op = .accept ∧ 0 ≤ d.res) ∧ t = { s with ring := r }) ∨
        (p.op = .accept ∧ 0 ≤ d.res ∧ s.isOpen d.res = false ∧ t = { s with
          ring := r
          gen := Function.update s.gen d.res (s.gen d.res + 1)
          isOpen := Function.update s.isOpen d.res true })) := by
  simp only [step] at h
  split at h
  · cases h
  · next hpc =>
    refine ⟨hpc, ?_⟩
    unfold kernelPost at h
    split at h
    · next p r hp hr =>
      refine ⟨p, r, hp, hr, ?_⟩
      split at h
      · next ha =>
        split at h
        · next ho =>
          cases h
          exact Or.inr ⟨ha.1, ha.2, ho.1, rfl⟩
        · cases h
      · next ha =>
        cases h
        exact Or.inl ⟨ha, rfl⟩
    · cases h

theorem step_refill (h : step listenFd s .refill = some t) : s.pc ≠ .done ∧ s.rq.khead ≠ s.rq.ktail ∧
    t = { s with rq := { s.rq with khead := s.rq.khead + 1 } } := by
  simp only [step] at h
  split at h
  · cases h
  · next hc =>
    cases h
    exact ⟨fun e => hc (Or.inl e), fun e => hc (Or.inr e), rfl⟩

end

/-! ## the client -/

section
variable {conn : Conn} {s t : ClientSt}

theorem client_cqe (h : clientStep conn s .cqe = some t) :
    ∃ c cs, s.ring.cq = c :: cs ∧ t.rq = refilled s.rq c.toCompletion ∧
      t.ring = s.ring.seen.pushAll (if !c.more && isStarved c.res then [.recv conn] else []) := by
  unfold clientStep at h
  dsimp only at h
  split at h
  · next c cs hpc hcq =>
    cases h
    refine ⟨c, cs, hcq, ?_, ?_⟩
    · show (onClientRx s conn c.toCompletion).rq = _
      unfold onClientRx refilled isData
      cases hm : c.more with
      | false =>
        rw [if_pos rfl]
        split <;> rfl
      | true =>
        rw [if_neg Bool.noConfusion]
        by_cases hr : 0 < c.res
        · rw [if_pos hr, decide_eq_true hr]
          rfl
        · rw [if_neg hr, decide_eq_false hr]
          rfl
    · show (onClientRx s conn c.toCompletion).ring.seen = _
      unfold onClientRx
      cases hm : c.more with
      | false =>
        rw [if_pos rfl]
        cases hs : isStarved c.res with
        | true => exact IoRing.pushAll_seen s.ring [.recv conn]
        | false => rfl
      | true =>
        rw [if_neg Bool.noConfusion]
        split <;> rfl
  · cases h

theorem client_post {i : Nat} {d : Completion} (h : clientStep conn s (.post i d) = some t) :
    ∃ r, s.ring.post Op.kind i d = some r ∧ t = { s with ring := r } := by
  simp only [clientStep] at h
  split at h
  · cases h
  · obtain ⟨r, hr, e⟩ := Option.map_eq_some_iff.mp h
    exact ⟨r, hr, e.symm⟩

theorem client_refill (h : clientStep conn s .refill = some t) : s.rq.khead ≠ s.rq.ktail ∧
    t = { s with rq := { s.rq with khead := s.rq.khead + 1 } } := by
  simp only [clientStep] at h
  split at h
  · cases h
  · next hc =>
    cases h
    exact ⟨fun e => hc (Or.inr e), rfl⟩

end

end Zcrx
end UringPerf
