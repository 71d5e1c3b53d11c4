import UringPerf.Zcrx.Conns

/-!
# Packed pointers are connections

The server of `Zcrx.step` knows the connection of a completion; the one of `Packed.step` finds it through a tag
and an address.  In every reachable state both do the same.

* `abs`         forget the addresses and what has been accepted;
* `abs_step`    an action of the packed server is the same action of the other;
* `reach_abs`   every reachable state of the packed server is one of the other.
-/

namespace UringPerf
namespace Zcrx
namespace Packed
open Uring

/-- the connection an object stands for -/
def ZcrxConn.conn (gen : Int → Nat) (z : ZcrxConn) : Conn := ⟨z.fd, gen z.fd⟩

def abs (p : St) : Zcrx.St where
  ring := p.ring.map Sqe.op
  conns := p.conns.mapVal (ZcrxConn.conn p.gen)
  stats := p.stats
  rq := p.rq
  closed := p.closed
  stop := p.stop
  pc := p.pc
  gen := p.gen
  isOpen := p.isOpen

section
variable {listenFd : Int} {p t : St} {addr : UInt64} {c : Cqe Sqe} {cs : List (Cqe Sqe)}

/-- the completion without its `user_data` -/
def absCqe (c : Cqe Sqe) : Cqe Op := ⟨c.toCompletion, c.op.op⟩

theorem abs_cq (hcq : p.ring.cq = c :: cs) : (abs p).ring.cq = absCqe c :: cs.map absCqe := by
  show p.ring.cq.map absCqe = _
  rw [hcq]
  rfl

theorem abs_cqe (hpc : p.pc = .batch) (hcq : p.ring.cq = c :: cs) :
    Zcrx.step listenFd (abs p) .cqe =
      some { Zcrx.onCqe (abs p) (absCqe c) with ring := (Zcrx.onCqe (abs p) (absCqe c)).ring.seen } := by
  have h1 : (abs p).pc = .batch := hpc
  simp only [Zcrx.step, h1, abs_cq hcq]

/-- the ring after a processed completion -/
theorem abs_ring (ops : List Sqe) :
    ((abs p).ring.pushAll (ops.map Sqe.op)).seen = (p.ring.seen.pushAll ops).map Sqe.op := by
  show ((p.ring.map Sqe.op).pushAll _).seen = _
  rw [IoRing.map_pushAll, IoRing.map_seen, IoRing.pushAll_seen]

theorem abs_accept (s : Zcrx.St) (res : Int) : Zcrx.onAccept s res = { s with
    ring := s.ring.pushAll ((if 0 ≤ res then [.recv ⟨res, s.gen res⟩] else []) ++
      if s.stop then [] else [.accept])
    conns := if 0 ≤ res then s.conns.insert res ⟨res, s.gen res⟩ else s.conns } := by
  unfold Zcrx.onAccept
  by_cases hr : 0 ≤ res
  · rw [if_pos hr, if_pos hr, if_pos hr]
    show (if s.stop = true then s.openConn res else (s.openConn res).queue .accept) = _
    by_cases hst : s.stop = true
    · rw [if_pos hst, if_pos hst]
      rfl
    · rw [if_neg hst, if_neg hst]
      rfl
  · rw [if_neg hr, if_neg hr, if_neg hr]
    show (if s.stop = true then s else s.queue .accept) = _
    by_cases hst : s.stop = true
    · rw [if_pos hst, if_pos hst]
      rfl
    · rw [if_neg hst, if_neg hst]
      rfl

theorem map_reaccept (p : St) : (reaccept p).map Sqe.op = if p.stop then [] else [.accept] := by
  unfold reaccept
  cases p.stop <;> rfl

/-- **One completion.** -/
theorem CqeStep.abs (hpc : p.pc = .batch) (hcq : p.ring.cq = c :: cs) (h : CqeStep p addr c t) :
    Zcrx.step listenFd (abs p) .cqe = some (abs t) := by
  rw [abs_cqe hpc hcq]
  congr 1
  cases h with
  | failed hop hr =>
    have e : Zcrx.onCqe (Packed.abs p) (absCqe c) = Zcrx.onAccept (Packed.abs p) c.res := by
      unfold Zcrx.onCqe absCqe
      rw [hop]
      rfl
    rw [e, abs_accept, if_neg hr, if_neg hr]
    show ({ Packed.abs p with ring := ((Packed.abs p).ring.pushAll _).seen } : Zcrx.St) = _
    rw [List.nil_append]
    have hq : (if (Packed.abs p).stop = true then [] else [Op.accept]) = (reaccept p).map Sqe.op :=
      (map_reaccept p).symm
    rw [hq, abs_ring]
    rfl
  | opened hop hr hf =>
    have e : Zcrx.onCqe (Packed.abs p) (absCqe c) = Zcrx.onAccept (Packed.abs p) c.res := by
      unfold Zcrx.onCqe absCqe
      rw [hop]
      rfl
    rw [e, abs_accept, if_pos hr, if_pos hr]
    have hq : [Op.recv ⟨c.res, (Packed.abs p).gen c.res⟩] ++
        (if (Packed.abs p).stop = true then [] else [Op.accept]) =
          (rxSqe p.gen ⟨addr, c.res⟩ :: reaccept p).map Sqe.op := by
      rw [List.map_cons, map_reaccept]
      rfl
    dsimp only
    rw [hq, abs_ring]
    unfold Packed.abs
    dsimp only
    rw [AList.mapVal_insert]
    rfl
  | starved conn hc hop hm hs =>
    have e : Zcrx.onCqe (Packed.abs p) (absCqe c) =
        { Packed.abs p with ring := (Packed.abs p).ring.pushAll ([rxSqe p.gen conn].map Sqe.op) } := by
      unfold Zcrx.onCqe absCqe
      rw [hop]
      show Zcrx.onRx _ _ c.toCompletion = _
      unfold Zcrx.onRx
      rw [if_pos hm, if_pos hs]
      rfl
    rw [e]
    dsimp only
    rw [abs_ring]
    rfl
  | final conn hc hop hm hs =>
    have hl : (Packed.abs p).conns.lookup conn.fd = some (conn.conn p.gen) := by
      show (p.conns.mapVal _).lookup conn.fd = _
      rw [AList.lookup_mapVal, hc]
      rfl
    have e : Zcrx.onCqe (Packed.abs p) (absCqe c) =
        { ({ Packed.abs p with stats := errorIfNeg p.stats c.res } : Zcrx.St).closeFd conn.fd with
          conns := (Packed.abs p).conns.erase conn.fd } := by
      unfold Zcrx.onCqe absCqe
      rw [hop]
      show Zcrx.onRx _ ⟨conn.fd, p.gen conn.fd⟩ c.toCompletion = _
      unfold Zcrx.onRx
      rw [if_pos hm, if_neg (by rw [hs]; exact Bool.false_ne_true)]
      dsimp only
      rw [hl]
      rfl
    rw [e]
    unfold Packed.abs
    dsimp only
    rw [AList.mapVal_erase]
    congr 1
    exact IoRing.map_seen Sqe.op p.ring
  | data conn hc hop hm hr =>
    have e : Zcrx.onCqe (Packed.abs p) (absCqe c) = { Packed.abs p with
        stats := countChunk p.stats c.res
        rq := p.rq.returnBuffer (offset c.toCompletion) c.res } := by
      unfold Zcrx.onCqe absCqe
      rw [hop]
      show Zcrx.onRx _ _ c.toCompletion = _
      unfold Zcrx.onRx
      rw [if_neg (by rw [hm]; exact Bool.noConfusion), if_pos hr]
      rfl
    rw [e]
    show ({ Packed.abs p with ring := (p.ring.map Sqe.op).seen, stats := _, rq := _ } : Zcrx.St) = _
    rw [IoRing.map_seen]
    rfl
  | empty conn hc hop hm hr =>
    have e : Zcrx.onCqe (Packed.abs p) (absCqe c) = Packed.abs p := by
      unfold Zcrx.onCqe absCqe
      rw [hop]
      show Zcrx.onRx _ _ c.toCompletion = _
      unfold Zcrx.onRx
      rw [if_neg (by rw [hm]; exact Bool.noConfusion), if_neg hr]
    rw [e]
    show ({ Packed.abs p with ring := (p.ring.map Sqe.op).seen } : Zcrx.St) = _
    rw [IoRing.map_seen]
    rfl

theorem abs_post (h : Inv p) {i : Nat} {d : Completion} (hst : step listenFd p (.post i d, addr) = some t) :
    Zcrx.step listenFd (abs p) (.post i d) = some (abs t) := by
  simp only [step] at hst
  split at hst
  · cases hst
  · next hpc =>
    have hpc' : (abs p).pc ≠ .done := hpc
    simp only [Zcrx.step]
    rw [if_neg hpc']
    unfold kernelPost at hst
    split at hst
    · next q r hq hr =>
      have hr' : (abs p).ring.post Op.kind i d = some (r.map Sqe.op) := IoRing.map_post Sqe.op hr
      have hq' : (abs p).ring.kern[i]? = some ⟨q.op.op, q.waiting⟩ := by
        show (p.ring.map Sqe.op).kern[i]? = _
        rw [IoRing.map_kern_getElem?, hq]
        rfl
      unfold Zcrx.kernelPost
      rw [hq', hr']
      dsimp only
      split at hst
      · next ha =>
        rw [if_pos ha]
        split at hst
        · next ho =>
          have ho' : (abs p).isOpen d.res = false ∧ d.res ≠ listenFd := ho
          cases hst
          rw [if_pos ho']
          -- the number was not open, so no object of the table has it
          have hconns : p.conns.mapVal (ZcrxConn.conn p.gen) =
              p.conns.mapVal (ZcrxConn.conn (Function.update p.gen d.res (p.gen d.res + 1))) := by
            apply AList.mapVal_congr
            intro f z hz
            have hf : f ∈ p.conns.keys := AList.lookup_isSome.mp (by rw [hz]; rfl)
            have hop := ((h.ledger hpc).isOpen f).mpr (Or.inr hf)
            have hne : z.fd ≠ d.res := by
              rw [(h.table f z hz).1]
              rintro rfl
              rw [ho.1] at hop
              cases hop
            unfold ZcrxConn.conn
            rw [Function.update_of_ne hne]
          unfold abs
          dsimp only
          rw [hconns]
        · cases hst
      · next ha =>
        cases hst
        rw [if_neg ha]
        rfl
    · cases hst

theorem abs_finish (hst : step listenFd p (.finish, addr) = some t) :
    Zcrx.step listenFd (abs p) .finish = some (abs t) := by
  have hfold : ∀ (l : List (Sigma fun _ : Int => ZcrxConn)) (p : St),
      (l.map fun e => (⟨e.1, e.2.conn p.gen⟩ : Sigma fun _ : Int => Conn)).foldl (fun s e => s.closeFd e.1)
        (abs p) = abs (l.foldl (fun p e => p.closeFd e.1) p) := by
    intro l
    induction l with
    | nil => exact fun _ => rfl
    | cons e l ih => exact fun p => ih (p.closeFd e.1)
  simp only [step] at hst
  split at hst
  · next hc =>
    cases hst
    have hc' : ((abs p).pc = .head ∧ (abs p).stop = true) ∨ (abs p).pc = .exit := hc
    simp only [Zcrx.step]
    rw [if_pos hc']
    have e := hfold p.conns.entries p
    have e' : (abs p).conns.entries.foldl (fun s e => s.closeFd e.1) (abs p) = _ := e
    rw [e']
    rfl
  · cases hst

/-- **Every action of the packed server is that action of the server.** -/
theorem abs_step {a : Act} (h : Inv p) (hst : step listenFd p (a, addr) = some t) :
    Zcrx.step listenFd (abs p) a = some (abs t) := by
  cases a with
  | cqe =>
    obtain ⟨hpc, c, cs, hcq, hc⟩ := h.step_cqe hst
    exact hc.abs hpc hcq
  | post i d => exact abs_post h hst
  | finish => exact abs_finish hst
  | wait =>
    simp only [step] at hst
    split at hst
    · next hc =>
      have hc' : (abs p).pc = .head ∧ (abs p).stop = false := hc
      cases hst
      simp only [Zcrx.step]
      rw [if_pos hc']
      show some { abs p with ring := (p.ring.map Sqe.op).submit, pc := Pc.batch } = _
      rw [IoRing.map_submit]
      rfl
    · cases hst
  | abort =>
    simp only [step] at hst
    split at hst
    · next hc =>
      cases hst
      exact if_pos hc
    · cases hst
  | advance =>
    simp only [step] at hst
    split at hst
    · next hc =>
      have hc' : (abs p).pc = .batch ∧ (abs p).ring.cq = [] := ⟨hc.1, by
        show p.ring.cq.map _ = []
        rw [hc.2]
        rfl⟩
      cases hst
      exact if_pos hc'
    · cases hst
  | signal =>
    simp only [step] at hst
    split at hst
    · cases hst
    · next hc =>
      cases hst
      exact if_neg hc
  | refill =>
    simp only [step] at hst
    split at hst
    · cases hst
    · next hc =>
      cases hst
      exact if_neg hc

theorem abs_start (cap : Nat) (rq : RefillQueue) : abs (start cap rq) = Zcrx.start cap rq := by
  have e : ((IoRing.init cap false).push acceptSqe).2.submit.map Sqe.op =
      ((IoRing.init cap false).push Op.accept).2.submit := by
    rw [← IoRing.map_submit, ← IoRing.map_push]
    rfl
  unfold abs
  show ({ Zcrx.start cap rq with ring := ((IoRing.init cap false).push acceptSqe).2.submit.map Sqe.op } : Zcrx.St) = _
  rw [e]
  rfl

/-- **The packed server refines the server**: decoding never goes wrong. -/
theorem reach_abs {cap : Nat} {rq : RefillQueue} (h : Trans.Reach (step listenFd) (start cap rq) p) :
    Trans.Reach (Zcrx.step listenFd) (Zcrx.start cap rq) (abs p) := by
  induction h with
  | refl =>
    rw [abs_start]
    exact Trans.Reach.refl
  | tail hr hst ih => exact ih.tail (abs_step (reach_inv hr) hst)

end

end Packed
end Zcrx
end UringPerf
