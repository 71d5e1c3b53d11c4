import UringPerf.Worker.Refine
import UringPerf.Zcrx.Conns

/-!
# The zero-copy receive loops over the ring refine their loops over lists

`Zcrx.Packed.step` and `Zcrx.clientStep` take a completion from a list and forget it.  The loops of the code go over the
ring with `io_uring_for_each_cqe`, also over what the kernel posts meanwhile, and release everything at the end with one
`io_uring_cq_advance`.

* `ZcrxEvent`, `zcrxOutside`, `zcrxClientOutside`   the signal, the kernel posting a completion, and the kernel taking
                        an entry of the refill queue;
* `ZcrxSim`, `ZcrxClientSim`   the two states of one moment;
* `zcrx_loops_refine`          every run is matched, and the server never follows a dead address.
-/

namespace UringPerf

namespace Zcrx
open Uring

namespace Packed

def view (q : List (Cqe Sqe)) (pc : Pc) (p : St) : St := { p with ring := p.ring.withCq q, pc := pc }

section
variable (q : List (Cqe Sqe)) (pc : Pc) (p : St)

theorem view_ring {r r' : IoRing Sqe} (h : r' = r.withCq q) :
    ({ view q pc p with ring := r' } : St) = view q pc { p with ring := r } :=
  congrArg (fun r => ({ view q pc p with ring := r } : St)) h

theorem submitAccept_view : submitAccept (view q pc p) = view q pc (submitAccept p) :=
  view_ring q pc p (congrArg Prod.snd (p.ring.push_withCq q _))

theorem submitRecv_view (conn : ZcrxConn) : submitRecv (view q pc p) conn = view q pc (submitRecv p conn) :=
  view_ring q pc p (congrArg Prod.snd (p.ring.push_withCq q _))

theorem openConn_view (conn : ZcrxConn) : openConn (view q pc p) conn = view q pc (openConn p conn) := by
  unfold openConn
  rw [submitRecv_view]
  rfl

theorem onAccept_view (addr : UInt64) (fd : Int) : onAccept (view q pc p) addr fd = view q pc (onAccept p addr fd) := by
  have hopen : (if 0 ≤ fd then openConn (view q pc p) ⟨addr, fd⟩ else view q pc p) =
      view q pc (if 0 ≤ fd then openConn p ⟨addr, fd⟩ else p) := by
    split
    · exact openConn_view q pc p _
    · rfl
  unfold onAccept
  dsimp only
  rw [hopen]
  generalize (if 0 ≤ fd then openConn p ⟨addr, fd⟩ else p) = p
  show (if p.stop then _ else _) = _
  split
  · rfl
  · exact submitAccept_view q pc p

theorem onRx_view (userData : UInt64) (c : Completion) : onRx (view q pc p) userData c = view q pc (onRx p userData c) := by
  have hderef : (view q pc p).deref (userData &&& ~~~kZcrxReqTypeMask) = p.deref (userData &&& ~~~kZcrxReqTypeMask) := rfl
  unfold onRx
  split
  · rw [hderef]
    cases p.deref (userData &&& ~~~kZcrxReqTypeMask) with
    | none => rfl
    | some conn =>
      dsimp only
      split
      · exact submitRecv_view q pc p conn
      · have hlookup : (view q pc p).conns.lookup conn.fd = p.conns.lookup conn.fd := rfl
        rw [hlookup]
        cases p.conns.lookup conn.fd <;> rfl
  · split <;> rfl

theorem onCqe_view (addr : UInt64) (c : Cqe Sqe) : onCqe (view q pc p) addr c = view q pc (onCqe p addr c) := by
  unfold onCqe
  dsimp only
  split
  · exact onAccept_view q pc p addr _
  · split
    · exact onRx_view q pc p _ _
    · rfl

end
end Packed
end Zcrx

namespace Worker
open Uring Trans Circular

inductive ZcrxEvent where
  | signal
  | post (i : Nat) (c : Completion)
  | refill
deriving DecidableEq, Repr

/-! ## the server -/

def zcrxOutside (listenFd : Int) (e : ZcrxEvent) (p : Zcrx.Packed.St) :
    Option (Zcrx.Packed.St × Option (Cqe Zcrx.Packed.Sqe)) :=
  match e with
  | .signal => some ({ p with stop := true }, none)
  | .post i c =>
    match p.ring.kern[i]?, Zcrx.Packed.kernelPost listenFd p i c with
    | some q, some t => some ({ t with ring := t.ring.withCq [] }, some ⟨c, q.op⟩)
    | _, _ => none
  | .refill =>
    if p.rq.khead = p.rq.ktail then none else some ({ p with rq := { p.rq with khead := p.rq.khead + 1 } }, none)

/-- the allocator returns an aligned address that no live object has -/
def allocated (x : Bool × UInt64) (p : Zcrx.Packed.St) : Prop := Zcrx.Packed.fresh p x.2

instance (x : Bool × UInt64) (p : Zcrx.Packed.St) : Decidable (allocated x p) :=
  inferInstanceAs (Decidable (Zcrx.Packed.fresh p x.2))

def ZcrxAt (a : Zcrx.Packed.St) : Whole.Pc → Prop
  | .head => a.pc = .head
  | .each => a.pc = .batch
  | .exited => (a.pc = .head ∧ a.stop = true) ∨ a.pc = .exit

/-- a state of the loop over the ring and one of the loop over the list -/
inductive ZcrxSim : Whole.St Zcrx.Packed.St (Cqe Zcrx.Packed.Sqe) → Zcrx.Packed.St → Prop where
  | mk {a : Zcrx.Packed.St} {pc : Whole.Pc} (h : ZcrxAt a pc) :
    ZcrxSim ⟨Zcrx.Packed.view [] .head a, a.ring.cq, pc⟩ a

section
variable {listenFd : Int} {p p' : Whole.St Zcrx.Packed.St (Cqe Zcrx.Packed.Sqe)} {a : Zcrx.Packed.St}

theorem ZcrxSim.of (happ : p.app = Zcrx.Packed.view [] .head a) (hcq : p.cq = a.ring.cq) (hat : ZcrxAt a p.pc) :
    ZcrxSim p a := by
  obtain ⟨app, cq, pc⟩ := p
  obtain rfl : app = _ := happ
  obtain rfl : cq = _ := hcq
  exact .mk hat

theorem ZcrxAt.ne_done {pc : Whole.Pc} (h : ZcrxAt a pc) : a.pc ≠ .done := by
  intro e
  cases pc with
  | head => exact Zcrx.Pc.noConfusion (e.symm.trans h)
  | each => exact Zcrx.Pc.noConfusion (e.symm.trans h)
  | exited =>
    rcases h with h | h
    · exact Zcrx.Pc.noConfusion (e.symm.trans h.1)
    · exact Zcrx.Pc.noConfusion (e.symm.trans h)

theorem ZcrxAt.of_eq {a' : Zcrx.Packed.St} {pc : Whole.Pc} (h : ZcrxAt a pc) (hpc : a'.pc = a.pc)
    (hstop : a.stop = true → a'.stop = true) : ZcrxAt a' pc := by
  cases pc with
  | head => exact hpc.trans h
  | each => exact hpc.trans h
  | exited => exact h.imp (fun h => ⟨hpc.trans h.1, hstop h.2⟩) hpc.trans

theorem zcrxLoop_atomic : zcrxLoop.Atomic := fun x _ => ⟨fun p c => Zcrx.Packed.onCqe p x.2 c, fun _ => rfl⟩

/-- nothing outside allocates -/
theorem allocated_outside (e : ZcrxEvent) (app : Zcrx.Packed.St) (r : Zcrx.Packed.St × Option (Cqe Zcrx.Packed.Sqe))
    (x : Bool × UInt64) (hr : zcrxOutside listenFd e app = some r) (h : allocated x app) : allocated x r.1 := by
  have hconns : r.1.conns = app.conns := by
    cases e with
    | signal =>
      cases hr
      rfl
    | post i c =>
      simp only [zcrxOutside] at hr
      split at hr
      next q t hq ht =>
        cases hr
        unfold Zcrx.Packed.kernelPost at ht
        split at ht
        · split at ht
          · split at ht
            · cases ht
              rfl
            · cases ht
          · cases ht
            rfl
        · cases ht
      · cases hr
    | refill =>
      simp only [zcrxOutside] at hr
      split at hr
      · cases hr
      · cases hr
        rfl
  unfold allocated Zcrx.Packed.fresh at h ⊢
  rw [hconns]
  exact h

theorem zcrx_wait {x : Bool × UInt64} (hs : ZcrxSim p a)
    (hst : Whole.step zcrxLoop (zcrxOutside listenFd) p (.wait x) = some p') :
    ∃ a', Reach (Zcrx.Packed.step listenFd) a a' ∧ ZcrxSim p' a' := by
  obtain ⟨hat⟩ := hs
  rename_i pc
  simp only [Whole.step] at hst
  split at hst
  next hpc =>
    subst hpc
    have hrun : zcrxLoop.running (Zcrx.Packed.view [] .head a) = !a.stop := rfl
    rw [hrun] at hst
    split at hst
    next hgo =>
      have hcond : a.pc = .head ∧ a.stop = false := ⟨hat, Bool.not_eq_true' _ ▸ hgo⟩
      have hwait : zcrxLoop.wait x (Zcrx.Packed.view [] .head a) =
          if x.1 then some { Zcrx.Packed.view [] .head a with ring := (a.ring.withCq []).submit } else none := rfl
      rw [hwait] at hst
      split at hst
      next happ =>
        cases hst
        have hstep : Zcrx.Packed.step listenFd a (.abort, x.2) = some { a with pc := .exit } := if_pos hcond
        exact ⟨_, Reach.single hstep, .of rfl rfl (Or.inr rfl)⟩
      next app happ =>
        cases hst
        split at happ
        · cases happ
          have hstep : Zcrx.Packed.step listenFd a (.wait, x.2) = some { a with ring := a.ring.submit, pc := .batch } :=
            if_pos hcond
          exact ⟨_, Reach.single hstep,
            .of (Zcrx.Packed.view_ring [] .head a (a.ring.submit_withCq [])) a.ring.submit_cq.symm rfl⟩
        · cases happ
    next hend =>
      cases hst
      exact ⟨a, Reach.refl, .of rfl rfl (Or.inl ⟨hat, by simpa using hend⟩)⟩
  · cases hst

theorem zcrx_cqe {x : Bool × UInt64} (hs : ZcrxSim p a) (hx : allocated x p.app)
    (hst : Whole.step zcrxLoop (zcrxOutside listenFd) p (.cqe x) = some p') :
    ∃ a', Reach (Zcrx.Packed.step listenFd) a a' ∧ ZcrxSim p' a' := by
  obtain ⟨hat⟩ := hs
  rename_i pc
  simp only [Whole.step] at hst
  split at hst
  next _ c cq hring =>
    cases hst
    replace hat : a.pc = .batch := hat
    have hstep : Zcrx.Packed.step listenFd a (.cqe, x.2) =
        some { Zcrx.Packed.onCqe a x.2 c with ring := (Zcrx.Packed.onCqe a x.2 c).ring.seen } := by
      unfold Zcrx.Packed.step
      dsimp only
      rw [hat, hring]
      exact if_pos fun _ => hx
    have hkeep : (Zcrx.Packed.onCqe a x.2 c).ring.cq = a.ring.cq :=
      congrArg (fun p => p.ring.cq) (Zcrx.Packed.onCqe_view a.ring.cq a.pc a x.2 c)
    have hpc : (Zcrx.Packed.onCqe a x.2 c).pc = a.pc :=
      congrArg (fun p => p.pc) (Zcrx.Packed.onCqe_view a.ring.cq a.pc a x.2 c)
    refine ⟨_, Reach.single hstep, .of (Zcrx.Packed.onCqe_view [] .head a x.2 c) ?_ (hpc.trans hat)⟩
    show cq = (Zcrx.Packed.onCqe a x.2 c).ring.cq.tail
    rw [hkeep, hring]
    rfl
  · cases hst

theorem zcrx_advance (hs : ZcrxSim p a) (hst : Whole.step zcrxLoop (zcrxOutside listenFd) p .advance = some p') :
    ∃ a', Reach (Zcrx.Packed.step listenFd) a a' ∧ ZcrxSim p' a' := by
  obtain ⟨hat⟩ := hs
  rename_i pc
  simp only [Whole.step] at hst
  split at hst
  next hc =>
    cases hst
    obtain ⟨rfl, hempty⟩ := hc
    have hstep : Zcrx.Packed.step listenFd a (.advance, 0) = some { a with pc := .head } :=
      if_pos ⟨hat, List.isEmpty_iff.mp hempty⟩
    exact ⟨_, Reach.single hstep, .of rfl rfl rfl⟩
  · cases hst

/-- an accept that succeeds opens a descriptor in both runs -/
theorem zcrx_kernelPost {i : Nat} {c : Completion} {q : Pending Zcrx.Packed.Sqe} {t : Zcrx.Packed.St}
    (hq : a.ring.kern[i]? = some q)
    (h : Zcrx.Packed.kernelPost listenFd (Zcrx.Packed.view [] .head a) i c = some t) :
    ∃ a', Zcrx.Packed.kernelPost listenFd a i c = some a' ∧
      Zcrx.Packed.view [] .head a' = { t with ring := t.ring.withCq [] } ∧
      a'.ring.cq = a.ring.cq ++ [⟨c, q.op⟩] ∧ a'.pc = a.pc ∧ a'.stop = a.stop := by
  unfold Zcrx.Packed.kernelPost at h ⊢
  split at h
  next q' r hq' hr =>
    obtain ⟨q'', hq'', -, hpost⟩ :=
      IoRing.post_withCq (show (a.ring.withCq []).post Zcrx.Packed.Sqe.kind i c = some r from hr)
    obtain rfl : q = q'' := Option.some.inj (hq.symm.trans hq'')
    obtain rfl : q = q' := Option.some.inj (hq.symm.trans hq')
    rw [hq, hpost]
    dsimp only
    split at h
    next hacc =>
      rw [if_pos hacc]
      split at h
      next hopen =>
        cases h
        rw [if_pos (show a.isOpen c.res = false ∧ c.res ≠ listenFd from hopen)]
        exact ⟨_, rfl, rfl, rfl, rfl, rfl⟩
      · cases h
    next hacc =>
      cases h
      rw [if_neg hacc]
      exact ⟨_, rfl, rfl, rfl, rfl, rfl⟩
  · cases h

theorem zcrx_outside {e : ZcrxEvent} (hs : ZcrxSim p a)
    (hst : Whole.step zcrxLoop (zcrxOutside listenFd) p (.outside e) = some p') :
    ∃ a', Reach (Zcrx.Packed.step listenFd) a a' ∧ ZcrxSim p' a' := by
  obtain ⟨hat⟩ := hs
  rename_i pc
  obtain ⟨r, hr, rfl⟩ := Option.map_eq_some_iff.mp hst
  cases e with
  | signal =>
    cases hr
    have hstep : Zcrx.Packed.step listenFd a (.signal, 0) = some { a with stop := true } := if_neg hat.ne_done
    exact ⟨_, Reach.single hstep, .of rfl (List.append_nil _) (hat.of_eq rfl fun _ => rfl)⟩
  | post i c =>
    simp only [zcrxOutside] at hr
    split at hr
    next q t hq ht =>
      cases hr
      obtain ⟨a', ha', hview, hcq, hpc, hstop⟩ := zcrx_kernelPost (a := a) hq ht
      have hstep : Zcrx.Packed.step listenFd a (.post i c, 0) = some a' := (if_neg hat.ne_done).trans ha'
      exact ⟨a', Reach.single hstep, .of hview.symm hcq.symm (hat.of_eq hpc fun h => hstop.trans h)⟩
    · cases hr
  | refill =>
    simp only [zcrxOutside] at hr
    split at hr
    · cases hr
    next hne =>
      cases hr
      have hstep : Zcrx.Packed.step listenFd a (.refill, 0) =
          some { a with rq := { a.rq with khead := a.rq.khead + 1 } } :=
        if_neg (not_or.mpr ⟨hat.ne_done, hne⟩)
      exact ⟨_, Reach.single hstep, .of rfl (List.append_nil _) (hat.of_eq rfl id)⟩

end

theorem view_zcrxStart (cap : Nat) (rq : Zcrx.RefillQueue) :
    Zcrx.Packed.view [] .head (Zcrx.Packed.start cap rq) = Zcrx.Packed.start cap rq := by
  have hfix := (Zcrx.Packed.submitAccept_view [] .head (Zcrx.Packed.blank cap rq)).symm
  have hsub := Zcrx.Packed.view_ring [] .head (Zcrx.Packed.submitAccept (Zcrx.Packed.blank cap rq))
    ((Zcrx.Packed.submitAccept (Zcrx.Packed.blank cap rq)).ring.submit_withCq [])
  exact hsub.symm.trans (congrArg (fun p => ({ p with ring := p.ring.submit } : Zcrx.Packed.St)) hfix)

theorem zcrx_refines {listenFd : Int} {cap : Nat} {rq : Zcrx.RefillQueue} {mask base : UInt32} (hm : IsMask mask)
    {cqes : UInt32 → Cqe Zcrx.Packed.Sqe} {s : Each.St Zcrx.Packed.St (Cqe Zcrx.Packed.Sqe)}
    (h : Reach (guard (fun s a => a.ok allocated s.app) (Each.step zcrxLoop (zcrxOutside listenFd)))
      (Each.start mask base cqes (Zcrx.Packed.start cap rq)) s) :
    ∃ a, Reach (Zcrx.Packed.step listenFd) (Zcrx.Packed.start cap rq) a ∧ ZcrxSim s.plain a := by
  obtain ⟨-, hplain⟩ := Each.reach_plain zcrxLoop_atomic allocated_outside hm h
  have hview := view_zcrxStart cap rq
  have hcq : [] = (Zcrx.Packed.start cap rq).ring.cq := congrArg (fun p => p.ring.cq) hview
  have hsim : ZcrxSim ⟨Zcrx.Packed.start cap rq, [], .head⟩ (Zcrx.Packed.start cap rq) := .of hview.symm hcq rfl
  refine hplain.simulate hsim fun p act p' a hs hst => ?_
  obtain ⟨hx, hst⟩ := guard_some.mp hst
  cases act with
  | wait x => exact zcrx_wait hs hst
  | cqe x => exact zcrx_cqe hs hx hst
  | advance => exact zcrx_advance hs hst
  | outside e => exact zcrx_outside hs hst

/-! ## the client -/

def zcrxClientOutside (e : ZcrxEvent) (s : Zcrx.ClientSt) : Option (Zcrx.ClientSt × Option Completion) :=
  match e with
  | .signal => some ({ s with stop := true }, none)
  | .post i c => (s.ring.post Zcrx.Op.kind i c).map fun r => ({ s with ring := r.withCq [] }, some c)
  | .refill =>
    if s.rq.khead = s.rq.ktail then none else some ({ s with rq := { s.rq with khead := s.rq.khead + 1 } }, none)

def zcrxClientView (q : List (Cqe Zcrx.Op)) (pc : Zcrx.Pc) (s : Zcrx.ClientSt) : Zcrx.ClientSt :=
  { s with ring := s.ring.withCq q, pc := pc }

theorem onClientRx_view (q : List (Cqe Zcrx.Op)) (pc : Zcrx.Pc) (s : Zcrx.ClientSt) (conn : Conn) (c : Completion) :
    Zcrx.onClientRx (zcrxClientView q pc s) conn c = zcrxClientView q pc (Zcrx.onClientRx s conn c) := by
  unfold Zcrx.onClientRx
  split
  · split
    · exact congrArg (fun r => ({ zcrxClientView q pc s with ring := r } : Zcrx.ClientSt))
        (congrArg Prod.snd (s.ring.push_withCq q _))
    · rfl
  · split <;> rfl

def ZcrxClientAt (a : Zcrx.ClientSt) : Whole.Pc → Prop
  | .head => a.pc = .head
  | .each => a.pc = .batch
  | .exited => (a.pc = .head ∧ (a.stop = true ∨ a.peerClosed = true)) ∨ a.pc = .exit

inductive ZcrxClientSim : Whole.St Zcrx.ClientSt Completion → Zcrx.ClientSt → Prop where
  | mk {a : Zcrx.ClientSt} {pc : Whole.Pc} (h : ZcrxClientAt a pc) :
    ZcrxClientSim ⟨zcrxClientView [] .head a, a.ring.cq.map (·.toCompletion), pc⟩ a

section
variable {conn : Conn} {p p' : Whole.St Zcrx.ClientSt Completion} {a : Zcrx.ClientSt}

theorem ZcrxClientSim.of (happ : p.app = zcrxClientView [] .head a) (hcq : p.cq = a.ring.cq.map (·.toCompletion))
    (hat : ZcrxClientAt a p.pc) : ZcrxClientSim p a := by
  obtain ⟨app, cq, pc⟩ := p
  obtain rfl : app = _ := happ
  obtain rfl : cq = _ := hcq
  exact .mk hat

theorem ZcrxClientAt.ne_done {pc : Whole.Pc} (h : ZcrxClientAt a pc) : a.pc ≠ .done := by
  intro e
  cases pc with
  | head => exact Zcrx.Pc.noConfusion (e.symm.trans h)
  | each => exact Zcrx.Pc.noConfusion (e.symm.trans h)
  | exited =>
    rcases h with h | h
    · exact Zcrx.Pc.noConfusion (e.symm.trans h.1)
    · exact Zcrx.Pc.noConfusion (e.symm.trans h)

theorem ZcrxClientAt.of_eq {a' : Zcrx.ClientSt} {pc : Whole.Pc} (h : ZcrxClientAt a pc) (hpc : a'.pc = a.pc)
    (hstop : a.stop = true → a'.stop = true) (hpeer : a'.peerClosed = a.peerClosed) : ZcrxClientAt a' pc := by
  cases pc with
  | head => exact hpc.trans h
  | each => exact hpc.trans h
  | exited => exact h.imp (fun h => ⟨hpc.trans h.1, h.2.imp hstop hpeer.trans⟩) hpc.trans

theorem zcrx_client_wait {x : Bool} (hs : ZcrxClientSim p a)
    (hst : Whole.step (zcrxClientLoop conn) zcrxClientOutside p (.wait x) = some p') :
    ∃ a', Reach (Zcrx.clientStep conn) a a' ∧ ZcrxClientSim p' a' := by
  obtain ⟨hat⟩ := hs
  rename_i pc
  simp only [Whole.step] at hst
  split at hst
  next hpc =>
    subst hpc
    have hrun : (zcrxClientLoop conn).running (zcrxClientView [] .head a) = (!a.stop && !a.peerClosed) := rfl
    rw [hrun] at hst
    split at hst
    next hgo =>
      rw [Bool.and_eq_true, Bool.not_eq_true', Bool.not_eq_true'] at hgo
      have hcond : a.pc = .head ∧ a.stop = false ∧ a.peerClosed = false := ⟨hat, hgo⟩
      have hwait : (zcrxClientLoop conn).wait x (zcrxClientView [] .head a) =
          if x then some { zcrxClientView [] .head a with ring := (a.ring.withCq []).submit } else none := rfl
      rw [hwait] at hst
      split at hst
      next happ =>
        cases hst
        have hstep : Zcrx.clientStep conn a .abort = some { a with pc := .exit } := if_pos hcond
        exact ⟨_, Reach.single hstep, .of rfl rfl (Or.inr rfl)⟩
      next app happ =>
        cases hst
        split at happ
        · cases happ
          have hstep : Zcrx.clientStep conn a .wait = some { a with ring := a.ring.submit, pc := .batch } :=
            if_pos hcond
          refine ⟨_, Reach.single hstep, .of ?_ (congrArg (List.map _) a.ring.submit_cq.symm) rfl⟩
          exact congrArg (fun r => ({ zcrxClientView [] .head a with ring := r } : Zcrx.ClientSt))
            (a.ring.submit_withCq [])
        · cases happ
    next hend =>
      cases hst
      rw [Bool.and_eq_true, Bool.not_eq_true', Bool.not_eq_true', not_and_or, Bool.not_eq_false,
        Bool.not_eq_false] at hend
      exact ⟨a, Reach.refl, .of rfl rfl (Or.inl ⟨hat, hend⟩)⟩
  · cases hst

theorem zcrx_client_cqe {x : Bool} (hs : ZcrxClientSim p a)
    (hst : Whole.step (zcrxClientLoop conn) zcrxClientOutside p (.cqe x) = some p') :
    ∃ a', Reach (Zcrx.clientStep conn) a a' ∧ ZcrxClientSim p' a' := by
  obtain ⟨hat⟩ := hs
  rename_i pc
  simp only [Whole.step] at hst
  split at hst
  next _ c cq hcons =>
    cases hst
    replace hat : a.pc = .batch := hat
    cases hring : a.ring.cq with
    | nil =>
      rw [hring] at hcons
      cases hcons
    | cons d ds =>
      rw [hring] at hcons
      cases hcons
      have hstep : Zcrx.clientStep conn a .cqe = some { Zcrx.onClientRx a conn d.toCompletion with
          ring := (Zcrx.onClientRx a conn d.toCompletion).ring.seen } := by
        unfold Zcrx.clientStep
        dsimp only
        rw [hat, hring]
      have hview := onClientRx_view a.ring.cq a.pc a conn d.toCompletion
      have hkeep : (Zcrx.onClientRx a conn d.toCompletion).ring.cq = a.ring.cq := congrArg (fun s => s.ring.cq) hview
      have hpc : (Zcrx.onClientRx a conn d.toCompletion).pc = a.pc := congrArg (fun s => s.pc) hview
      refine ⟨_, Reach.single hstep, .of (onClientRx_view [] .head a conn d.toCompletion) ?_ (hpc.trans hat)⟩
      show ds.map _ = (Zcrx.onClientRx a conn d.toCompletion).ring.cq.tail.map _
      rw [hkeep, hring]
      rfl
  · cases hst

theorem zcrx_client_advance (hs : ZcrxClientSim p a)
    (hst : Whole.step (zcrxClientLoop conn) zcrxClientOutside p .advance = some p') :
    ∃ a', Reach (Zcrx.clientStep conn) a a' ∧ ZcrxClientSim p' a' := by
  obtain ⟨hat⟩ := hs
  rename_i pc
  simp only [Whole.step] at hst
  split at hst
  next hc =>
    cases hst
    obtain ⟨rfl, hempty⟩ := hc
    have hnil : a.ring.cq = [] := List.map_eq_nil_iff.mp (List.isEmpty_iff.mp hempty)
    have hstep : Zcrx.clientStep conn a .advance = some { a with pc := .head } := if_pos ⟨hat, hnil⟩
    exact ⟨_, Reach.single hstep, .of rfl rfl rfl⟩
  · cases hst

theorem zcrx_client_outside {e : ZcrxEvent} (hs : ZcrxClientSim p a)
    (hst : Whole.step (zcrxClientLoop conn) zcrxClientOutside p (.outside e) = some p') :
    ∃ a', Reach (Zcrx.clientStep conn) a a' ∧ ZcrxClientSim p' a' := by
  obtain ⟨hat⟩ := hs
  rename_i pc
  obtain ⟨r, hr, rfl⟩ := Option.map_eq_some_iff.mp hst
  cases e with
  | signal =>
    cases hr
    have hstep : Zcrx.clientStep conn a .signal = some { a with stop := true } := if_neg hat.ne_done
    exact ⟨_, Reach.single hstep, .of rfl (List.append_nil _) (hat.of_eq rfl (fun _ => rfl) rfl)⟩
  | post i c =>
    obtain ⟨r1, hr1, rfl⟩ := Option.map_eq_some_iff.mp hr
    obtain ⟨q, -, -, hpost⟩ :=
      IoRing.post_withCq (show (a.ring.withCq []).post Zcrx.Op.kind i c = some r1 from hr1)
    have hstep : Zcrx.clientStep conn a (.post i c) =
        some { a with ring := r1.withCq (a.ring.cq ++ [Cqe.mk c q.op]) } :=
      (if_neg hat.ne_done).trans (congrArg (Option.map fun r => ({ a with ring := r } : Zcrx.ClientSt)) hpost)
    refine ⟨_, Reach.single hstep, .of rfl ?_ (hat.of_eq rfl id rfl)⟩
    show a.ring.cq.map _ ++ [c] = (a.ring.cq ++ [Cqe.mk c q.op]).map _
    rw [List.map_append]
    rfl
  | refill =>
    simp only [zcrxClientOutside] at hr
    split at hr
    · cases hr
    next hne =>
      cases hr
      have hstep : Zcrx.clientStep conn a .refill = some { a with rq := { a.rq with khead := a.rq.khead + 1 } } :=
        if_neg (not_or.mpr ⟨hat.ne_done, hne⟩)
      exact ⟨_, Reach.single hstep, .of rfl (List.append_nil _) (hat.of_eq rfl id rfl)⟩

end

theorem zcrxClientLoop_atomic (conn : Conn) : (zcrxClientLoop conn).Atomic :=
  fun _ _ => ⟨fun s c => Zcrx.onClientRx s conn c, fun _ => rfl⟩

theorem zcrx_client_refines {conn : Conn} {cap : Nat} {rq : Zcrx.RefillQueue} {mask base : UInt32} (hm : IsMask mask)
    {cqes : UInt32 → Completion} {s : Each.St Zcrx.ClientSt Completion}
    (h : Reach (Each.step (zcrxClientLoop conn) zcrxClientOutside)
      (Each.start mask base cqes (Zcrx.clientStart cap rq conn)) s) :
    ∃ a, Reach (Zcrx.clientStep conn) (Zcrx.clientStart cap rq conn) a ∧ ZcrxClientSim s.plain a := by
  have hguard := h.guard_of (fun s a => a.ok (fun _ _ => True) s.app) fun s a => by cases a <;> trivial
  obtain ⟨-, hplain⟩ := Each.reach_plain (zcrxClientLoop_atomic conn) (fun _ _ _ _ _ _ => trivial) hm hguard
  have hview : zcrxClientView [] .head (Zcrx.clientStart cap rq conn) = Zcrx.clientStart cap rq conn := by
    have hpush := congrArg Prod.snd ((IoRing.init cap false).push_withCq [] (Zcrx.Op.recv conn))
    have hsub := ((IoRing.init cap false).push (Zcrx.Op.recv conn)).2.submit_withCq []
    have hring := hsub.symm.trans (congrArg IoRing.submit hpush.symm)
    exact congrArg (fun r => ({ Zcrx.clientStart cap rq conn with ring := r } : Zcrx.ClientSt)) hring
  have hcq : [] = (Zcrx.clientStart cap rq conn).ring.cq := congrArg (fun s => s.ring.cq) hview
  have hsim : ZcrxClientSim ⟨Zcrx.clientStart cap rq conn, [], .head⟩ (Zcrx.clientStart cap rq conn) :=
    .of hview.symm (congrArg (List.map _) hcq) rfl
  refine hplain.simulate hsim fun p act p' a hs hst => ?_
  obtain ⟨-, hst⟩ := guard_some.mp hst
  cases act with
  | wait x => exact zcrx_client_wait hs hst
  | cqe x => exact zcrx_client_cqe hs hst
  | advance => exact zcrx_client_advance hs hst
  | outside e => exact zcrx_client_outside hs hst

/-- **The zero-copy loops over the ring refine their loops over a list.**  The completions are released only together,
after the last of them, and the kernel posts more meanwhile; every state of `run_server_zcrx` and of
`run_client_reverse_recv_zcrx` is matched by a reachable state of the loop that forgets each completion as it is
processed.  For the server the allocator has to return addresses that are not in use; then it never follows the address
of an object that is gone. -/
theorem zcrx_loops_refine (cap : Nat) (rq : Zcrx.RefillQueue) (mask base : UInt32) (hm : IsMask mask) :
    (∀ listenFd cqes s, Reach (guard (fun s a => a.ok allocated s.app) (Each.step zcrxLoop (zcrxOutside listenFd)))
        (Each.start mask base cqes (Zcrx.Packed.start cap rq)) s →
      s.app.fault = false ∧
      ∃ a, Reach (Zcrx.Packed.step listenFd) (Zcrx.Packed.start cap rq) a ∧ ZcrxSim s.plain a) ∧
    (∀ conn cqes s, Reach (Each.step (zcrxClientLoop conn) zcrxClientOutside)
        (Each.start mask base cqes (Zcrx.clientStart cap rq conn)) s →
      ∃ a, Reach (Zcrx.clientStep conn) (Zcrx.clientStart cap rq conn) a ∧ ZcrxClientSim s.plain a) := by
  refine ⟨fun listenFd cqes s h => ?_, fun conn cqes s h => zcrx_client_refines hm h⟩
  obtain ⟨a, ha, hsim⟩ := zcrx_refines hm h
  have happ : s.app = Zcrx.Packed.view [] .head a := by
    generalize hp : s.plain = p at hsim
    obtain ⟨hat⟩ := hsim
    exact congrArg (·.app) hp
  refine ⟨?_, a, ha, hsim⟩
  rw [happ]
  exact (Zcrx.Packed.reach_inv ha).sound

/-- a connection has been accepted, and the slot of its completion is not released yet -/
theorem zcrx_loops_refine_accept : IsMask 1 ∧ ∃ s,
    Reach (guard (fun s a => a.ok allocated s.app) (Each.step zcrxLoop (zcrxOutside 3)))
      (Each.start 1 4294967295 (fun _ => ⟨.plain 0, Zcrx.Packed.acceptSqe⟩)
        (Zcrx.Packed.start 4 ⟨0, 0, 0, 8, 0, fun _ => ⟨0, 0⟩⟩)) s ∧
    s.app.accepted = [⟨7, 1⟩] ∧ s.log.cq.unreleased.length = 1 ∧ s.unread = [] ∧ s.app.fault = false := by
  have hm : IsMask 1 := ⟨1, by decide, rfl⟩
  have hrun : ∃ s, Reach (guard (fun s a => a.ok allocated s.app) (Each.step zcrxLoop (zcrxOutside 3)))
      (Each.start 1 4294967295 (fun _ => ⟨.plain 0, Zcrx.Packed.acceptSqe⟩)
        (Zcrx.Packed.start 4 ⟨0, 0, 0, 8, 0, fun _ => ⟨0, 0⟩⟩)) s ∧
      s.app.accepted = [⟨7, 1⟩] ∧ s.log.cq.unreleased.length = 1 ∧ s.unread = [] :=
    exists_reach (.outside (.post 0 (.plain 7)) :: List.replicate 3 (.worker (true, 64))) (by decide +kernel)
  obtain ⟨s, hs, hacc, hlen, hread⟩ := hrun
  exact ⟨hm, s, hs, hacc, hlen, hread, ((zcrx_loops_refine _ _ _ _ hm).1 _ _ s hs).1⟩

end Worker
end UringPerf
