import UringPerf.Engine.Plain
import UringPerf.Worker.Loops

/-!
# The loops over the ring refine the loops over lists

`Client.step` and `Server.step` process and remove the head of a list of completions in one step.  The loops of
`Worker.Loops` read a ring in shared memory through pointers, while the kernel fills it.  Here every run of the latter
is matched by a run of the former, so that what is proved over the lists holds of the code's own data structure.

* `Event`, `clientOutside`, `serverOutside`   what happens between the steps of a worker: the signal, the kernel taking
                              an entry and the kernel posting the completion of an operation it holds;
* `hide`                      a state without its list of completions, as the loops over the ring use it;
* `ClientSim`, `ServerSim`    the two states of one moment;
* `client_loops_refine`, `server_loop_refines`   every run is matched.

The stop signal may arrive while a client collects pointers.  Its `while` test has been passed then, and the list model
makes the test and the reaping one step; it is matched by a run in which the signal arrives just after the batch was
taken.
-/

namespace UringPerf

namespace UringEngine
variable (e : UringEngine) (q : List (Uring.Cqe Sqe))

def withCq : UringEngine := { e with ring := e.ring.withCq q }

theorem queue_withCq (o : Sqe) : (e.withCq q).queue o = ((e.queue o).1, (e.queue o).2.withCq q) := by
  have h := e.ring.push_withCq q o
  exact Prod.ext (congrArg (·.1) h) (congrArg (fun r => (⟨r.2, e.reg, e.pool⟩ : UringEngine)) h)

theorem submit_withCq : (e.withCq q).submit = e.submit.withCq q :=
  congrArg (fun r => (⟨r, e.reg, e.pool⟩ : UringEngine)) (e.ring.submit_withCq q)

theorem prepSend_withCq (zeroCopy : Bool) (ctx : IOContext) (ff : Bool) :
    ((e.withCq q).prepSend zeroCopy ctx ff).2 = (e.prepSend zeroCopy ctx ff).2.withCq q := by
  rw [prepSend_eq, prepSend_eq]
  exact congrArg (·.2) (e.queue_withCq q _)

theorem prepRecv_withCq (fd : Int) (buf : Option Ptr) (len bufIdx : Nat) (ctx : IOContext) (ff : Bool) :
    ((e.withCq q).prepRecv fd buf len bufIdx ctx ff).2 = (e.prepRecv fd buf len bufIdx ctx ff).2.withCq q :=
  congrArg (·.2) (e.queue_withCq q _)

theorem prepRecvMultishot_withCq (fd : Int) (ctx : IOContext) (ff : Bool) :
    ((e.withCq q).prepRecvMultishot fd ctx ff).2 = (e.prepRecvMultishot fd ctx ff).2.withCq q :=
  congrArg (·.2) (e.queue_withCq q _)

theorem prepAccept_withCq (fd : Int) (ctx : IOContext) :
    ((e.withCq q).prepAccept fd ctx).2 = (e.prepAccept fd ctx).2.withCq q :=
  congrArg (·.2) (e.queue_withCq q _)

end UringEngine

namespace Client
open Uring

/-- the state with other unseen completions, and at another place of the loop -/
def view (q : List (Cqe Sqe)) (pc : Pc) (s : St) : St := { s with engine := s.engine.withCq q, pc := pc }

/-- the state without its list of completions -/
def hide (s : St) : St := view [] .head s

section
variable (q : List (Cqe Sqe)) (pc : Pc) (L : Setup) (s : St) (ctx : IOContext) (c : Completion)

theorem prepSend_view : (view q pc s).prepSend L ctx = view q pc (s.prepSend L ctx) :=
  congrArg (fun e => ({ view q pc s with engine := e } : St)) (s.engine.prepSend_withCq q _ _ _)

theorem rearm_view : (view q pc s).rearm L ctx = view q pc (s.rearm L ctx) :=
  congrArg (fun e => ({ view q pc s with engine := e } : St)) (s.engine.prepRecvMultishot_withCq q _ _ _)

theorem rerecv_view : (view q pc s).rerecv L ctx = view q pc (s.rerecv L ctx) :=
  congrArg (fun e => ({ view q pc s with engine := e } : St)) (s.engine.prepRecv_withCq q _ _ _ _ _ _)

theorem errorIfNeg_view (res : Int) : (view q pc s).errorIfNeg res = view q pc (s.errorIfNeg res) := by
  unfold St.errorIfNeg
  split <;> rfl

theorem takeBuffer_view : (view q pc s).takeBuffer c = view q pc (s.takeBuffer c) := by
  unfold St.takeBuffer
  split
  · rfl
  · split <;> rfl

theorem onSend_view : onSend L (view q pc s) ctx c = view q pc (onSend L s ctx c) := by
  unfold onSend
  split
  · rfl
  · split
    · show (if s.stop then _ else _) = _
      split
      · rfl
      · exact prepSend_view q pc L (s.addBytes _ _) ctx
    · split
      · show (if s.stop then _ else _) = _
        split
        · rfl
        · exact prepSend_view q pc L s ctx
      · exact errorIfNeg_view q pc s _

theorem onRecvMultishot_view : onRecvMultishot L (view q pc s) ctx c = view q pc (onRecvMultishot L s ctx c) := by
  unfold onRecvMultishot
  dsimp only
  rw [takeBuffer_view]
  split
  · rfl
  · split
    · exact rearm_view q pc L _ ctx
    · rw [errorIfNeg_view]
      rfl

theorem onRecv_view : onRecv L (view q pc s) ctx c = view q pc (onRecv L s ctx c) := by
  unfold onRecv
  split
  · show (if s.stop then _ else _) = _
    split
    · rfl
    · exact rerecv_view q pc L (s.addBytes _ _) ctx
  · split
    · show (if s.stop then _ else _) = _
      split
      · rfl
      · exact rerecv_view q pc L s ctx
    · rw [errorIfNeg_view]
      rfl

end
end Client

namespace Server
open Uring

/-- the state with other unseen completions, and at another place of the loop -/
def view (q : List (Cqe Sqe)) (pc : Pc) (s : St) : St := { s with engine := s.engine.withCq q, pc := pc }

/-- the state without its list of completions -/
def hide (s : St) : St := view [] .head s

section
variable (q : List (Cqe Sqe)) (pc : Pc) (L : Setup) (now : Nat) (s : St) (ctx : IOContext) (c : Completion)

theorem view_engine {e e' : UringEngine} (h : e' = e.withCq q) :
    ({ view q pc s with engine := e' } : St) = view q pc { s with engine := e } :=
  congrArg (fun e => ({ view q pc s with engine := e } : St)) h

theorem openSession_view (fd : Int) (reverse : Bool) (peerDuration : Nat) :
    (view q pc s).openSession L now fd reverse peerDuration = view q pc (s.openSession L now fd reverse peerDuration) := by
  unfold St.openSession
  dsimp only
  split
  · have hfold : (L.sessionCtxs .send ⟨fd, s.gen fd⟩).foldl
        (fun e ctx => (e.prepSend L.config.zeroCopy ctx false).2) (s.engine.withCq q) = _ :=
      List.foldl_hom (UringEngine.withCq · q) fun e ctx => e.prepSend_withCq q _ _ _
    exact congrArg (fun e => ({ view q pc s with engine := e, sessions := _ } : St)) hfold
  · split
    · exact congrArg (fun e => ({ view q pc s with engine := e, sessions := _ } : St))
        (s.engine.prepRecvMultishot_withCq q _ _ _)
    · have hfold : (L.sessionCtxs .recv ⟨fd, s.gen fd⟩).foldl
          (fun e ctx => (e.prepRecv fd ctx.bufPtr ctx.length ctx.bufIdx ctx false).2) (s.engine.withCq q) = _ :=
        List.foldl_hom (UringEngine.withCq · q) fun e ctx => e.prepRecv_withCq q _ _ _ _ _ _
      exact congrArg (fun e => ({ view q pc s with engine := e, sessions := _ } : St)) hfold

theorem prepAccept_view : (view q pc s).prepAccept L = view q pc (s.prepAccept L) :=
  view_engine q pc s (s.engine.prepAccept_withCq q _ _)

theorem resend_view : (view q pc s).resend L ctx = view q pc (s.resend L ctx) :=
  view_engine q pc s (s.engine.prepSend_withCq q _ _ _)

theorem rearm_view : (view q pc s).rearm L ctx = view q pc (s.rearm L ctx) :=
  view_engine q pc s (s.engine.prepRecvMultishot_withCq q _ _ _)

theorem rerecv_view : (view q pc s).rerecv L ctx = view q pc (s.rerecv L ctx) :=
  view_engine q pc s (s.engine.prepRecv_withCq q _ _ _ _ _ _)

theorem errorIfNeg_view (res : Int) : (view q pc s).errorIfNeg res = view q pc (s.errorIfNeg res) := by
  unfold St.errorIfNeg
  split <;> rfl

theorem takeBuffer_view : (view q pc s).takeBuffer L c = view q pc (s.takeBuffer L c) := by
  unfold St.takeBuffer
  split
  · rfl
  · split <;> rfl

theorem onAccept_view (hs : Option (Bool × Nat)) (res : Int) :
    onAccept L now hs (view q pc s) res = view q pc (onAccept L now hs s res) := by
  have hconnect : onConnect L now hs (view q pc s) res = view q pc (onConnect L now hs s res) := by
    unfold onConnect
    split
    · rfl
    · exact openSession_view q pc L now (s.noteAccepted res) _ _ _
  unfold onAccept
  split
  · rw [hconnect]
    exact prepAccept_view q pc L _
  · exact prepAccept_view q pc L s

theorem onSend_view : onSend L now (view q pc s) ctx c = view q pc (onSend L now s ctx c) := by
  unfold onSend
  split
  · rfl
  · split
    · show (if keepSending now s ctx then _ else _) = _
      split
      · exact resend_view q pc L (s.addBytes _ _) ctx
      · rfl
    · split
      · show (if keepSending now s ctx then _ else _) = _
        split
        · exact resend_view q pc L s ctx
        · rfl
      · exact errorIfNeg_view q pc s _

theorem onRecvMultishot_view : onRecvMultishot L (view q pc s) ctx c = view q pc (onRecvMultishot L s ctx c) := by
  unfold onRecvMultishot
  dsimp only
  rw [takeBuffer_view]
  generalize s.takeBuffer L c = s
  split
  · rfl
  · split
    · exact rearm_view q pc L s ctx
    · rw [errorIfNeg_view]
      split
      · show (if s.stop then _ else _) = _
        split
        · rfl
        · exact rearm_view q pc L _ ctx
      · split
        next h => rw [show s.sessions.lookup ctx.fd = none from h]
        next ss h =>
          rw [show s.sessions.lookup ctx.fd = some ss from h]
          rfl

theorem onRecv_view : onRecv L (view q pc s) ctx c = view q pc (onRecv L s ctx c) := by
  unfold onRecv
  split
  · exact rerecv_view q pc L (s.addBytes _ _) ctx
  · split
    · exact rerecv_view q pc L s ctx
    · rw [errorIfNeg_view]
      split
      next h => rw [show s.sessions.lookup ctx.fd = none from h]
      next ss h =>
        rw [show s.sessions.lookup ctx.fd = some ss from h]
        rfl

theorem onCqe_view (hs : Option (Bool × Nat)) (c : Cqe Sqe) :
    onCqe L now hs (view q pc s) c = view q pc (onCqe L now hs s c) := by
  unfold onCqe
  split
  · exact onAccept_view q pc L now s hs _
  · exact onSend_view q pc L now s _ _
  · split
    · exact onRecvMultishot_view q pc L s _ _
    · exact onRecv_view q pc L s _ _
  · rfl

theorem sweep_view : sweep now (view q pc s) = view q pc (sweep now s) := by
  unfold sweep
  refine List.foldl_hom (view q pc) fun s e => ?_
  unfold sweepOne
  split <;> rfl

end
end Server

namespace Worker
open Uring Trans Circular

/-- what the kernel writes into a slot -/
def Entry.of (c : Cqe Sqe) : Entry := ⟨c.toCompletion, some c.op.userData⟩

inductive Event where
  | signal
  | post (i : Nat) (c : Completion)
  | consume
deriving DecidableEq, Repr

/-! ## the clients -/

/-- a completion goes into the ring in shared memory, not into the list -/
def clientOutside (e : Event) (s : Client.St) : Option (Client.St × Option Entry) :=
  match e with
  | .signal => some ({ s with stop := true }, none)
  | .consume => s.ring.consume.map fun r => (s.withRing r, none)
  | .post i c =>
    match s.ring.kern[i]?, s.ring.post Sqe.kind i c with
    | some p, some r => some (s.withRing (r.withCq []), some (Entry.of ⟨c, p.op⟩))
    | _, _ => none

/-- what the two client loops have in common: `handle` is the body over the list, `P` what holds of `peer_closed` -/
structure Implements (L : Client.Setup) (loop : Loop Client.St Entry Unit) (handle : Client.St → Cqe Sqe → Client.St)
    (P : Bool → Prop) : Prop where
  maxReap : loop.maxReap.toNat = L.config.inFlight
  running : ∀ s, P s.peerClosed → loop.running s = s.running
  prelude : ∀ s, loop.prelude () s = s
  idle : ∀ s, loop.idle s = { s with engine := s.engine.submit }
  flush : ∀ s, loop.flush s = { s with engine := s.engine.submit }
  body : ∀ s c, loop.handle () s (Entry.of c) = handle s c
  views : ∀ q pc s c, handle (Client.view q pc s) c = Client.view q pc (handle s c)
  peer : ∀ s c, P s.peerClosed → P (handle s c).peerClosed

/-- where the two loops are; while pointers are collected the signal may have arrived in the ring's run only -/
def ClientAt (stop : Bool) (a : Client.St) : Plain.Pc → Prop
  | .head => a.pc = .head ∧ a.stop = stop
  | .reap => a.pc = .head ∧ a.running = true
  | .batch n => a.pc = .batch n ∧ a.stop = stop
  | .exited => a.pc = .head ∧ a.running = false ∧ a.stop = stop

/-- a state of the loop over the ring and one of the loop over the list: but for the signal they differ in where the
completions are kept -/
inductive ClientSim : Plain.St Client.St Entry → Client.St → Prop where
  | mk {a : Client.St} {stop : Bool} {pc : Plain.Pc} (h : ClientAt stop a pc) :
    ClientSim ⟨{ Client.hide a with stop := stop }, a.ring.cq.map Entry.of, pc⟩ a

section
variable {L : Client.Setup} {loop : Loop Client.St Entry Unit} {handle : Client.St → Cqe Sqe → Client.St}
  {P : Bool → Prop} (bufs : List Ptr) {p p' : Plain.St Client.St Entry} {a : Client.St}

theorem ClientSim.of {stop : Bool} (happ : p.app = { Client.hide a with stop := stop })
    (hcq : p.cq = a.ring.cq.map Entry.of) (hat : ClientAt stop a p.pc) : ClientSim p a := by
  obtain ⟨app, cq, pc⟩ := p
  obtain rfl : app = _ := happ
  obtain rfl : cq = _ := hcq
  exact .mk hat

/-- the rest of the state does not change when the queue is submitted -/
theorem hide_submit (a : Client.St) : ({ Client.hide a with engine := (Client.hide a).engine.submit } : Client.St) =
    Client.hide { a with engine := a.engine.submit } :=
  congrArg (fun e => ({ Client.hide a with engine := e } : Client.St)) (a.engine.submit_withCq [])

/-- the signal that has arrived meanwhile -/
theorem catch_up (stop : Bool) (hpc : a.pc ≠ .done) (hstop : a.stop = false) :
    Reach (Client.step L bufs handle) a { a with stop := stop } := by
  cases stop with
  | true => exact Reach.single (a := .signal) (if_neg hpc)
  | false =>
    rw [← hstop]
    exact Reach.refl

theorem client_test (hl : Implements L loop handle P) (hs : ClientSim p a) (hP : P a.peerClosed)
    (hst : Plain.step loop clientOutside p (.test ()) = some p') : ClientSim p' a := by
  obtain ⟨hat⟩ := hs
  rename_i stop pc
  simp only [Plain.step] at hst
  split at hst
  next hpc =>
    subst hpc
    obtain ⟨hhead, rfl⟩ := hat
    have hrun : loop.running (Client.hide a) = a.running := hl.running (Client.hide a) hP
    split at hst
    next hgo =>
      cases hst
      rw [hl.prelude]
      exact ⟨hhead, hrun ▸ hgo⟩
    next hend =>
      cases hst
      exact ⟨hhead, Bool.eq_false_iff.mpr (hrun ▸ hend), rfl⟩
  · cases hst

theorem client_reap (hl : Implements L loop handle P) (hs : ClientSim p a)
    (hst : Plain.step loop clientOutside p .reap = some p') :
    ∃ a', Reach (Client.step L bufs handle) a a' ∧ a'.peerClosed = a.peerClosed ∧ ClientSim p' a' := by
  obtain ⟨hat⟩ := hs
  rename_i stop pc
  simp only [Plain.step] at hst
  split at hst
  next hpc =>
    subst hpc
    obtain ⟨hhead, hrun⟩ := hat
    have hnot : a.pc ≠ .done := fun e => Client.Pc.noConfusion (hhead.symm.trans e)
    have hstop : a.stop = false := by
      unfold Client.St.running at hrun
      rw [Bool.and_eq_true, Bool.not_eq_true'] at hrun
      exact hrun.1
    have hcount : min loop.maxReap.toNat (a.ring.cq.map Entry.of).length = Client.reaped L a := by
      rw [hl.maxReap, List.length_map]
      rfl
    rw [hcount] at hst
    split at hst
    next hzero =>
      cases hst
      have hstep : Client.step L bufs handle a .reap = some { a with engine := a.engine.submit } :=
        (if_pos ⟨hhead, hrun⟩).trans (if_pos hzero)
      refine ⟨_, (Reach.single hstep).trans (catch_up bufs stop hnot hstop), rfl, ?_⟩
      refine .of ((hl.idle _).trans ?_) (congrArg (List.map Entry.of) a.ring.submit_cq.symm) ⟨hhead, rfl⟩
      exact congrArg (fun s => ({ s with stop := stop } : Client.St)) (hide_submit a)
    next hne =>
      cases hst
      have hstep : Client.step L bufs handle a .reap = some { a with pc := .batch (Client.reaped L a) } :=
        (if_pos ⟨hhead, hrun⟩).trans (if_neg hne)
      refine ⟨_, (Reach.single hstep).trans (catch_up bufs stop Client.Pc.noConfusion hstop), rfl, ?_⟩
      exact .of rfl rfl ⟨rfl, rfl⟩
  · cases hst

theorem client_cqe (hl : Implements L loop handle P) (hs : ClientSim p a) (hP : P a.peerClosed)
    (hst : Plain.step loop clientOutside p (.cqe ()) = some p') :
    ∃ a', Reach (Client.step L bufs handle) a a' ∧ P a'.peerClosed ∧ ClientSim p' a' := by
  obtain ⟨hat⟩ := hs
  rename_i stop pc
  simp only [Plain.step] at hst
  split at hst
  next _ n c cq hcons =>
    cases hst
    obtain ⟨hbatch, rfl⟩ := hat
    cases hring : a.ring.cq with
    | nil =>
      rw [hring] at hcons
      cases hcons
    | cons d ds =>
      rw [hring] at hcons
      cases hcons
      have hstep : Client.step L bufs handle a .cqe =
          some { handle a d with engine := (handle a d).engine.cqeSeen, pc := .batch n } := by
        unfold Client.step
        dsimp only
        rw [hbatch, hring]
      have hbody : loop.handle () (Client.hide a) (Entry.of d) = Client.hide (handle a d) :=
        (hl.body _ d).trans (hl.views [] .head a d)
      have hkeep : (handle a d).ring.cq = a.ring.cq := congrArg (fun s => s.ring.cq) (hl.views a.ring.cq a.pc a d)
      refine ⟨_, Reach.single hstep, hl.peer a d hP, .of hbody ?_ ⟨rfl, rfl⟩⟩
      show ds.map Entry.of = (handle a d).ring.cq.tail.map Entry.of
      rw [hkeep, hring]
      rfl
  · cases hst

theorem client_flush (hl : Implements L loop handle P) (hs : ClientSim p a)
    (hst : Plain.step loop clientOutside p .flush = some p') :
    ∃ a', Reach (Client.step L bufs handle) a a' ∧ a'.peerClosed = a.peerClosed ∧ ClientSim p' a' := by
  obtain ⟨hat⟩ := hs
  rename_i stop pc
  simp only [Plain.step] at hst
  split at hst
  next hpc =>
    cases hst
    subst hpc
    obtain ⟨hbatch, rfl⟩ := hat
    have hstep : Client.step L bufs handle a .submit = some { a with engine := a.engine.submit, pc := .head } :=
      if_pos hbatch
    refine ⟨_, Reach.single hstep, rfl, ?_⟩
    exact .of ((hl.flush _).trans (hide_submit a)) (congrArg (List.map Entry.of) a.ring.submit_cq.symm) ⟨rfl, rfl⟩
  · cases hst

theorem ClientAt.withRing {stop : Bool} {pc : Plain.Pc} (h : ClientAt stop a pc) (r : IoRing Sqe) :
    ClientAt stop (a.withRing r) pc := by
  cases pc <;> exact h

theorem ClientAt.ne_done {stop : Bool} {pc : Plain.Pc} (h : ClientAt stop a pc) : a.pc ≠ .done := by
  intro e
  cases pc <;> exact Client.Pc.noConfusion (e.symm.trans h.1)

/-- what happens outside the worker's thread; a signal is held back while pointers are collected -/
theorem client_outside {e : Event} (hs : ClientSim p a) (hst : Plain.step loop clientOutside p (.outside e) = some p') :
    ∃ a', Reach (Client.step L bufs handle) a a' ∧ a'.peerClosed = a.peerClosed ∧ ClientSim p' a' := by
  obtain ⟨hat⟩ := hs
  rename_i stop pc
  obtain ⟨r, hr, rfl⟩ := Option.map_eq_some_iff.mp hst
  cases e with
  | signal =>
    cases hr
    have hsignal : Client.step L bufs handle a .signal = some { a with stop := true } := if_neg hat.ne_done
    cases pc with
    | reap => exact ⟨a, Reach.refl, rfl, .of rfl (List.append_nil _) hat⟩
    | head => exact ⟨_, Reach.single hsignal, rfl, .of rfl (List.append_nil _) ⟨hat.1, rfl⟩⟩
    | batch n => exact ⟨_, Reach.single hsignal, rfl, .of rfl (List.append_nil _) ⟨hat.1, rfl⟩⟩
    | exited => exact ⟨_, Reach.single hsignal, rfl, .of rfl (List.append_nil _) ⟨hat.1, rfl, rfl⟩⟩
  | consume =>
    obtain ⟨r1, hr1, rfl⟩ := Option.map_eq_some_iff.mp hr
    replace hr1 : (a.ring.withCq []).consume = some r1 := hr1
    rw [IoRing.consume_withCq] at hr1
    obtain ⟨r0, hr0, rfl⟩ := Option.map_eq_some_iff.mp hr1
    obtain ⟨-, -, -, hcq, -⟩ := IoRing.consume_some hr0
    have hstep : Client.step L bufs handle a .consume = some (a.withRing r0) :=
      (if_neg hat.ne_done).trans (congrArg (Option.map a.withRing) hr0)
    refine ⟨_, Reach.single hstep, rfl, .of rfl ?_ (hat.withRing r0)⟩
    show a.ring.cq.map Entry.of ++ [] = r0.cq.map Entry.of
    rw [hcq, List.append_nil]
  | post i c =>
    simp only [clientOutside] at hr
    split at hr
    next q r1 hq hr1 =>
      cases hr
      obtain ⟨q', hq', -, hpost⟩ := IoRing.post_withCq (show (a.ring.withCq []).post Sqe.kind i c = some r1 from hr1)
      obtain rfl : q = q' := Option.some.inj (hq.symm.trans hq')
      have hstep : Client.step L bufs handle a (.post i c) =
          some (a.withRing (r1.withCq (a.ring.cq ++ [Cqe.mk c q.op]))) :=
        (if_neg hat.ne_done).trans (congrArg (Option.map a.withRing) hpost)
      refine ⟨_, Reach.single hstep, rfl, .of rfl ?_ (hat.withRing _)⟩
      show a.ring.cq.map Entry.of ++ [Entry.of ⟨c, q.op⟩] = (a.ring.cq ++ [Cqe.mk c q.op]).map Entry.of
      rw [List.map_append]
      rfl
    · cases hr

theorem client_step (hl : Implements L loop handle P) {act : Plain.Act Unit Event} (hP : P a.peerClosed)
    (hs : ClientSim p a) (hst : Plain.step loop clientOutside p act = some p') :
    ∃ a', Reach (Client.step L bufs handle) a a' ∧ P a'.peerClosed ∧ ClientSim p' a' := by
  cases act with
  | test x => exact ⟨a, Reach.refl, hP, client_test hl hs hP hst⟩
  | reap =>
    obtain ⟨a', hr, hpeer, hs'⟩ := client_reap bufs hl hs hst
    exact ⟨a', hr, hpeer ▸ hP, hs'⟩
  | cqe x => exact client_cqe bufs hl hs hP hst
  | flush =>
    obtain ⟨a', hr, hpeer, hs'⟩ := client_flush bufs hl hs hst
    exact ⟨a', hr, hpeer ▸ hP, hs'⟩
  | outside e =>
    obtain ⟨a', hr, hpeer, hs'⟩ := client_outside bufs hs hst
    exact ⟨a', hr, hpeer ▸ hP, hs'⟩

/-- **The loop of a client over the ring refines its loop over the list.** -/
theorem client_refines (hl : Implements L loop handle P) (ha : loop.Atomic) (hn : L.config.inFlight < 2^31)
    {mask base : UInt32} (hm : IsMask mask) {cqes : UInt32 → Entry} {a₀ : Client.St} (hP : P a₀.peerClosed)
    (h₀ : Client.hide a₀ = a₀) {s : Batch.St Client.St Entry}
    (h : Reach (Batch.step loop clientOutside) (Batch.start mask base cqes a₀) s) :
    ∃ a, Reach (Client.step L bufs handle) a₀ a ∧ ClientSim s.plain a := by
  obtain ⟨-, hplain⟩ := Batch.reach_plain ha (hl.maxReap ▸ hn) hm h
  have hpc : Client.Pc.head = a₀.pc := congrArg Client.St.pc h₀
  have hcq : [] = a₀.ring.cq := congrArg (fun s => s.ring.cq) h₀
  have hstart : ClientSim ⟨a₀, [], .head⟩ a₀ := .of h₀.symm (congrArg (List.map Entry.of) hcq) ⟨hpc.symm, rfl⟩
  obtain ⟨a, hreach, -, hsim⟩ := hplain.simulate (R := fun p a => P a.peerClosed ∧ ClientSim p a) ⟨hP, hstart⟩
    fun p act p' a hR hst => client_step bufs hl hR.1 hR.2 hst
  exact ⟨a, hreach, hsim⟩

end

theorem sendLoop_atomic (L : Client.Setup) : (sendLoop L).Atomic := by
  intro x c
  show (∃ f, ∀ s, sendBody L c = _) ∨ ∀ s : Client.St, sendBody L c = _
  unfold sendBody
  split
  · exact Or.inr fun _ => rfl
  · split
    · exact Or.inl ⟨_, fun _ => rfl⟩
    · exact Or.inl ⟨_, fun _ => rfl⟩

theorem recvLoop_atomic (L : Client.Setup) : (recvLoop L).Atomic := by
  intro x c
  show (∃ f, ∀ s, recvBody L c = _) ∨ ∀ s : Client.St, recvBody L c = _
  unfold recvBody
  split
  · exact Or.inr fun _ => rfl
  · split
    · exact Or.inl ⟨_, fun _ => rfl⟩
    · exact Or.inl ⟨_, fun _ => rfl⟩

theorem toNat_inFlight {n : Nat} (hn : n < 2^31) : (UInt32.ofNat n).toNat = n := by
  rw [UInt32.toNat_ofNat']
  exact Nat.mod_eq_of_lt (by omega)

theorem onSend_peerClosed (L : Client.Setup) (s : Client.St) (ctx : IOContext) (c : Completion) :
    (Client.onSend L s ctx c).peerClosed = s.peerClosed := by
  unfold Client.onSend Client.St.errorIfNeg
  repeat' split
  all_goals rfl

theorem sendLoop_implements (L : Client.Setup) (hn : L.config.inFlight < 2^31) :
    Implements L (sendLoop L) (Client.sendCqe L) (· = false) where
  maxReap := toNat_inFlight hn
  running := fun s hs => by
    show (!s.stop) = (!s.stop && !s.peerClosed)
    rw [hs, Bool.not_false, Bool.and_true]
  prelude := fun _ => rfl
  idle := fun _ => rfl
  flush := fun _ => rfl
  body := fun s c => by
    show (sendBody L (Entry.of c)).foldl _ s = Client.onSend L s c.op.userData c.toCompletion
    unfold sendBody Client.onSend
    show (if c.notif then _ else _ : List (Stmt Client.St Entry)).foldl _ s = if c.notif then _ else _
    split
    · rfl
    next hnot =>
      show Client.onSend L s c.op.userData c.toCompletion = _
      unfold Client.onSend
      rw [if_neg hnot]
  views := fun q pc s c => Client.onSend_view q pc L s _ _
  peer := fun s c hs => (onSend_peerClosed L s _ _).trans hs

theorem recvLoop_implements (L : Client.Setup) (hn : L.config.inFlight < 2^31) :
    Implements L (recvLoop L) (Client.recvCqe L) (fun _ => True) where
  maxReap := toNat_inFlight hn
  running := fun _ _ => rfl
  prelude := fun _ => rfl
  idle := fun _ => rfl
  flush := fun _ => rfl
  body := fun s c => by
    show (recvBody L (Entry.of c)).foldl _ s = Client.recvCqe L s c
    unfold recvBody Client.recvCqe
    show (if L.useMultishot then _ else _ : List (Stmt Client.St Entry)).foldl _ s = _
    split <;> rfl
  views := fun q pc s c => by
    unfold Client.recvCqe
    split
    · exact Client.onRecvMultishot_view q pc L s _ _
    · exact Client.onRecv_view q pc L s _ _
  peer := fun _ _ h => h

/-- nothing has been completed when a loop is entered -/
theorem hide_submitted {s : Client.St} (h : Client.hide s = s) :
    Client.hide { s with engine := s.engine.submit } = { s with engine := s.engine.submit } := by
  have hsub := hide_submit s
  rw [h] at hsub
  exact hsub.symm

theorem hide_sendStart (L : Client.Setup) (cap : Nat) :
    Client.hide (Client.sendStart L cap) = Client.sendStart L cap := by
  have hfold : L.sendCtxs.foldl (fun s ctx => s.prepSend L ctx) (Client.hide (Client.blank L L.sendReg cap)) =
      Client.hide (L.sendCtxs.foldl (fun s ctx => s.prepSend L ctx) (Client.blank L L.sendReg cap)) :=
    List.foldl_hom Client.hide fun s ctx => Client.prepSend_view [] .head L s ctx
  exact hide_submitted hfold.symm

theorem hide_recvStart (L : Client.Setup) (cap : Nat) :
    Client.hide (Client.recvStart L cap) = Client.recvStart L cap := by
  have hfold : L.recvCtxs.foldl (fun s ctx => s.rerecv L ctx) (Client.hide (Client.blank L L.recvReg cap)) =
      Client.hide (L.recvCtxs.foldl (fun s ctx => s.rerecv L ctx) (Client.blank L L.recvReg cap)) :=
    List.foldl_hom Client.hide fun s ctx => Client.rerecv_view [] .head L s ctx
  unfold Client.recvStart
  apply hide_submitted
  split
  · exact (Client.rearm_view [] .head L (Client.blank L L.recvReg cap) _).symm
  · exact hfold.symm

theorem sendStart_peerClosed (L : Client.Setup) (cap : Nat) : (Client.sendStart L cap).peerClosed = false := by
  have hfold : ∀ (ctxs : List IOContext) (s : Client.St),
      (ctxs.foldl (fun s ctx => s.prepSend L ctx) s).peerClosed = s.peerClosed := by
    intro ctxs
    induction ctxs with
    | nil => exact fun s => rfl
    | cons ctx ctxs ih => exact fun s => ih _
  exact hfold L.sendCtxs _

/-- **The clients' loops over the ring refine their loops over a list.**  Whatever the size of the ring, the initial
value of its counters and of its slots, and however the kernel, the signal and the worker interleave: every state of
`run_client` and of `run_client_reverse_recv` is matched by a reachable state of the loop over the list, with the same
statistics, queue, kernel and buffers, and with the completions the worker has not processed as its list. -/
theorem client_loops_refine (L : Client.Setup) (hn : L.config.inFlight < 2^31) (cap : Nat) (mask base : UInt32)
    (hm : IsMask mask) (cqes : UInt32 → Entry) (s : Batch.St Client.St Entry) :
    (Reach (Batch.step (sendLoop L) clientOutside) (Batch.start mask base cqes (Client.sendStart L cap)) s →
      ∃ a, Reach (Client.sendStep L) (Client.sendStart L cap) a ∧ ClientSim s.plain a) ∧
    (Reach (Batch.step (recvLoop L) clientOutside) (Batch.start mask base cqes (Client.recvStart L cap)) s →
      ∃ a, Reach (Client.recvStep L) (Client.recvStart L cap) a ∧ ClientSim s.plain a) :=
  ⟨client_refines _ (sendLoop_implements L hn) (sendLoop_atomic L) hn hm (sendStart_peerClosed L cap)
      (hide_sendStart L cap),
    client_refines _ (recvLoop_implements L hn) (recvLoop_atomic L) hn hm trivial (hide_recvStart L cap)⟩

/-- the signal arrives after the `while` test, before the one completion is collected -/
theorem client_loops_refine_signal : Client.defaultSetup.config.inFlight < 2^31 ∧ IsMask 1 ∧ ∃ s,
    Reach (Batch.step (sendLoop Client.defaultSetup) clientOutside)
      (Batch.start 1 4294967295 (fun _ => nullEntry 0) (Client.sendStart Client.defaultSetup 4)) s ∧
    s.app.stop = true ∧ s.phase.plain = .batch 1 ∧
    ∃ a, Reach (Client.sendStep Client.defaultSetup) (Client.sendStart Client.defaultSetup 4) a ∧ ClientSim s.plain a := by
  have hn : Client.defaultSetup.config.inFlight < 2^31 := by decide
  have hm : IsMask 1 := ⟨1, by decide, rfl⟩
  have hrun : ∃ s, Reach (Batch.step (sendLoop Client.defaultSetup) clientOutside)
      (Batch.start 1 4294967295 (fun _ => nullEntry 0) (Client.sendStart Client.defaultSetup 4)) s ∧
      s.app.stop = true ∧ s.phase.plain = .batch 1 :=
    exists_reach [.outside (.post 0 (.plain 64)), .worker (), .outside .signal, .worker (), .worker ()]
      (by decide +kernel)
  obtain ⟨s, hs, hstop, hpc⟩ := hrun
  exact ⟨hn, hm, s, hs, hstop, hpc, (client_loops_refine _ hn 4 1 4294967295 hm _ s).1 hs⟩

/-! ## the server -/

def serverOutside (L : Server.Setup) (e : Event) (s : Server.St) : Option (Server.St × Option Entry) :=
  match e with
  | .signal => some ({ s with stop := true }, none)
  | .consume => s.ring.consume.map fun r => (s.withRing r, none)
  | .post i c =>
    match s.ring.kern[i]?, Server.kernelPost L s i c with
    | some p, some t => some (t.withRing (t.ring.withCq []), some (Entry.of ⟨c, p.op⟩))
    | _, _ => none

def ServerAt (a : Server.St) : Plain.Pc → Prop
  | .head => a.pc = .head
  | .reap => a.pc = .reap
  | .batch n => a.pc = .batch n
  | .exited => a.pc = .head ∧ a.stop = true

/-- a state of the loop over the ring and one of the loop over the list: they differ in where the completions are
kept -/
inductive ServerSim : Plain.St Server.St Entry → Server.St → Prop where
  | mk {a : Server.St} {pc : Plain.Pc} (h : ServerAt a pc) : ServerSim ⟨Server.hide a, a.ring.cq.map Entry.of, pc⟩ a

section
variable {L : Server.Setup} {p p' : Plain.St Server.St Entry} {a : Server.St}

theorem ServerSim.of (happ : p.app = Server.hide a) (hcq : p.cq = a.ring.cq.map Entry.of) (hat : ServerAt a p.pc) :
    ServerSim p a := by
  obtain ⟨app, cq, pc⟩ := p
  obtain rfl : app = _ := happ
  obtain rfl : cq = _ := hcq
  exact .mk hat

theorem ServerAt.ne_done {pc : Plain.Pc} (h : ServerAt a pc) : a.pc ≠ .done := by
  intro e
  cases pc with
  | exited => exact Server.Pc.noConfusion (e.symm.trans h.1)
  | _ => exact Server.Pc.noConfusion (e.symm.trans h)

theorem server_hide_submit (a : Server.St) :
    ({ Server.hide a with engine := (Server.hide a).engine.submit } : Server.St) =
      Server.hide { a with engine := a.engine.submit } :=
  Server.view_engine [] .head a (a.engine.submit_withCq [])

theorem serverLoop_atomic (L : Server.Setup) : (serverLoop L).Atomic := by
  intro x c
  show (∃ f, ∀ s, serverBody L x c = _) ∨ ∀ s : Server.St, serverBody L x c = _
  unfold serverBody
  split
  · exact Or.inr fun _ => rfl
  · split
    · exact Or.inl ⟨_, fun _ => rfl⟩
    · exact Or.inl ⟨_, fun _ => rfl⟩
    · split
      · exact Or.inl ⟨_, fun _ => rfl⟩
      · exact Or.inl ⟨_, fun _ => rfl⟩
    · exact Or.inr fun _ => rfl

theorem serverLoop_handle (x : Nat × Option (Bool × Nat)) (s : Server.St) (c : Cqe Sqe) :
    (serverLoop L).handle x s (Entry.of c) = Server.onCqe L x.1 x.2 s c := by
  show (serverBody L x (Entry.of c)).foldl _ s = _
  unfold serverBody Server.onCqe
  dsimp only [Entry.of]
  cases c.op.userData.type with
  | accept => rfl
  | send => rfl
  | recv =>
    dsimp only
    split <;> rfl
  | timer => rfl

theorem server_test {x : Nat × Option (Bool × Nat)} (hs : ServerSim p a)
    (hst : Plain.step (serverLoop L) (serverOutside L) p (.test x) = some p') :
    ∃ a', Reach (Server.step L) a a' ∧ ServerSim p' a' := by
  obtain ⟨hat⟩ := hs
  rename_i pc
  simp only [Plain.step] at hst
  split at hst
  next hpc =>
    subst hpc
    have hrun : (serverLoop L).running (Server.hide a) = !a.stop := rfl
    rw [hrun] at hst
    split at hst
    next hgo =>
      cases hst
      have hstep : Server.step L a (.sweep x.1) = some { Server.sweep x.1 a with pc := .reap } :=
        if_pos ⟨hat, Bool.not_eq_true' _ ▸ hgo⟩
      have hkeep : (Server.sweep x.1 a).ring.cq = a.ring.cq :=
        congrArg (fun s => s.ring.cq) (Server.sweep_view a.ring.cq a.pc x.1 a)
      exact ⟨_, Reach.single hstep, .of (Server.sweep_view [] .head x.1 a) (congrArg (List.map Entry.of) hkeep.symm) rfl⟩
    next hend =>
      cases hst
      exact ⟨a, Reach.refl, .of rfl rfl ⟨hat, by simpa using hend⟩⟩
  · cases hst

theorem server_reap (hn : L.config.inFlight < 2^31) (hs : ServerSim p a)
    (hst : Plain.step (serverLoop L) (serverOutside L) p .reap = some p') :
    ∃ a', Reach (Server.step L) a a' ∧ ServerSim p' a' := by
  obtain ⟨hat⟩ := hs
  rename_i pc
  simp only [Plain.step] at hst
  split at hst
  next hpc =>
    subst hpc
    have hcount : min (serverLoop L).maxReap.toNat (a.ring.cq.map Entry.of).length = Server.reaped L a := by
      rw [List.length_map]
      exact congrArg (min · _) (toNat_inFlight hn)
    rw [hcount] at hst
    split at hst
    next hzero =>
      cases hst
      have hstep : Server.step L a .reap = some { a with engine := a.engine.submit, pc := .head } :=
        (if_pos hat).trans (if_pos hzero)
      exact ⟨_, Reach.single hstep,
        .of (server_hide_submit a) (congrArg (List.map Entry.of) a.ring.submit_cq.symm) rfl⟩
    next hne =>
      cases hst
      have hstep : Server.step L a .reap = some { a with pc := .batch (Server.reaped L a) } :=
        (if_pos hat).trans (if_neg hne)
      exact ⟨_, Reach.single hstep, .of rfl rfl rfl⟩
  · cases hst

theorem server_cqe {x : Nat × Option (Bool × Nat)} (hs : ServerSim p a)
    (hst : Plain.step (serverLoop L) (serverOutside L) p (.cqe x) = some p') :
    ∃ a', Reach (Server.step L) a a' ∧ ServerSim p' a' := by
  obtain ⟨hat⟩ := hs
  rename_i pc
  simp only [Plain.step] at hst
  split at hst
  next _ n c cq hcons =>
    cases hst
    replace hat : a.pc = .batch (n + 1) := hat
    cases hring : a.ring.cq with
    | nil =>
      rw [hring] at hcons
      cases hcons
    | cons d ds =>
      rw [hring] at hcons
      cases hcons
      have hstep : Server.step L a (.cqe x.1 x.2) = some { Server.onCqe L x.1 x.2 a d with
          engine := (Server.onCqe L x.1 x.2 a d).engine.cqeSeen, pc := .batch n } := by
        unfold Server.step
        dsimp only
        rw [hat, hring]
      have hkeep : (Server.onCqe L x.1 x.2 a d).ring.cq = a.ring.cq :=
        congrArg (fun s => s.ring.cq) (Server.onCqe_view a.ring.cq a.pc L x.1 a x.2 d)
      refine ⟨_, Reach.single hstep,
        .of ((serverLoop_handle x _ d).trans (Server.onCqe_view [] .head L x.1 a x.2 d)) ?_ rfl⟩
      show ds.map Entry.of = (Server.onCqe L x.1 x.2 a d).ring.cq.tail.map Entry.of
      rw [hkeep, hring]
      rfl
  · cases hst

theorem server_flush (hs : ServerSim p a) (hst : Plain.step (serverLoop L) (serverOutside L) p .flush = some p') :
    ∃ a', Reach (Server.step L) a a' ∧ ServerSim p' a' := by
  obtain ⟨hat⟩ := hs
  rename_i pc
  simp only [Plain.step] at hst
  split at hst
  next hpc =>
    cases hst
    subst hpc
    have hstep : Server.step L a .submit = some { a with engine := a.engine.submit, pc := .head } := if_pos hat
    exact ⟨_, Reach.single hstep,
      .of (server_hide_submit a) (congrArg (List.map Entry.of) a.ring.submit_cq.symm) rfl⟩
  · cases hst

/-- an accept that succeeds opens a descriptor in both runs -/
theorem kernelPost_hide {i : Nat} {c : Completion} {q : Pending Sqe} {t : Server.St} (hq : a.ring.kern[i]? = some q)
    (h : Server.kernelPost L (Server.hide a) i c = some t) :
    ∃ a', Server.kernelPost L a i c = some a' ∧ Server.hide a' = t.withRing (t.ring.withCq []) ∧
      a'.ring.cq = a.ring.cq ++ [⟨c, q.op⟩] ∧ a'.pc = a.pc ∧ a'.stop = a.stop := by
  unfold Server.kernelPost at h ⊢
  split at h
  next q' r hq' hr =>
    obtain ⟨q'', hq'', -, hpost⟩ := IoRing.post_withCq (show (a.ring.withCq []).post Sqe.kind i c = some r from hr)
    obtain rfl : q = q'' := Option.some.inj (hq.symm.trans hq'')
    obtain rfl : q = q' := Option.some.inj (hq.symm.trans hq')
    rw [hq, hpost]
    dsimp only
    split at h
    next hacc =>
      rw [if_pos hacc]
      split at h
      next hopen =>
        cases h
        rw [if_pos (show a.isOpen c.res = false ∧ c.res ≠ L.listenFd from hopen)]
        exact ⟨_, rfl, rfl, rfl, rfl, rfl⟩
      · cases h
    next hacc =>
      cases h
      rw [if_neg hacc]
      exact ⟨_, rfl, rfl, rfl, rfl, rfl⟩
  · cases h

theorem ServerAt.of_eq {a' : Server.St} {pc : Plain.Pc} (h : ServerAt a pc) (hpc : a'.pc = a.pc)
    (hstop : a.stop = true → a'.stop = true) : ServerAt a' pc := by
  cases pc with
  | exited => exact ⟨hpc.trans h.1, hstop h.2⟩
  | _ => exact hpc.trans h

theorem server_outside {e : Event} (hs : ServerSim p a)
    (hst : Plain.step (serverLoop L) (serverOutside L) p (.outside e) = some p') :
    ∃ a', Reach (Server.step L) a a' ∧ ServerSim p' a' := by
  obtain ⟨hat⟩ := hs
  rename_i pc
  obtain ⟨r, hr, rfl⟩ := Option.map_eq_some_iff.mp hst
  cases e with
  | signal =>
    cases hr
    have hstep : Server.step L a .signal = some { a with stop := true } := if_neg hat.ne_done
    exact ⟨_, Reach.single hstep, .of rfl (List.append_nil _) (hat.of_eq rfl fun _ => rfl)⟩
  | consume =>
    obtain ⟨r1, hr1, rfl⟩ := Option.map_eq_some_iff.mp hr
    replace hr1 : (a.ring.withCq []).consume = some r1 := hr1
    rw [IoRing.consume_withCq] at hr1
    obtain ⟨r0, hr0, rfl⟩ := Option.map_eq_some_iff.mp hr1
    obtain ⟨-, -, -, hcq, -⟩ := IoRing.consume_some hr0
    have hstep : Server.step L a .consume = some (a.withRing r0) :=
      (if_neg hat.ne_done).trans (congrArg (Option.map a.withRing) hr0)
    refine ⟨_, Reach.single hstep, .of rfl ?_ (hat.of_eq rfl id)⟩
    show a.ring.cq.map Entry.of ++ [] = r0.cq.map Entry.of
    rw [hcq, List.append_nil]
  | post i c =>
    simp only [serverOutside] at hr
    split at hr
    next q t hq ht =>
      cases hr
      obtain ⟨a', ha', hhide, hcq, hpc, hstop⟩ := kernelPost_hide (a := a) hq ht
      have hstep : Server.step L a (.post i c) = some a' := (if_neg hat.ne_done).trans ha'
      refine ⟨a', Reach.single hstep, .of hhide.symm ?_ (hat.of_eq hpc fun h => hstop.trans h)⟩
      show a.ring.cq.map Entry.of ++ [Entry.of ⟨c, q.op⟩] = a'.ring.cq.map Entry.of
      rw [hcq, List.map_append]
      rfl
    · cases hr

theorem server_step (hn : L.config.inFlight < 2^31) {act : Plain.Act (Nat × Option (Bool × Nat)) Event}
    (hs : ServerSim p a) (hst : Plain.step (serverLoop L) (serverOutside L) p act = some p') :
    ∃ a', Reach (Server.step L) a a' ∧ ServerSim p' a' := by
  cases act with
  | test x => exact server_test hs hst
  | reap => exact server_reap hn hs hst
  | cqe x => exact server_cqe hs hst
  | flush => exact server_flush hs hst
  | outside e => exact server_outside hs hst

end

theorem primed_withCq (L : Server.Setup) (cap : Nat) : (Server.primed L cap).withCq [] = Server.primed L cap := by
  unfold Server.primed
  dsimp only
  split
  · exact ((Server.emptyEngine L cap).prepAccept_withCq [] _ _).symm
  · split
    · exact ((Server.emptyEngine L cap).prepRecvMultishot_withCq [] _ _ _).symm
    · exact (List.foldl_hom (UringEngine.withCq · []) fun e i => e.prepRecv_withCq [] _ _ _ _ _ _).symm

theorem hide_start (L : Server.Setup) (cap : Nat) : Server.hide (Server.start L cap) = Server.start L cap := by
  have hsub := (Server.primed L cap).submit_withCq []
  rw [primed_withCq] at hsub
  exact congrArg (fun e => ({ Server.blank L cap with engine := e } : Server.St)) hsub.symm

/-- **The server's loop over the ring refines its loop over a list.**  Whatever the size of the ring, the initial value
of its counters and of its slots, and however the kernel, the signal and the worker interleave: every state of
`run_server` is matched by a reachable state of the loop over the list, with the same sessions, descriptors,
statistics, queue and kernel, and with the completions the worker has not processed as its list. -/
theorem server_loop_refines (L : Server.Setup) (hn : L.config.inFlight < 2^31) (cap : Nat) (mask base : UInt32)
    (hm : IsMask mask) (cqes : UInt32 → Entry) (s : Batch.St Server.St Entry)
    (h : Reach (Batch.step (serverLoop L) (serverOutside L)) (Batch.start mask base cqes (Server.start L cap)) s) :
    ∃ a, Reach (Server.step L) (Server.start L cap) a ∧ ServerSim s.plain a := by
  have hmax : (serverLoop L).maxReap.toNat < 2^31 := (toNat_inFlight hn).symm ▸ hn
  obtain ⟨-, hplain⟩ := Batch.reach_plain (serverLoop_atomic L) hmax hm h
  have hstart := hide_start L cap
  have hpc : Server.Pc.head = (Server.start L cap).pc := congrArg Server.St.pc hstart
  have hcq : [] = (Server.start L cap).ring.cq := congrArg (fun s => s.ring.cq) hstart
  have hsim : ServerSim ⟨Server.start L cap, [], .head⟩ (Server.start L cap) :=
    .of hstart.symm (congrArg (List.map Entry.of) hcq) hpc.symm
  exact hplain.simulate hsim fun p act p' a hs hst => server_step hn hs hst

/-- a connection has been accepted, and the slot of its completion is not released yet -/
theorem server_loop_refines_accept : Server.defaultSetup.config.inFlight < 2^31 ∧ IsMask 1 ∧ ∃ s,
    Reach (Batch.step (serverLoop Server.defaultSetup) (serverOutside Server.defaultSetup))
      (Batch.start 1 4294967295 (fun _ => nullEntry 0) (Server.start Server.defaultSetup 8)) s ∧
    s.app.accepted = [⟨7, 1⟩] ∧ s.log.cq.unreleased.length = 1 ∧ s.unread = [] ∧
    ∃ a, Reach (Server.step Server.defaultSetup) (Server.start Server.defaultSetup 8) a ∧ ServerSim s.plain a := by
  have hn : Server.defaultSetup.config.inFlight < 2^31 := by decide
  have hm : IsMask 1 := ⟨1, by decide, rfl⟩
  have hrun : ∃ s, Reach (Batch.step (serverLoop Server.defaultSetup) (serverOutside Server.defaultSetup))
      (Batch.start 1 4294967295 (fun _ => nullEntry 0) (Server.start Server.defaultSetup 8)) s ∧
      s.app.accepted = [⟨7, 1⟩] ∧ s.log.cq.unreleased.length = 1 ∧ s.unread = [] :=
    exists_reach (.outside (.post 0 (.plain 7)) :: List.replicate 5 (.worker (0, some (true, 10))))
      (by decide +kernel)
  obtain ⟨s, hs, hacc, hlen, hread⟩ := hrun
  exact ⟨hn, hm, s, hs, hacc, hlen, hread, server_loop_refines _ hn 8 1 4294967295 hm _ s hs⟩

end Worker
end UringPerf
