import UringPerf.Engine.Consume

/-!
# The completion loops over a plain list

A loop that reads the ring through pointers, and releases its slots one by one or all at once, behaves like a loop
over a list of completions whose head is processed and removed in one step.

* `Loop.Atomic`, `Loop.handle`   a branch of the body changes the application in at most one statement, and what it
                                 does as a whole;
* `Plain.step`                   the loop over a list: test, reap, process, flush;
* `Batch.St.plain`               the list behind a state of the ring: the completion in hand counts as processed once
                                 only its `cqe_seen` is left;
* `Batch.plain_worker`           every step of the worker is a step over the list, or none at all;
* `Batch.reach_plain`            and so is every run;
* `Whole.step`, `Each.reach_plain`   the same for `io_uring_for_each_cqe`.
-/

namespace UringPerf
open Trans Circular

section
variable {σ ε χ κ : Type} {base : UInt32} {held : Nat}

namespace Log

/-- the first completion in the ring is in the slot of the head -/
theorem Sound.cons {l : Log ε} (h : l.Sound base held) (hpos : 0 < l.cq.unreleased.length) :
    l.cq.unreleased = l.cq.cqes (l.cq.khead &&& l.cq.ringMask) :: l.cq.unreleased.tail := by
  have hget : l.cq.unreleased[0]? = _ := entries_getElem? h.mask hpos
  have hzero : l.cq.khead + UInt32.ofNat 0 = l.cq.khead := UInt32.add_zero _
  rw [hzero] at hget
  cases hu : l.cq.unreleased with
  | nil =>
    rw [hu] at hpos
    exact absurd hpos (Nat.lt_irrefl _)
  | cons c cs =>
    rw [hu] at hget
    rw [List.tail_cons]
    exact congrArg (· :: cs) (Option.some.inj hget)

/-- a posted completion is behind the others -/
theorem Sound.outside_unreleased {l l' : Log ε} (h : l.Sound base held) {c : Option ε} (ho : l.outside c = some l') :
    l'.cq.unreleased = l.cq.unreleased ++ c.toList := by
  have hs := (h.outside ho).1
  cases c with
  | none =>
    cases ho
    exact (List.append_nil _).symm
  | some c =>
    unfold Log.outside at ho
    dsimp only at ho
    split at ho
    · cases ho
      have hle : l.released ≤ l.posted.length := (Nat.le_add_right _ _).trans h.held_le
      rw [hs.ring, h.ring]
      exact List.drop_append_of_le_length hle
    · cases ho

theorem Sound.release_unreleased {l : Log ε} (h : l.Sound base held) {n : Nat} (hn : n ≤ held) :
    (l.release (UInt32.ofNat n)).cq.unreleased = l.cq.unreleased.drop n :=
  entries_drop h.mask (hn.trans h.held_le_length)

end Log

/-! ## loops over batches -/

def Stmt.eval (c : ε) (s : σ) : Stmt σ ε → σ
  | .use f => f s c
  | .seen => s

/-- what the branch of a completion does to the application -/
def Loop.handle (loop : Loop σ ε χ) (x : χ) (s : σ) (c : ε) : σ := (loop.body x s c).foldl (Stmt.eval c) s

/-- the branch depends on the completion only, and has at most one statement before its `cqe_seen` -/
def Loop.Atomic (loop : Loop σ ε χ) : Prop :=
  ∀ x c, (∃ f, ∀ s, loop.body x s c = [.use f, .seen]) ∨ ∀ s, loop.body x s c = [.seen]

theorem Loop.Atomic.releases {loop : Loop σ ε χ} (h : loop.Atomic) : loop.Releases := by
  intro x s c
  obtain ⟨f, hf⟩ | hf := h x c
  · exact ⟨[f], hf s⟩
  · exact ⟨[], hf s⟩

namespace Plain

inductive Pc where
  | head
  | reap
  | batch (left : Nat)
  | exited
deriving DecidableEq, Repr

structure St (σ ε : Type) where
  app : σ
  cq : List ε
  pc : Pc

inductive Act (χ κ : Type) where
  | test (x : χ)
  | reap
  | cqe (x : χ)
  | flush
  | outside (e : κ)

def step (loop : Loop σ ε χ) (outside : κ → σ → Option (σ × Option ε)) (p : St σ ε) : Act χ κ → Option (St σ ε)
  | .test x =>
    if p.pc = .head then
      if loop.running p.app then some { p with app := loop.prelude x p.app, pc := .reap }
      else some { p with pc := .exited }
    else none
  | .reap =>
    if p.pc = .reap then
      if min loop.maxReap.toNat p.cq.length = 0 then some { p with app := loop.idle p.app, pc := .head }
      else some { p with pc := .batch (min loop.maxReap.toNat p.cq.length) }
    else none
  | .cqe x =>
    match p.pc, p.cq with
    | .batch (n+1), c :: cq => some ⟨loop.handle x p.app c, cq, .batch n⟩
    | _, _ => none
  | .flush => if p.pc = .batch 0 then some { p with app := loop.flush p.app, pc := .head } else none
  | .outside e => (outside e p.app).map fun r => { p with app := r.1, cq := p.cq ++ r.2.toList }

end Plain

namespace Batch

/-- how many completions of the ring have been processed and are not released -/
def Phase.handled : Phase σ ε → Nat
  | .run _ (.seen :: _) _ => 1
  | _ => 0

def Phase.plain : Phase σ ε → Plain.Pc
  | .top => .head
  | .reap _ _ => .reap
  | .batch cqes => .batch cqes.length
  | .run _ (.use _ :: _) cqes => .batch (cqes.length + 1)
  | .run _ (.seen :: _) cqes => .batch cqes.length
  | .run _ [] cqes => .batch cqes.length
  | .flush => .batch 0
  | .exited => .exited

/-- the completions the loop has still to process -/
def St.unread (s : St σ ε) : List ε := s.log.cq.unreleased.drop s.phase.handled

def St.plain (s : St σ ε) : Plain.St σ ε := ⟨s.app, s.unread, s.phase.plain⟩

/-- no more pointers are collected than the batch may have, and a statement that is about to be executed is the one of
the completion in hand -/
def Fits (loop : Loop σ ε χ) (l : Log ε) : Phase σ ε → Prop
  | .reap _ cqesOut => cqesOut.length ≤ loop.maxReap.toNat
  | .run _ (.use f :: todo) _ =>
    todo = [.seen] ∧ ∃ x c cs, l.cq.unreleased = c :: cs ∧ ∀ app, loop.body x app c = [.use f, .seen]
  | _ => True

variable {loop : Loop σ ε χ} {outside : κ → σ → Option (σ × Option ε)} {s t : St σ ε}

/-- a count below 2^31 stays what it is as an `int` -/
theorem toInt32_le_zero {n : Nat} (hn : n < 2^31) : toInt32 n ≤ 0 ↔ n = 0 := by
  unfold toInt32
  have hmod : n % 2^32 = n := Nat.mod_eq_of_lt (by omega)
  rw [hmod, if_pos hn]
  omega

/-- the pointers collected are as many as a list of the same completions would hand out -/
theorem reaped_count {head : UInt32} {cqesOut : List UInt32} (h : Inv base s) (hf : Fits loop s.log s.phase)
    (hph : s.phase = .reap head cqesOut)
    (hend : s.log.cq.forEachNext head = none ∨ loop.maxReap.toNat ≤ cqesOut.length) :
    min loop.maxReap.toNat s.log.cq.unreleased.length = cqesOut.length := by
  obtain ⟨-, -, hp⟩ := h
  rw [hph] at hp hf
  obtain ⟨hp, rfl⟩ := hp
  have hle : cqesOut.length ≤ s.log.cq.unreleased.length := by
    have := hp.le
    omega
  have hmax : cqesOut.length ≤ loop.maxReap.toNat := hf
  rcases hend with hnone | hfull
  · rw [s.log.cq.forEachNext_eq hle] at hnone
    split at hnone
    · cases hnone
    · omega
  · omega

theorem plain_reaped (outside : κ → σ → Option (σ × Option ε)) {head : UInt32} {cqesOut : List UInt32}
    (h : Inv base s) (hf : Fits loop s.log s.phase) (hmax : loop.maxReap.toNat < 2^31)
    (hph : s.phase = .reap head cqesOut)
    (hend : s.log.cq.forEachNext head = none ∨ loop.maxReap.toNat ≤ cqesOut.length) :
    Fits loop (reaped loop s cqesOut).log (reaped loop s cqesOut).phase ∧
    Plain.step loop outside s.plain .reap = some (reaped loop s cqesOut).plain := by
  have hcount := reaped_count h hf hph hend
  rw [hph] at hf
  have hlt : cqesOut.length < 2^31 := Nat.lt_of_le_of_lt hf hmax
  have hplain : s.plain = ⟨s.app, s.log.cq.unreleased, .reap⟩ := by
    unfold St.plain St.unread
    rw [hph]
    rfl
  rw [hplain]
  unfold Plain.step reaped
  dsimp only
  rw [if_pos rfl, hcount]
  by_cases hzero : cqesOut.length = 0
  · rw [if_pos hzero, if_pos ((toInt32_le_zero hlt).mpr hzero)]
    exact ⟨trivial, rfl⟩
  · rw [if_neg hzero, if_neg (mt (toInt32_le_zero hlt).mp hzero)]
    exact ⟨trivial, rfl⟩

/-- the branch of a completion that one statement processes -/
theorem handle_use {f : σ → ε → σ} {x : χ} {c : ε} (hb : ∀ app, loop.body x app c = [.use f, .seen]) (app : σ) :
    loop.handle x app c = f app c := by
  unfold Loop.handle
  rw [hb]
  rfl

/-- the pointer of the next completion of a batch is that of the oldest one in the ring -/
theorem Inv.cons {cqe : UInt32} {cqes : List UInt32} (h : Inv base s) (hph : s.phase = .batch (cqe :: cqes)) :
    s.log.cq.unreleased = s.log.cq.cqes cqe :: s.log.cq.unreleased.tail := by
  obtain ⟨-, hs, hp⟩ := h
  rw [hph] at hp
  obtain ⟨hp, -⟩ := hp
  have hle := hp.le
  have hcqe := hp.pointers
  rw [List.length_cons, CompletionQueue.pointers_cons] at hcqe
  rw [(List.cons.inj hcqe).1]
  have hzero : s.log.cq.khead + UInt32.ofNat 0 = s.log.cq.khead := UInt32.add_zero _
  rw [hzero]
  exact hs.cons (by rw [List.length_cons] at hle; omega)

/-- **A step of the worker over the ring** is a step over the list or none: collecting pointers, releasing a slot and
going on to the next completion change nothing. -/
theorem plain_worker (ha : loop.Atomic) (hmax : loop.maxReap.toNat < 2^31) (outside : κ → σ → Option (σ × Option ε))
    {x : χ} (h : Inv base s) (hf : Fits loop s.log s.phase) (hst : workerStep loop s x = some t) :
    Fits loop t.log t.phase ∧ Reach (Plain.step loop outside) s.plain t.plain := by
  obtain ⟨app, log, phase⟩ := s
  cases phase with
  | top =>
    simp only [workerStep] at hst
    have hplain : Plain.step loop outside (St.plain ⟨app, log, .top⟩) (.test x) = some t.plain := by
      show (if loop.running app then _ else _) = _
      split at hst
      next hrun =>
        cases hst
        rw [if_pos hrun]
        rfl
      next hrun =>
        cases hst
        rw [if_neg hrun]
        rfl
    refine ⟨?_, Reach.single hplain⟩
    split at hst
    · cases hst
      exact Nat.zero_le _
    · cases hst
      trivial
  | reap head cqesOut =>
    simp only [workerStep] at hst
    split at hst
    next hnone =>
      cases hst
      obtain ⟨h1, h2⟩ := plain_reaped outside h hf hmax rfl (Or.inl hnone)
      exact ⟨h1, Reach.single h2⟩
    next cqe hnext =>
      split at hst
      next hfull =>
        cases hst
        obtain ⟨h1, h2⟩ := plain_reaped outside h hf hmax rfl (Or.inr hfull)
        exact ⟨h1, Reach.single h2⟩
      next hroom =>
        cases hst
        refine ⟨?_, Reach.refl⟩
        show (cqesOut ++ [cqe]).length ≤ loop.maxReap.toNat
        rw [List.length_append, List.length_singleton]
        omega
  | batch cqes =>
    cases cqes with
    | nil =>
      cases hst
      exact ⟨trivial, Reach.refl⟩
    | cons cqe cqes =>
      cases hst
      have hcons : log.cq.unreleased = _ := h.cons rfl
      obtain ⟨f, hb⟩ | hb := ha x (log.cq.cqes cqe)
      · rw [hb]
        exact ⟨⟨rfl, x, _, _, hcons, hb⟩, Reach.refl⟩
      · rw [hb]
        refine ⟨trivial, Reach.single (show Plain.step loop outside _ (.cqe x) = _ from ?_)⟩
        have hbefore : St.plain ⟨app, log, .batch (cqe :: cqes)⟩ =
            ⟨app, log.cq.cqes cqe :: log.cq.unreleased.tail, .batch (cqes.length + 1)⟩ :=
          congrArg (Plain.St.mk app · _) hcons
        have hhandle : loop.handle x app (log.cq.cqes cqe) = app := by
          unfold Loop.handle
          rw [hb]
          rfl
        have hafter : (log.look cqe).cq.unreleased.drop 1 = log.cq.unreleased.tail := List.drop_one
        rw [hbefore]
        show some (Plain.St.mk (loop.handle x app (log.cq.cqes cqe)) log.cq.unreleased.tail (.batch cqes.length)) =
          some ⟨app, (log.look cqe).cq.unreleased.drop 1, .batch cqes.length⟩
        rw [hhandle, hafter]
  | run cqe todo cqes =>
    obtain ⟨-, hs, hp⟩ := h
    cases todo with
    | nil =>
      cases hst
      exact ⟨trivial, Reach.refl⟩
    | cons stmt todo =>
      obtain ⟨-, -, htodo, hcqe⟩ := hp
      change cqe = log.cq.khead &&& log.cq.ringMask at hcqe
      subst hcqe
      cases stmt with
      | use f =>
        cases hst
        obtain ⟨rfl, y, c, cs, hcons, hb⟩ := hf
        have hc : log.cq.unreleased = _ := hs.cons (hs.held_le_length)
        obtain ⟨rfl, -⟩ := List.cons.inj (hcons.symm.trans hc)
        refine ⟨trivial, Reach.single (show Plain.step loop outside _ (.cqe y) = _ from ?_)⟩
        have hbefore : St.plain ⟨app, log, .run (log.cq.khead &&& log.cq.ringMask) [.use f, .seen] cqes⟩ =
            ⟨app, log.cq.cqes (log.cq.khead &&& log.cq.ringMask) :: cs, .batch (cqes.length + 1)⟩ :=
          congrArg (Plain.St.mk app · _) hcons
        have hafter : log.cq.unreleased.drop 1 = cs := by rw [hcons, List.drop_one, List.tail_cons]
        rw [hbefore]
        show some (Plain.St.mk (loop.handle y app _) cs (.batch cqes.length)) =
          some ⟨f app _, log.cq.unreleased.drop 1, .batch cqes.length⟩
        rw [handle_use hb, hafter]
      | seen =>
        cases hst
        obtain rfl := htodo.seen
        refine ⟨trivial, ?_⟩
        have hrel : (log.release 1).cq.unreleased = log.cq.unreleased.drop 1 := hs.release_unreleased le_rfl
        have hsame : St.plain ⟨app, log.release 1, .run (log.cq.khead &&& log.cq.ringMask) [] cqes⟩ =
            St.plain ⟨app, log, .run (log.cq.khead &&& log.cq.ringMask) [.seen] cqes⟩ :=
          congrArg (Plain.St.mk app · _) hrel
        rw [hsame]
        exact Reach.refl
  | flush =>
    cases hst
    exact ⟨trivial, Reach.single (show Plain.step loop outside _ .flush = _ from rfl)⟩
  | exited => cases hst

/-- the completion in hand is in the ring -/
theorem Inv.handled_le (h : Inv base s) : s.phase.handled ≤ s.log.cq.unreleased.length := by
  refine le_trans ?_ h.sound.held_le_length
  unfold Phase.handled
  split
  next hph =>
    rw [hph]
    exact le_rfl
  · exact Nat.zero_le _

theorem Fits.grow {l l' : Log ε} {phase : Phase σ ε} {cs : List ε} (h : Fits loop l phase)
    (hg : l'.cq.unreleased = l.cq.unreleased ++ cs) : Fits loop l' phase := by
  unfold Fits at h ⊢
  split
  · exact h
  · obtain ⟨htodo, x, c, _, hcons, hb⟩ := h
    rw [hcons] at hg
    exact ⟨htodo, x, c, _, hg, hb⟩
  · trivial

theorem plain_outside {e : κ} (h : Inv base s) (hf : Fits loop s.log s.phase)
    (hst : step loop outside s (.outside e) = some t) :
    Fits loop t.log t.phase ∧ Plain.step loop outside s.plain (.outside e) = some t.plain := by
  obtain ⟨r, hr, hm⟩ := Option.bind_eq_some_iff.mp hst
  obtain ⟨l, hl, rfl⟩ := Option.map_eq_some_iff.mp hm
  have hgrow := h.sound.outside_unreleased hl
  have hunread : l.cq.unreleased.drop s.phase.handled = s.unread ++ r.2.toList := by
    rw [hgrow]
    exact List.drop_append_of_le_length h.handled_le
  refine ⟨hf.grow hgrow, ?_⟩
  show (outside e s.app).map _ = some (Plain.St.mk r.1 (l.cq.unreleased.drop s.phase.handled) s.phase.plain)
  rw [hr, hunread]
  rfl

/-- **Every run over the ring is a run over the list**, whatever happens between the steps of the worker. -/
theorem reach_plain (ha : loop.Atomic) (hmax : loop.maxReap.toNat < 2^31) {mask : UInt32} (hm : IsMask mask)
    {cqes : UInt32 → ε} {app : σ} (h : Reach (step loop outside) (start mask base cqes app) s) :
    Inv base s ∧ Reach (Plain.step loop outside) ⟨app, [], .head⟩ s.plain := by
  have hempty : (start mask base cqes app).plain = ⟨app, [], .head⟩ :=
    congrArg (Plain.St.mk app · _) (congrArg (List.drop 0) entries_self)
  have hrun := h.inv (I := fun s => Inv base s ∧ Fits loop s.log s.phase ∧
    Reach (Plain.step loop outside) ⟨app, [], .head⟩ s.plain)
    ⟨inv_start hm cqes app, trivial, hempty ▸ Reach.refl⟩ (by
      rintro s a t ⟨hi, hf, hr⟩ hst
      cases a with
      | worker x =>
        obtain ⟨hf', hstep⟩ := plain_worker ha hmax outside hi hf hst
        exact ⟨inv_worker ha.releases hi hst, hf', hr.trans hstep⟩
      | outside e =>
        obtain ⟨hf', hstep⟩ := plain_outside hi hf hst
        exact ⟨inv_outside hi hst, hf', hr.tail hstep⟩)
  exact ⟨hrun.1, hrun.2.2⟩

end Batch

/-! ## loops over the ring -/

def ForEach.handle (loop : ForEach σ ε χ) (x : χ) (s : σ) (c : ε) : σ :=
  (loop.body x s c).foldl (fun s f => f s c) s

/-- one statement processes the completion, and depends on nothing else -/
def ForEach.Atomic (loop : ForEach σ ε χ) : Prop := ∀ x c, ∃ f, ∀ s, loop.body x s c = [f]

/-- `ok`: what the loop may learn from outside in a state of the application -/
def Batch.Act.ok (ok : χ → σ → Prop) (app : σ) : Batch.Act χ κ → Prop
  | .worker x => ok x app
  | .outside _ => True

instance (ok : χ → σ → Prop) [∀ x app, Decidable (ok x app)] (app : σ) :
    (a : Batch.Act χ κ) → Decidable (a.ok ok app)
  | .worker x => inferInstanceAs (Decidable (ok x app))
  | .outside _ => isTrue trivial

namespace Whole

inductive Pc where
  | head
  | each
  | exited
deriving DecidableEq, Repr

structure St (σ ε : Type) where
  app : σ
  cq : List ε
  pc : Pc

inductive Act (χ κ : Type) where
  | wait (x : χ)
  | cqe (x : χ)
  | advance
  | outside (e : κ)

def Act.ok (ok : χ → σ → Prop) (app : σ) : Act χ κ → Prop
  | .cqe x => ok x app
  | _ => True

instance (ok : χ → σ → Prop) [∀ x app, Decidable (ok x app)] (app : σ) : (a : Act χ κ) → Decidable (a.ok ok app)
  | .wait _ => isTrue trivial
  | .cqe x => inferInstanceAs (Decidable (ok x app))
  | .advance => isTrue trivial
  | .outside _ => isTrue trivial

/-- the batch ends when the list is empty, also of what was added meanwhile -/
def step (loop : ForEach σ ε χ) (outside : κ → σ → Option (σ × Option ε)) (p : St σ ε) : Act χ κ → Option (St σ ε)
  | .wait x =>
    if p.pc = .head then
      if loop.running p.app then
        match loop.wait x p.app with
        | none => some { p with pc := .exited }
        | some app => some { p with app := app, pc := .each }
      else some { p with pc := .exited }
    else none
  | .cqe x =>
    match p.pc, p.cq with
    | .each, c :: cq => some ⟨loop.handle x p.app c, cq, .each⟩
    | _, _ => none
  | .advance => if p.pc = .each ∧ p.cq.isEmpty then some { p with pc := .head } else none
  | .outside e => (outside e p.app).map fun r => { p with app := r.1, cq := p.cq ++ r.2.toList }

end Whole

namespace Each

/-- how many completions of the ring have been processed; all of them are released together -/
def Phase.handled : Phase σ ε → Nat
  | .each _ count => count.toNat
  | .run _ count _ [] => count.toNat + 1
  | .run _ count _ (_ :: _) => count.toNat
  | .top | .exited => 0

def Phase.plain : Phase σ ε → Whole.Pc
  | .top => .head
  | .each _ _ | .run _ _ _ _ => .each
  | .exited => .exited

/-- the completions the loop has still to process -/
def St.unread (s : St σ ε) : List ε := s.log.cq.unreleased.drop s.phase.handled

def St.plain (s : St σ ε) : Whole.St σ ε := ⟨s.app, s.unread, s.phase.plain⟩

/-- a statement that is about to be executed is the one of the completion in hand -/
def Fits (loop : ForEach σ ε χ) (ok : χ → σ → Prop) (app : σ) (l : Log ε) : Phase σ ε → Prop
  | .run _ count _ (f :: todo) =>
    todo = [] ∧ ∃ x c, l.cq.unreleased[count.toNat]? = some c ∧ ok x app ∧ ∀ s, loop.body x s c = [f]
  | _ => True

variable {loop : ForEach σ ε χ} {outside : κ → σ → Option (σ × Option ε)} {s t : St σ ε} {ok : χ → σ → Prop}

theorem handle_single {f : σ → ε → σ} {x : χ} {c : ε} (hb : ∀ app, loop.body x app c = [f]) (app : σ) :
    loop.handle x app c = f app c := by
  unfold ForEach.handle
  rw [hb]
  rfl

/-- the completion behind the pointer of the loop -/
theorem look_get {l : Log ε} {count : UInt32} (hs : l.Sound base held) (hlt : count.toNat < l.cq.unreleased.length) :
    l.cq.unreleased[count.toNat]? = some (l.cq.cqes ((l.cq.khead + count) &&& l.cq.ringMask)) := by
  have h : l.cq.unreleased[count.toNat]? = _ := entries_getElem? hs.mask hlt
  rwa [UInt32.ofNat_toNat] at h

/-- **A step of the worker over the ring** is a step over the list or none. -/
theorem plain_worker [∀ x app, Decidable (ok x app)] (ha : loop.Atomic) (outside : κ → σ → Option (σ × Option ε)) {x : χ}
    (h : Inv base s) (hf : Fits loop ok s.app s.log s.phase) (hx : ok x s.app) (hst : workerStep loop s x = some t) :
    Fits loop ok t.app t.log t.phase ∧
    Reach (guard (fun p a => a.ok ok p.app) (Whole.step loop outside)) s.plain t.plain := by
  obtain ⟨app, log, phase⟩ := s
  cases phase with
  | top =>
    have hplain : Whole.step loop outside (St.plain ⟨app, log, .top⟩) (.wait x) = some t.plain := by
      show (if loop.running app then _ else _) = _
      simp only [workerStep] at hst
      split at hst
      next hrun =>
        rw [if_pos hrun]
        split at hst
        next hw =>
          cases hst
          split
          · rfl
          next hw' => cases hw.symm.trans hw'
        next app' hw =>
          cases hst
          split
          next hw' => cases hw.symm.trans hw'
          next hw' =>
            cases hw.symm.trans hw'
            rfl
      next hrun =>
        cases hst
        rw [if_neg hrun]
        rfl
    refine ⟨?_, Reach.single (a := .wait x) (guard_some.mpr ⟨trivial, hplain⟩)⟩
    simp only [workerStep] at hst
    split at hst
    · split at hst
      · cases hst
        trivial
      · cases hst
        trivial
    · cases hst
      trivial
  | each head count =>
    obtain ⟨-, -, hs, hp⟩ := h
    change log.Sound base count.toNat at hs
    obtain rfl : head = log.cq.khead + count := hp
    simp only [workerStep] at hst
    split at hst
    next hnone =>
      cases hst
      refine ⟨trivial, Reach.single (a := .advance) (guard_some.mpr ⟨trivial, ?_⟩)⟩
      rw [next_eq hs] at hnone
      split at hnone
      · cases hnone
      next hge =>
        have hnil : log.cq.unreleased.drop count.toNat = [] := List.drop_eq_nil_of_le (by omega)
        have hrel : (log.release count).cq.unreleased = [] := by
          have e := hs.release_unreleased le_rfl
          rwa [UInt32.ofNat_toNat, hnil] at e
        have hbefore : St.plain ⟨app, log, .each (log.cq.khead + count) count⟩ = ⟨app, [], .each⟩ :=
          congrArg (Whole.St.mk app · _) hnil
        have hafter : St.plain ⟨app, log.release count, .top⟩ = ⟨app, [], .head⟩ :=
          congrArg (Whole.St.mk app · _) hrel
        rw [hbefore, hafter]
        rfl
    next cqe hnext =>
      cases hst
      rw [next_eq hs] at hnext
      split at hnext
      next hlt =>
        cases hnext
        obtain ⟨f, hb⟩ := ha x (log.cq.cqes ((log.cq.khead + count) &&& log.cq.ringMask))
        rw [hb]
        have hget := look_get hs hlt
        exact ⟨⟨rfl, x, _, hget, hx, hb⟩, Reach.refl⟩
      · cases hnext
  | run head count cqe todo =>
    obtain ⟨-, -, hs, hp⟩ := h
    change log.Sound base (count.toNat + 1) at hs
    cases todo with
    | nil =>
      cases hst
      have hlt : count.toNat + 1 < 2^32 := Nat.lt_of_le_of_lt hs.held_le_length hs.length_lt
      have hcount : (count + 1).toNat = count.toNat + 1 := by
        rw [UInt32.toNat_add]
        exact Nat.mod_eq_of_lt hlt
      refine ⟨trivial, ?_⟩
      have hsame : St.plain ⟨app, log, .each (head + 1) (count + 1)⟩ = St.plain ⟨app, log, .run head count cqe []⟩ :=
        congrArg (fun n => Whole.St.mk app (log.cq.unreleased.drop n) Whole.Pc.each) hcount
      rw [hsame]
      exact Reach.refl
    | cons f todo =>
      cases hst
      obtain ⟨rfl, y, c, hget, hy, hb⟩ := hf
      obtain ⟨hhead, hcqe⟩ : head = log.cq.khead + count ∧ cqe = head &&& log.cq.ringMask := hp
      have hc : log.cq.cqes cqe = c := by
        rw [hcqe, hhead]
        exact Option.some.inj ((look_get hs hs.held_le_length).symm.trans hget)
      refine ⟨trivial, Reach.single (a := .cqe y) (guard_some.mpr ⟨hy, ?_⟩)⟩
      obtain ⟨hlt, hget'⟩ := List.getElem?_eq_some_iff.mp hget
      have hbefore : St.plain ⟨app, log, .run head count cqe [f]⟩ =
          ⟨app, c :: log.cq.unreleased.drop (count.toNat + 1), .each⟩ := by
        refine congrArg (Whole.St.mk app · _) ?_
        rw [← hget']
        exact List.drop_eq_getElem_cons hlt
      rw [hbefore]
      show some (Whole.St.mk (loop.handle y app c) (log.cq.unreleased.drop (count.toNat + 1)) .each) =
        some ⟨f app (log.cq.cqes cqe), log.cq.unreleased.drop (count.toNat + 1), .each⟩
      rw [handle_single hb, hc]
  | exited => cases hst

theorem Inv.handled_le (h : Inv base s) : s.phase.handled ≤ s.log.cq.unreleased.length := by
  refine le_trans ?_ h.sound.held_le_length
  generalize s.phase = phase
  cases phase with
  | run head count cqe todo =>
    cases todo with
    | nil => exact le_rfl
    | cons f todo => exact Nat.le_succ _
  | _ => exact le_rfl

theorem Fits.grow {l l' : Log ε} {phase : Phase σ ε} {app app' : σ} {cs : List ε} (h : Fits loop ok app l phase)
    (hg : l'.cq.unreleased = l.cq.unreleased ++ cs) (hok : ∀ x, ok x app → ok x app') :
    Fits loop ok app' l' phase := by
  unfold Fits at h ⊢
  split
  · obtain ⟨htodo, x, c, hget, hx, hb⟩ := h
    refine ⟨htodo, x, c, ?_, hok x hx, hb⟩
    rw [hg, List.getElem?_append_left (List.getElem?_eq_some_iff.mp hget).1]
    exact hget
  · trivial

theorem plain_outside (hok : ∀ e app r x, outside e app = some r → ok x app → ok x r.1) {e : κ} (h : Inv base s)
    (hf : Fits loop ok s.app s.log s.phase) (hst : step loop outside s (.outside e) = some t) :
    Fits loop ok t.app t.log t.phase ∧ Whole.step loop outside s.plain (.outside e) = some t.plain := by
  obtain ⟨r, hr, hm⟩ := Option.bind_eq_some_iff.mp hst
  obtain ⟨l, hl, rfl⟩ := Option.map_eq_some_iff.mp hm
  have hgrow := h.sound.outside_unreleased hl
  have hunread : l.cq.unreleased.drop s.phase.handled = s.unread ++ r.2.toList := by
    rw [hgrow]
    exact List.drop_append_of_le_length h.handled_le
  refine ⟨hf.grow hgrow fun x => hok e s.app r x hr, ?_⟩
  show (outside e s.app).map _ = some (Whole.St.mk r.1 (l.cq.unreleased.drop s.phase.handled) s.phase.plain)
  rw [hr, hunread]
  rfl

/-- **Every run over the ring is a run over the list**, whatever happens between the steps of the worker. -/
theorem reach_plain [∀ x app, Decidable (ok x app)] (ha : loop.Atomic)
    (hok : ∀ e app r x, outside e app = some r → ok x app → ok x r.1) {mask : UInt32} (hm : IsMask mask)
    {cqes : UInt32 → ε} {app : σ}
    (h : Reach (guard (fun s a => a.ok ok s.app) (step loop outside)) (start mask base cqes app) s) :
    Inv base s ∧ Reach (guard (fun p a => a.ok ok p.app) (Whole.step loop outside)) ⟨app, [], .head⟩ s.plain := by
  have hempty : (start mask base cqes app).plain = ⟨app, [], .head⟩ :=
    congrArg (Whole.St.mk app · _) (congrArg (List.drop 0) entries_self)
  have hrun := h.inv (I := fun s => Inv base s ∧ Fits loop ok s.app s.log s.phase ∧
    Reach (guard (fun p a => a.ok ok p.app) (Whole.step loop outside)) ⟨app, [], .head⟩ s.plain)
    ⟨inv_start hm cqes app, trivial, hempty ▸ Reach.refl⟩ (by
      rintro s a t ⟨hi, hf, hr⟩ hst
      obtain ⟨hx, hst⟩ := guard_some.mp hst
      cases a with
      | worker x =>
        obtain ⟨hf', hstep⟩ := plain_worker ha outside hi hf hx hst
        exact ⟨inv_worker hi hst, hf', hr.trans hstep⟩
      | outside e =>
        obtain ⟨hf', hstep⟩ := plain_outside hok hi hf hst
        exact ⟨inv_outside hi hst, hf', hr.tail (a := .outside e) (guard_some.mpr ⟨trivial, hstep⟩)⟩)
  exact ⟨hrun.1, hrun.2.2⟩

end Each
end
end UringPerf
