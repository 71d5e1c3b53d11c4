import UringPerf.Program.Summary

/-!
# When the program ends

What must have happened before the summary is printed, in every run and for any code of the workers: the duration has
passed in a client, and otherwise every process has been signalled, or forked by a parent that had been.  With `-M` the
flag of the parent is not that of the children it has forked before, so a server waits for children that nobody has
interrupted.  A child whose ring cannot be created is ended by the exception, and nothing stops it.

* `Lifetime`              why a flag is set, and which thread waits for what;
* `summary_after_stop`    the summary is printed only after every process had a reason to stop.
-/

namespace UringPerf
namespace Program
open Trans Stats

section
variable {σ α : Type} {T : Nat → Thread σ α} {cfg : Config} {p q : St σ}

/-- `g_stop_signal` of the process was set by the handler, copied from the parent's at the fork, or set by its own
`run_until_stop` -/
def Reason (cfg : Config) (p : St σ) (proc : Nat) : Prop :=
  p.interrupted proc = true ∨ (p.inherited proc = true ∧ p.interrupted 0 = true) ∨
    (cfg.mode = .client ∧ cfg.durationSec * second ≤ p.now)

structure Lifetime (cfg : Config) (p : St σ) : Prop where
  unborn : Unborn cfg p
  reason : ∀ proc, p.stop proc = true → Reason cfg p proc
  -- before `run_until_stop` only the handler sets the parent's flag
  signal : p.timer 0 = .begin → p.stop 0 = true → p.interrupted 0 = true
  forking : forks cfg = true → p.forked < cfg.threads → p.timer 0 = .begin
  returned : ∀ proc, p.timer proc = .returned → p.stop proc = true
  main : p.timer 0 ≠ .returned → p.stats.main = .joining 0
  child : forks cfg = true → ∀ w, p.stats.finished w = true → p.timer (w + 1) = .returned ∨ p.threw w = true

theorem lifetime_start (threw : Nat → Bool) (work : Nat → σ) : Lifetime cfg (start threw work) where
  unborn := unborn_start threw work
  reason := fun _ h => by cases h
  signal := fun _ h => by cases h
  forking := fun _ _ => rfl
  returned := fun _ h => by cases h
  main := fun _ => rfl
  child := fun _ _ h => by cases h

/-- a flag that `run_until_stop` sets, and when it is left -/
theorem runUntilStop_reason {now : Nat} {timer timer' : Timer} {stop stop' : Bool}
    (h : runUntilStop cfg now stop timer = some (timer', stop')) :
    (stop' = true → stop = true ∨ cfg.mode = .client ∧ cfg.durationSec * second ≤ now) ∧
    (timer' = .returned → stop' = true) ∧ timer ≠ .returned := by
  cases timer with
  | begin =>
    cases h
    exact ⟨Or.inl, Timer.noConfusion, Timer.noConfusion⟩
  | test startTime =>
    cases h
    refine ⟨Or.inl, fun h => ?_, Timer.noConfusion⟩
    cases stop with
    | true => rfl
    | false => cases h
  | asleep startTime wake =>
    simp only [runUntilStop] at h
    split at h
    · split at h
      next hcond =>
        cases h
        have hmul := Nat.mul_le_of_le_div _ _ _ hcond.2
        exact ⟨fun _ => Or.inr ⟨hcond.1, Nat.le_trans hmul (Nat.sub_le _ _)⟩, fun _ => rfl, Timer.noConfusion⟩
      · cases h
        exact ⟨Or.inl, Timer.noConfusion, Timer.noConfusion⟩
    · cases h
  | returned => cases h

theorem Reason.later {proc : Nat} (h : Reason cfg p proc)
    (hi : ∀ v, p.interrupted v = true → q.interrupted v = true)
    (hc : p.inherited proc = true → q.inherited proc = true) (hn : p.now ≤ q.now) : Reason cfg q proc := by
  rcases h with h | ⟨h, h0⟩ | ⟨hclient, hle⟩
  · exact Or.inl (hi proc h)
  · exact Or.inr (Or.inl ⟨hc h, hi 0 h0⟩)
  · exact Or.inr (Or.inr ⟨hclient, Nat.le_trans hle hn⟩)

theorem reason_step {a : Act α} (h : Lifetime cfg p) (hst : step T cfg p a = some q) (proc : Nat)
    (hq : q.stop proc = true) : Reason cfg q proc := by
  cases step_timer hst with
  | quiet _ _ hs hn hi hc =>
    rw [hs] at hq
    exact (h.reason proc hq).later (by rw [hi]; exact fun _ => id) (by rw [hc]; exact id) hn.ge
  | waits v _ _ ht =>
    obtain ⟨timer, stop, hr, rfl⟩ := timerStep_some ht
    change Function.update p.stop v stop proc = true at hq
    by_cases hv : proc = v
    · subst hv
      rw [Function.update_self] at hq
      rcases (runUntilStop_reason hr).1 hq with hp | hc
      · exact h.reason proc hp
      · exact Or.inr (Or.inr hc)
    · rw [Function.update_of_ne hv] at hq
      exact h.reason proc hq
  | signal v _ he =>
    subst he
    change Function.update p.stop v true proc = true at hq
    by_cases hv : proc = v
    · subst hv
      exact Or.inl (Function.update_self ..)
    · rw [Function.update_of_ne hv] at hq
      refine (h.reason proc hq).later (fun u hu => ?_) id le_rfl
      show Function.update p.interrupted v true u = true
      rw [Function.update_apply]
      split
      · rfl
      · exact hu
  | fork hmay he =>
    subst he
    change Function.update p.stop (p.forked + 1) (p.stop 0) proc = true at hq
    by_cases hv : proc = p.forked + 1
    · subst hv
      rw [Function.update_self] at hq
      exact Or.inr (Or.inl ⟨(Function.update_self ..).trans hq, h.signal (h.forking hmay.1 hmay.2) hq⟩)
    · rw [Function.update_of_ne hv] at hq
      exact (h.reason proc hq).later (fun _ => id) (fun hc => (Function.update_of_ne hv _ _).trans hc) le_rfl
  | clock d he =>
    subst he
    exact (h.reason proc hq).later (fun _ => id) id (Nat.le_add_right _ _)

/-- a `run_until_stop` that has returned stays so, and the flag with it -/
theorem returned_step {a : Act α} (h : Lifetime cfg p) (hst : step T cfg p a = some q) (proc : Nat) :
    (p.timer proc = .returned → q.timer proc = .returned) ∧ (q.timer proc = .returned → q.stop proc = true) := by
  have hkeep : p.timer proc = .returned → q.stop proc = true :=
    fun hp => step_stop h.unborn hst (h.returned proc hp)
  cases step_timer hst with
  | quiet _ ht =>
    rw [ht]
    exact ⟨id, hkeep⟩
  | waits v _ _ ht =>
    obtain ⟨timer, stop, hr, rfl⟩ := timerStep_some ht
    obtain ⟨-, hret, hne⟩ := runUntilStop_reason hr
    show (_ → Function.update p.timer v timer proc = .returned) ∧
      (Function.update p.timer v timer proc = .returned → Function.update p.stop v stop proc = true)
    by_cases hv : proc = v
    · subst hv
      rw [Function.update_self, Function.update_self]
      exact ⟨fun hp => absurd hp hne, hret⟩
    · rw [Function.update_of_ne hv, Function.update_of_ne hv]
      exact ⟨id, h.returned proc⟩
  | signal v _ he =>
    subst he
    exact ⟨id, hkeep⟩
  | fork _ he =>
    subst he
    exact ⟨id, hkeep⟩
  | clock d he =>
    subst he
    exact ⟨id, hkeep⟩

/-- a step of `run_until_stop` leaves its beginning -/
theorem runUntilStop_begun {now : Nat} {timer : Timer} {stop stop' : Bool} :
    runUntilStop cfg now stop timer ≠ some (.begin, stop') := by
  intro h
  cases timer with
  | begin => cases h
  | test startTime => cases stop <;> cases h
  | asleep startTime wake =>
    simp only [runUntilStop] at h
    split at h
    · split at h <;> cases h
    · cases h
  | returned => cases h

/-- the parent forks before it waits, and until then only the handler sets its flag -/
theorem parent_step {a : Act α} (h : Lifetime cfg p) (hst : step T cfg p a = some q) :
    (q.timer 0 = .begin → q.stop 0 = true → q.interrupted 0 = true) ∧
    (forks cfg = true → q.forked < cfg.threads → q.timer 0 = .begin) := by
  cases step_timer hst with
  | quiet hf ht hs _ hi =>
    rw [hf, ht, hs, hi]
    exact ⟨h.signal, h.forking⟩
  | waits v _ hfirst ht =>
    obtain ⟨timer, stop, hr, rfl⟩ := timerStep_some ht
    show (Function.update p.timer v timer 0 = .begin → Function.update p.stop v stop 0 = true → _) ∧
      (_ → p.forked < cfg.threads → Function.update p.timer v timer 0 = .begin)
    by_cases hv : 0 = v
    · subst hv
      rw [Function.update_self]
      refine ⟨fun hb => ?_, fun hf hlt => ?_⟩
      · rw [hb] at hr
        exact absurd hr runUntilStop_begun
      · exact absurd (hfirst rfl hf) (Nat.ne_of_lt hlt)
    · rw [Function.update_of_ne hv, Function.update_of_ne hv]
      exact ⟨h.signal, h.forking⟩
  | signal v _ he =>
    subst he
    refine ⟨fun hb hs => ?_, h.forking⟩
    change Function.update p.stop v true 0 = true at hs
    show Function.update p.interrupted v true 0 = true
    by_cases hv : 0 = v
    · subst hv
      exact Function.update_self ..
    · rw [Function.update_of_ne hv] at hs ⊢
      exact h.signal hb hs
  | fork hmay he =>
    subst he
    refine ⟨fun hb hs => ?_, fun hf _ => h.forking hf hmay.2⟩
    change Function.update p.stop (p.forked + 1) (p.stop 0) 0 = true at hs
    rw [Function.update_of_ne (Nat.succ_ne_zero _).symm] at hs
    exact h.signal hb hs
  | clock d he =>
    subst he
    exact ⟨h.signal, h.forking⟩

/-- the main thread joins nobody before its `run_until_stop` has returned -/
theorem main_step {a : Act α} (hst : step T cfg p a = some q) : p.timer 0 = .returned ∨ q.stats.main = p.stats.main := by
  rcases step_stats hst with he | ⟨b, hb, hmain, -⟩
  · exact Or.inr (congrArg Stats.St.main he)
  · cases b with
    | call w c =>
      rw [(Stats.step_call hb).2]
      exact Or.inr rfl
    | fetchAdd w =>
      obtain ⟨_, _, _, -, he⟩ := Stats.step_fetchAdd hb
      rw [he]
      exact Or.inr rfl
    | finish w =>
      rw [(Stats.step_finish hb).2]
      exact Or.inr rfl
    | reporter =>
      obtain ⟨_, _, _, he⟩ := reporter_frame hb
      rw [he]
      exact Or.inr rfl
    | main => exact Or.inl (hmain rfl)

/-- a worker finishes only when it may return -/
theorem finished_step {a : Act α} (hst : step T cfg p a = some q) (w : Nat) (hq : q.stats.finished w = true) :
    p.stats.finished w = true ∨ mayReturn T cfg p w := by
  rcases step_stats hst with he | ⟨b, hb, -, hret⟩
  · rw [he] at hq
    exact Or.inl hq
  · cases b with
    | call v c =>
      rw [(Stats.step_call hb).2] at hq
      exact Or.inl hq
    | fetchAdd v =>
      obtain ⟨_, _, _, -, he⟩ := Stats.step_fetchAdd hb
      rw [he] at hq
      exact Or.inl hq
    | finish v =>
      rw [(Stats.step_finish hb).2] at hq
      change Function.update p.stats.finished v true w = true at hq
      by_cases hw : w = v
      · exact Or.inr (hret w (congrArg _ hw.symm))
      · rw [Function.update_of_ne hw] at hq
        exact Or.inl hq
    | reporter =>
      obtain ⟨_, _, _, he⟩ := reporter_frame hb
      rw [he] at hq
      exact Or.inl hq
    | main =>
      obtain ⟨⟨_, _, he⟩, -⟩ := main_frame hb
      rw [he] at hq
      exact Or.inl hq

theorem lifetime_step (p : St σ) (a : Act α) (q : St σ) (h : Lifetime cfg p) (hst : step T cfg p a = some q) :
    Lifetime cfg q where
  unborn := unborn_step p a q h.unborn hst
  reason := reason_step h hst
  signal := (parent_step h hst).1
  forking := (parent_step h hst).2
  returned := fun proc => (returned_step h hst proc).2
  main := fun hne => by
    have hp : p.timer 0 ≠ .returned := fun hp => hne ((returned_step h hst 0).1 hp)
    exact ((main_step hst).resolve_left hp).trans (h.main hp)
  child := fun hf w hfin => by
    have hp : p.timer (w + 1) = .returned ∨ p.threw w = true := by
      rcases finished_step hst w hfin with hp | ⟨-, -, -, -, hret⟩
      · exact h.child hf w hp
      · exact hret hf
    rw [(step_timer hst).threw_eq]
    exact hp.imp_left (returned_step h hst (w + 1)).1

/-- **The summary is printed only after every process had a reason to stop**, whatever code the workers run.  The process
that prints it has its flag set then, and so has each process that runs a worker, unless it is a child that the exception
has ended: because it was signalled itself, because its parent had been signalled before it forked it, or because it
belongs to a client and the duration has passed.  So a client never ends early without a signal; a server needs one, and
with `-M` one for each child as well: a signal for the parent that comes after the forks leaves it waiting. -/
theorem summary_after_stop (T : Nat → Thread σ α) (cfg : Config) (threw : Nat → Bool) (work : Nat → σ) (p : St σ)
    (totals : Field → UInt64) (h : Reach (step T cfg) (start threw work) p) (hm : p.stats.main = .printed totals) :
    (p.stop 0 = true ∧ Reason cfg p 0) ∧
    ∀ w < cfg.threads, p.stats.finished w = true ∧
      ((p.stop (procOf cfg w) = true ∧ Reason cfg p (procOf cfg w)) ∨ (forks cfg = true ∧ threw w = true)) := by
  have hlife : Lifetime cfg p := h.inv (lifetime_start threw work) lifetime_step
  have hthrew : p.threw = threw := h.inv (I := fun p => p.threw = threw) rfl
    fun p a q hp hst => (step_timer hst).threw_eq.trans hp
  have hmain : p.timer 0 = .returned := by
    by_contra hne
    rw [hlife.main hne] at hm
    cases hm
  have hzero := hlife.returned 0 hmain
  have hjoined : p.stats.main.joined cfg.threads = cfg.threads := by
    rw [hm]
    rfl
  refine ⟨⟨hzero, hlife.reason 0 hzero⟩, fun w hw => ?_⟩
  have hcounted := (reach_exact (f := .errors) (reach_stats h)).1
  have hfin : p.stats.finished w = true := hcounted.joined w (by rw [hjoined]; exact hw)
  refine ⟨hfin, ?_⟩
  unfold procOf
  split
  next hf =>
    rcases hlife.child hf w hfin with hret | hex
    · have hstop := hlife.returned _ hret
      exact Or.inl ⟨hstop, hlife.reason _ hstop⟩
    · rw [hthrew] at hex
      exact Or.inr ⟨hf, hex⟩
  · exact Or.inl ⟨hzero, hlife.reason 0 hzero⟩

end

/-- a server with three children -/
def threeChildren : Config := { mode := .server, threads := 3, multiProcess := true }

/-- the first child cannot create its ring, the second is signalled, and the third is forked after its parent has been
signalled -/
def signalled : List (Act (Batch.Act (Nat × Option (Bool × Nat)) Worker.Event)) :=
  List.flatten
    [[.fork, .fork, .interrupt 0, .fork, .interrupt 2],
      List.replicate 2 (.child 1),
      List.replicate 2 (.child 2),
      List.replicate 2 .main,
      [.returns 0, .returns 1, .returns 2],
      List.replicate 4 .main,
      [.reporter],
      List.replicate 14 .main]

theorem summary_after_stop_children : ∃ p totals,
    Reach (step (fun _ => serverThread Server.defaultSetup) threeChildren)
      (start (fun w => w == 0) (batchWork (fun _ => 1) (fun _ => 0) (fun _ => true) (fun _ _ => Worker.nullEntry 0)
        fun _ => Server.start Server.defaultSetup 256)) p ∧
    p.stats.main = .printed totals ∧ p.stop 1 = false ∧ p.interrupted 2 = true ∧ p.inherited 3 = true := by
  have hrun : ∃ p, Reach (step (fun _ => serverThread Server.defaultSetup) threeChildren)
      (start (fun w => w == 0) (batchWork (fun _ => 1) (fun _ => 0) (fun _ => true) (fun _ _ => Worker.nullEntry 0)
        fun _ => Server.start Server.defaultSetup 256)) p ∧
      p.stats.main.summary.isSome = true ∧ p.stop 1 = false ∧ p.inherited 2 = false ∧ p.interrupted 3 = false :=
    exists_reach signalled (by decide +kernel)
  obtain ⟨p, hp, hsome, hfirst, hcopy, hthird⟩ := hrun
  obtain ⟨totals, htot⟩ := Option.isSome_iff_exists.mp hsome
  have hm := Joiner.printed_of_summary htot
  have hserver : ∀ w < 2, p.interrupted (w + 2) = true ∨ p.inherited (w + 2) = true := by
    intro w hw
    have hend := ((summary_after_stop _ _ _ _ p totals hp hm).2 (w + 1) (Nat.succ_lt_succ hw)).2
    rcases hend with ⟨-, hi | ⟨hi, -⟩ | ⟨hc, -⟩⟩ | ⟨-, hex⟩
    · exact Or.inl hi
    · exact Or.inr hi
    · cases hc
    · exact absurd (beq_iff_eq.mp hex) (Nat.succ_ne_zero w)
  refine ⟨p, totals, hp, hm, hfirst, ?_, ?_⟩
  · exact (hserver 0 (by decide)).resolve_right fun hi => Bool.false_ne_true (hcopy.symm.trans hi)
  · exact (hserver 1 (by decide)).resolve_left fun hi => Bool.false_ne_true (hthird.symm.trans hi)

end Program
end UringPerf
