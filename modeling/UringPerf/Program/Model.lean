import UringPerf.Base.Run
import UringPerf.Config.Args
import UringPerf.Stats.Collector

/-!
# The whole program

`src/main.cpp`: the main thread starts the workers, waits in `run_until_stop`, joins the workers and prints the summary,
while the reporter thread prints a line each interval.  With `-M` the workers are child processes; each of them waits in
a `run_until_stop` of its own, and only the counters are shared.

* `Thread`          the code of a worker, left open here: its steps, and the calls of the collector that a step makes;
* `runUntilStop`    one step of `run_until_stop`, which sleeps and reads the clock;
* `St`, `step`      the program: every thread may take its next step at any time, and so may the kernel, the clock and
                    the signal handler of any process;
* `Unborn`          a process that has not been forked has its flag clear and has not begun.

Process 0 is the one that was started; its handlers are installed before it forks, and a child begins with a copy of
its flag.  `interrupted` records which processes have received a signal, and `inherited` which have found the flag set
at their fork; no thread reads them.
-/

namespace UringPerf
namespace Program
open Stats

/-- nanoseconds of the monotonic clock -/
def millisecond : Nat := 10^6

def second : Nat := 10^9

/-- the code of a worker's thread -/
structure Thread (σ α : Type) where
  step : σ → α → Option σ
  /-- the steps of the thread itself; the others are those of the kernel -/
  own : α → Bool
  /-- the thread finds the stop flag set -/
  isSignal : α → Bool
  /-- the calls of the collector that a step makes, in order -/
  calls : σ → α → List Call
  exited : σ → Bool

/-! ## `run_until_stop` -/

inductive Timer where
  | begin
  | test (startTime : Nat)
  | asleep (startTime wake : Nat)
  | returned
deriving DecidableEq, Repr

/-- the next step, and the stop flag after it; only a client looks at the clock -/
def runUntilStop (cfg : Config) (now : Nat) (stop : Bool) : Timer → Option (Timer × Bool)
  | .begin => some (.test now, stop)
  | .test startTime => some (if stop then .returned else .asleep startTime (now + 100 * millisecond), stop)
  | .asleep startTime wake =>
    if wake ≤ now then
      if cfg.mode = .client ∧ cfg.durationSec ≤ (now - startTime) / second then some (.returned, true)
      else some (.test startTime, stop)
    else none
  | .returned => none

theorem runUntilStop_stop {cfg : Config} {now : Nat} {timer timer' : Timer} {stop : Bool}
    (h : runUntilStop cfg now true timer = some (timer', stop)) : stop = true := by
  cases timer with
  | begin =>
    cases h
    rfl
  | test startTime =>
    cases h
    rfl
  | asleep startTime wake =>
    simp only [runUntilStop] at h
    split at h
    · split at h <;>
      · cases h
        rfl
    · cases h
  | returned => cases h

/-! ## the program -/

/-- the workers are processes -/
def forks (cfg : Config) : Bool := cfg.multiProcess && decide (1 < cfg.threads)

/-- the process a worker runs in -/
def procOf (cfg : Config) (w : Nat) : Nat := if forks cfg then w + 1 else 0

structure St (σ : Type) where
  /-- the ring of the worker cannot be created: the exception, which nobody catches, ends its process -/
  threw : Nat → Bool
  /-- the children that `main` has forked so far -/
  forked : Nat
  work : Nat → σ
  /-- the calls of its last step that a worker has still to make -/
  owed : Nat → List Call
  stats : Stats.St
  now : Nat
  /-- `g_stop_signal` of each process -/
  stop : Nat → Bool
  timer : Nat → Timer
  interrupted : Nat → Bool
  inherited : Nat → Bool

inductive Act (α : Type) where
  | fork
  | worker (w : Nat) (a : α)
  | call (w : Nat)
  | fetchAdd (w : Nat)
  | returns (w : Nat)
  | reporter
  | main
  | child (w : Nat)
  | interrupt (proc : Nat)
  | tick (d : Nat)

section
variable {σ α : Type} (T : Nat → Thread σ α) (cfg : Config)

/-- before the main thread forks its children or enters `run_until_stop` -/
def start (threw : Nat → Bool) (work : Nat → σ) : St σ where
  threw := threw
  forked := 0
  work := work
  owed := fun _ => []
  stats := Stats.start
  now := 0
  stop := fun _ => false
  timer := fun _ => .begin
  interrupted := fun _ => false
  inherited := fun _ => false

/-- the main thread has forked all children -/
def ready (p : St σ) : Prop := forks cfg = true → p.forked = cfg.threads

/-- the thread of the worker exists -/
def born (p : St σ) (w : Nat) : Prop := w < cfg.threads ∧ (forks cfg = true → w < p.forked)

instance (p : St σ) : Decidable (ready cfg p) := inferInstanceAs (Decidable (_ → _))

instance (p : St σ) (w : Nat) : Decidable (born cfg p w) := inferInstanceAs (Decidable (_ ∧ (_ → _)))

/-- a step of the collector -/
def statsStep (p : St σ) (a : Stats.Act) : Option (St σ) :=
  (Stats.step cfg.threads cfg.threads p.stats a).map fun stats => { p with stats := stats }

def timerStep (p : St σ) (proc : Nat) : Option (St σ) :=
  (runUntilStop cfg p.now (p.stop proc) (p.timer proc)).map fun r =>
    { p with timer := Function.update p.timer proc r.1, stop := Function.update p.stop proc r.2 }

/-- a worker takes its next step when it has made the calls of the one before; it finds the flag set only if it is -/
def mayStep (p : St σ) (w : Nat) (a : α) : Prop :=
  born cfg p w ∧ p.stats.finished w = false ∧
    ((T w).own a = true → p.owed w = [] ∧ p.stats.todo w = []) ∧
    ((T w).isSignal a = true → p.stop (procOf cfg w) = true)

instance (p : St σ) (w : Nat) (a : α) : Decidable (mayStep T cfg p w a) :=
  inferInstanceAs (Decidable (_ ∧ _ ∧ _ ∧ _))

/-- the thread of a worker returns when its loop is left, a child process after its own `run_until_stop` unless the
exception ends it; the exception in a thread ends the whole program, which is not a return -/
def mayReturn (p : St σ) (w : Nat) : Prop :=
  born cfg p w ∧ p.stats.finished w = false ∧ p.owed w = [] ∧ (T w).exited (p.work w) = true ∧
    (forks cfg = true → p.timer (w + 1) = .returned ∨ p.threw w = true)

instance (p : St σ) (w : Nat) : Decidable (mayReturn T cfg p w) :=
  inferInstanceAs (Decidable (_ ∧ _ ∧ _ ∧ _ ∧ _))

def step (p : St σ) : Act α → Option (St σ)
  | .fork =>
    -- the child has a copy of the flag
    if forks cfg = true ∧ p.forked < cfg.threads then
      some { p with
        forked := p.forked + 1
        stop := Function.update p.stop (p.forked + 1) (p.stop 0)
        inherited := Function.update p.inherited (p.forked + 1) (p.stop 0) }
    else none
  | .worker w a =>
    if mayStep T cfg p w a then
      ((T w).step (p.work w) a).map fun t =>
        { p with
          work := Function.update p.work w t
          owed := Function.update p.owed w (p.owed w ++ (T w).calls (p.work w) a) }
    else none
  | .call w =>
    match p.owed w with
    | [] => none
    | c :: cs => (statsStep cfg p (.call w c)).map fun q => { q with owed := Function.update q.owed w cs }
  | .fetchAdd w => statsStep cfg p (.fetchAdd w)
  | .returns w => if mayReturn T cfg p w then statsStep cfg p (.finish w) else none
  | .reporter => if ready cfg p then statsStep cfg p .reporter else none
  | .main =>
    if ready cfg p then
      if p.timer 0 = .returned then statsStep cfg p .main else timerStep cfg p 0
    else none
  | .child w =>
    if forks cfg = true ∧ born cfg p w ∧ p.stats.finished w = false then timerStep cfg p (w + 1) else none
  | .interrupt proc =>
    if proc ≤ p.forked then
      some { p with
        stop := Function.update p.stop proc true
        interrupted := Function.update p.interrupted proc true }
    else none
  | .tick d => some { p with now := p.now + d }

end

/-! ## what one action does -/

section
variable {σ α : Type} {T : Nat → Thread σ α} {cfg : Config} {p q : St σ}

theorem step_fork (h : step T cfg p .fork = some q) : (forks cfg = true ∧ p.forked < cfg.threads) ∧
    q = { p with
      forked := p.forked + 1
      stop := Function.update p.stop (p.forked + 1) (p.stop 0)
      inherited := Function.update p.inherited (p.forked + 1) (p.stop 0) } := by
  simp only [step] at h
  split at h
  next hf =>
    cases h
    exact ⟨hf, rfl⟩
  · cases h

theorem step_interrupt {proc : Nat} (h : step T cfg p (.interrupt proc) = some q) : proc ≤ p.forked ∧
    q = { p with
      stop := Function.update p.stop proc true
      interrupted := Function.update p.interrupted proc true } := by
  simp only [step] at h
  split at h
  next hle =>
    cases h
    exact ⟨hle, rfl⟩
  · cases h

theorem step_worker {w : Nat} {a : α} (h : step T cfg p (.worker w a) = some q) :
    mayStep T cfg p w a ∧ ∃ t, (T w).step (p.work w) a = some t ∧
      q = { p with
        work := Function.update p.work w t
        owed := Function.update p.owed w (p.owed w ++ (T w).calls (p.work w) a) } := by
  simp only [step] at h
  split at h
  next hmay =>
    obtain ⟨t, ht, rfl⟩ := Option.map_eq_some_iff.mp h
    exact ⟨hmay, t, ht, rfl⟩
  · cases h

theorem statsStep_some {a : Stats.Act} (h : statsStep cfg p a = some q) :
    ∃ stats, Stats.step cfg.threads cfg.threads p.stats a = some stats ∧ q = { p with stats := stats } := by
  obtain ⟨stats, hs, rfl⟩ := Option.map_eq_some_iff.mp h
  exact ⟨stats, hs, rfl⟩

theorem step_call {w : Nat} (h : step T cfg p (.call w) = some q) :
    ∃ c cs stats, p.owed w = c :: cs ∧ Stats.step cfg.threads cfg.threads p.stats (.call w c) = some stats ∧
      q = { p with stats := stats, owed := Function.update p.owed w cs } := by
  simp only [step] at h
  split at h
  · cases h
  next c cs howed =>
    obtain ⟨q', hq', rfl⟩ := Option.map_eq_some_iff.mp h
    obtain ⟨stats, hs, rfl⟩ := statsStep_some hq'
    exact ⟨c, cs, stats, howed, hs, rfl⟩

theorem step_returns {w : Nat} (h : step T cfg p (.returns w) = some q) :
    mayReturn T cfg p w ∧ ∃ stats, Stats.step cfg.threads cfg.threads p.stats (.finish w) = some stats ∧
      q = { p with stats := stats } := by
  simp only [step] at h
  split at h
  next hmay => exact ⟨hmay, statsStep_some h⟩
  · cases h

theorem timerStep_some {proc : Nat} (h : timerStep cfg p proc = some q) :
    ∃ timer stop, runUntilStop cfg p.now (p.stop proc) (p.timer proc) = some (timer, stop) ∧
      q = { p with timer := Function.update p.timer proc timer, stop := Function.update p.stop proc stop } := by
  obtain ⟨r, hr, rfl⟩ := Option.map_eq_some_iff.mp h
  exact ⟨r.1, r.2, hr, rfl⟩

theorem step_reporter (h : step T cfg p .reporter = some q) : ready cfg p ∧
    ∃ stats, Stats.step cfg.threads cfg.threads p.stats .reporter = some stats ∧ q = { p with stats := stats } := by
  simp only [step] at h
  split at h
  next hr => exact ⟨hr, statsStep_some h⟩
  · cases h

theorem step_main (h : step T cfg p .main = some q) : ready cfg p ∧
    ((p.timer 0 = .returned ∧ ∃ stats, Stats.step cfg.threads cfg.threads p.stats .main = some stats ∧
      q = { p with stats := stats }) ∨ p.timer 0 ≠ .returned ∧ timerStep cfg p 0 = some q) := by
  simp only [step] at h
  split at h
  next hr =>
    split at h
    next hret => exact ⟨hr, Or.inl ⟨hret, statsStep_some h⟩⟩
    next hret => exact ⟨hr, Or.inr ⟨hret, h⟩⟩
  · cases h

theorem step_child {w : Nat} (h : step T cfg p (.child w) = some q) :
    (forks cfg = true ∧ born cfg p w ∧ p.stats.finished w = false) ∧ timerStep cfg p (w + 1) = some q := by
  simp only [step] at h
  split at h
  next hw => exact ⟨hw, h⟩
  · cases h

/-- an action is a step of the collector, or leaves it alone; the main thread joins after its `run_until_stop`, and a
worker finishes when it may return -/
theorem step_stats {a : Act α} (h : step T cfg p a = some q) :
    q.stats = p.stats ∨ ∃ b, Stats.step cfg.threads cfg.threads p.stats b = some q.stats ∧
      (b = .main → p.timer 0 = .returned) ∧ ∀ w, b = .finish w → mayReturn T cfg p w := by
  cases a with
  | fork =>
    obtain ⟨-, rfl⟩ := step_fork h
    exact Or.inl rfl
  | worker w a =>
    obtain ⟨-, t, -, rfl⟩ := step_worker h
    exact Or.inl rfl
  | call w =>
    obtain ⟨c, cs, stats, -, hs, rfl⟩ := step_call h
    exact Or.inr ⟨_, hs, Stats.Act.noConfusion, fun _ => Stats.Act.noConfusion⟩
  | fetchAdd w =>
    obtain ⟨stats, hs, rfl⟩ := statsStep_some h
    exact Or.inr ⟨_, hs, Stats.Act.noConfusion, fun _ => Stats.Act.noConfusion⟩
  | returns w =>
    obtain ⟨hmay, stats, hs, rfl⟩ := step_returns h
    exact Or.inr ⟨_, hs, Stats.Act.noConfusion, fun v hv => Stats.Act.finish.inj hv ▸ hmay⟩
  | reporter =>
    obtain ⟨-, stats, hs, rfl⟩ := step_reporter h
    exact Or.inr ⟨_, hs, Stats.Act.noConfusion, fun _ => Stats.Act.noConfusion⟩
  | main =>
    rcases (step_main h).2 with ⟨hret, stats, hs, rfl⟩ | ⟨-, ht⟩
    · exact Or.inr ⟨_, hs, fun _ => hret, fun _ => Stats.Act.noConfusion⟩
    · obtain ⟨_, _, -, rfl⟩ := timerStep_some ht
      exact Or.inl rfl
  | child w =>
    obtain ⟨_, _, -, rfl⟩ := timerStep_some (step_child h).2
    exact Or.inl rfl
  | interrupt proc =>
    obtain ⟨-, rfl⟩ := step_interrupt h
    exact Or.inl rfl
  | tick d =>
    cases h
    exact Or.inl rfl

theorem reach_stats {threw : Nat → Bool} {work : Nat → σ} (h : Trans.Reach (step T cfg) (start threw work) p) :
    Trans.Reach (Stats.step cfg.threads cfg.threads) Stats.start p.stats := by
  refine h.inv (I := fun p => Trans.Reach (Stats.step cfg.threads cfg.threads) Stats.start p.stats)
    Trans.Reach.refl fun p a q hp hst => ?_
  rcases step_stats hst with he | ⟨b, hb, -⟩
  · rw [he]
    exact hp
  · exact hp.tail hb

/-- what an action does to the timers and the flags -/
inductive TimerStep (cfg : Config) (p q : St σ) : Prop where
  | quiet (forked : q.forked = p.forked) (timer : q.timer = p.timer) (stop : q.stop = p.stop) (now : q.now = p.now)
      (interrupted : q.interrupted = p.interrupted) (inherited : q.inherited = p.inherited) (threw : q.threw = p.threw)
  | waits (proc : Nat) (born : proc ≤ p.forked) (first : proc = 0 → ready cfg p) (h : timerStep cfg p proc = some q)
  | signal (proc : Nat) (born : proc ≤ p.forked)
      (h : q = { p with
        stop := Function.update p.stop proc true
        interrupted := Function.update p.interrupted proc true })
  | fork (may : forks cfg = true ∧ p.forked < cfg.threads)
      (h : q = { p with
        forked := p.forked + 1
        stop := Function.update p.stop (p.forked + 1) (p.stop 0)
        inherited := Function.update p.inherited (p.forked + 1) (p.stop 0) })
  | clock (d : Nat) (h : q = { p with now := p.now + d })

theorem step_timer {a : Act α} (h : step T cfg p a = some q) : TimerStep cfg p q := by
  cases a with
  | fork =>
    obtain ⟨hmay, rfl⟩ := step_fork h
    exact .fork hmay rfl
  | worker w a =>
    obtain ⟨-, t, -, rfl⟩ := step_worker h
    exact .quiet rfl rfl rfl rfl rfl rfl rfl
  | call w =>
    obtain ⟨c, cs, stats, -, -, rfl⟩ := step_call h
    exact .quiet rfl rfl rfl rfl rfl rfl rfl
  | fetchAdd w =>
    obtain ⟨stats, -, rfl⟩ := statsStep_some h
    exact .quiet rfl rfl rfl rfl rfl rfl rfl
  | returns w =>
    obtain ⟨-, stats, -, rfl⟩ := step_returns h
    exact .quiet rfl rfl rfl rfl rfl rfl rfl
  | reporter =>
    obtain ⟨-, stats, -, rfl⟩ := step_reporter h
    exact .quiet rfl rfl rfl rfl rfl rfl rfl
  | main =>
    obtain ⟨hready, ⟨-, stats, -, rfl⟩ | ⟨-, ht⟩⟩ := step_main h
    · exact .quiet rfl rfl rfl rfl rfl rfl rfl
    · exact .waits 0 (Nat.zero_le _) (fun _ => hready) ht
  | child w =>
    obtain ⟨⟨hf, hborn, -⟩, ht⟩ := step_child h
    exact .waits (w + 1) (hborn.2 hf) (fun h0 => absurd h0 (Nat.succ_ne_zero w)) ht
  | interrupt proc =>
    obtain ⟨hle, rfl⟩ := step_interrupt h
    exact .signal proc hle rfl
  | tick d =>
    cases h
    exact .clock d rfl

theorem TimerStep.threw_eq (h : TimerStep cfg p q) : q.threw = p.threw := by
  cases h with
  | quiet _ _ _ _ _ _ ht => exact ht
  | waits _ _ _ ht =>
    obtain ⟨_, _, -, rfl⟩ := timerStep_some ht
    rfl
  | signal _ _ he => rw [he]
  | fork _ he => rw [he]
  | clock _ he => rw [he]

/-- a process that has not been forked has not begun -/
structure Unborn (cfg : Config) (p : St σ) : Prop where
  forked : p.forked ≤ cfg.threads
  stop : ∀ proc, p.forked < proc → p.stop proc = false
  timer : ∀ proc, p.forked < proc → p.timer proc = .begin

theorem unborn_start (threw : Nat → Bool) (work : Nat → σ) : Unborn cfg (start threw work) where
  forked := Nat.zero_le _
  stop := fun _ _ => rfl
  timer := fun _ _ => rfl

theorem unborn_step (p : St σ) (a : Act α) (q : St σ) (h : Unborn cfg p) (hst : step T cfg p a = some q) :
    Unborn cfg q := by
  cases step_timer hst with
  | quiet hf ht hs =>
    refine ⟨?_, ?_, ?_⟩
    · rw [hf]
      exact h.forked
    · rw [hf, hs]
      exact h.stop
    · rw [hf, ht]
      exact h.timer
  | waits proc hborn _ ht =>
    obtain ⟨timer, stop, -, rfl⟩ := timerStep_some ht
    refine ⟨h.forked, fun v hv => ?_, fun v hv => ?_⟩
    · exact (Function.update_of_ne (Nat.ne_of_gt (Nat.lt_of_le_of_lt hborn hv)) _ _).trans (h.stop v hv)
    · exact (Function.update_of_ne (Nat.ne_of_gt (Nat.lt_of_le_of_lt hborn hv)) _ _).trans (h.timer v hv)
  | signal proc hborn he =>
    subst he
    refine ⟨h.forked, fun v hv => ?_, h.timer⟩
    exact (Function.update_of_ne (Nat.ne_of_gt (Nat.lt_of_le_of_lt hborn hv)) _ _).trans (h.stop v hv)
  | fork hmay he =>
    subst he
    refine ⟨hmay.2, fun v hv => ?_, fun v hv => h.timer v (Nat.lt_of_succ_lt hv)⟩
    exact (Function.update_of_ne (Nat.ne_of_gt hv) _ _).trans (h.stop v (Nat.lt_of_succ_lt hv))
  | clock d he =>
    subst he
    exact ⟨h.forked, h.stop, h.timer⟩

/-- no flag is ever cleared -/
theorem step_stop {a : Act α} (hb : Unborn cfg p) (h : step T cfg p a = some q) {proc : Nat}
    (hp : p.stop proc = true) : q.stop proc = true := by
  cases step_timer h with
  | quiet _ _ hs =>
    rw [hs]
    exact hp
  | waits v _ _ ht =>
    obtain ⟨timer, stop, hr, rfl⟩ := timerStep_some ht
    show Function.update p.stop v stop proc = true
    by_cases hv : proc = v
    · subst hv
      rw [Function.update_self]
      rw [hp] at hr
      exact runUntilStop_stop hr
    · rw [Function.update_of_ne hv]
      exact hp
  | signal v _ he =>
    subst he
    show Function.update p.stop v true proc = true
    rw [Function.update_apply]
    split
    · rfl
    · exact hp
  | fork _ he =>
    subst he
    have hne : proc ≠ p.forked + 1 := by
      rintro rfl
      rw [hb.stop _ (Nat.lt_succ_self _)] at hp
      cases hp
    exact (Function.update_of_ne hne _ _).trans hp
  | clock d he =>
    subst he
    exact hp

/-- a worker takes steps of its own code only -/
theorem step_work {a : Act α} (h : step T cfg p a = some q) (w : Nat) :
    q.work w = p.work w ∨ ∃ b, (T w).step (p.work w) b = some (q.work w) := by
  cases a with
  | fork =>
    obtain ⟨-, rfl⟩ := step_fork h
    exact Or.inl rfl
  | worker v a =>
    obtain ⟨-, t, ht, rfl⟩ := step_worker h
    show Function.update p.work v t w = _ ∨ ∃ b, (T w).step (p.work w) b = some (Function.update p.work v t w)
    by_cases hw : w = v
    · subst hw
      rw [Function.update_self]
      exact Or.inr ⟨a, ht⟩
    · rw [Function.update_of_ne hw]
      exact Or.inl rfl
  | call v =>
    obtain ⟨c, cs, stats, -, -, rfl⟩ := step_call h
    exact Or.inl rfl
  | fetchAdd v =>
    obtain ⟨stats, -, rfl⟩ := statsStep_some h
    exact Or.inl rfl
  | returns v =>
    obtain ⟨-, stats, -, rfl⟩ := step_returns h
    exact Or.inl rfl
  | reporter =>
    obtain ⟨-, stats, -, rfl⟩ := step_reporter h
    exact Or.inl rfl
  | main =>
    rcases (step_main h).2 with ⟨-, stats, -, rfl⟩ | ⟨-, ht⟩
    · exact Or.inl rfl
    · obtain ⟨_, _, -, rfl⟩ := timerStep_some ht
      exact Or.inl rfl
  | child v =>
    obtain ⟨_, _, -, rfl⟩ := timerStep_some (step_child h).2
    exact Or.inl rfl
  | interrupt proc =>
    obtain ⟨-, rfl⟩ := step_interrupt h
    exact Or.inl rfl
  | tick d =>
    cases h
    exact Or.inl rfl

/-- what its own steps keep holds of a worker in every run of the program -/
theorem work_step {I : Nat → σ → Prop} (hI : ∀ w s a t, I w s → (T w).step s a = some t → I w t) (p : St σ) (a : Act α)
    (q : St σ) (h : ∀ w, I w (p.work w)) (hst : step T cfg p a = some q) (w : Nat) : I w (q.work w) := by
  rcases step_work hst w with he | ⟨b, hb⟩
  · rw [he]
    exact h w
  · exact hI w _ b _ (h w) hb

end
end Program
end UringPerf
