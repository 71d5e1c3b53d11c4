import UringPerf.Base.Trace
import UringPerf.Program.Summary
import UringPerf.Worker.Stops

/-!
# The program shuts down

Once every process has its stop flag set and every worker has found it, the threads of the program take only a bounded
number of further steps, and they do not wait for each other in a circle: until the summary is printed one of them can
go on, or a `run_until_stop` is in the rest of its 100 ms.

* `Stops`            a worker that has found the flag has so many steps left;
* `Stopping`         what holds of the program from that moment on;
* `rank`             how many steps are left of all threads together; the lines the reporter prints while the workers are
                     joined do not count;
* `shutdown`         the five kinds of worker.
-/

namespace UringPerf
namespace Program
open Trans Stats Circular

/-! ## the collector -/

section
variable {n : Nat} {s t : Stats.St}

/-- the loads left of a read loop, and the flag of the reporter -/
structure Lengths (n : Nat) (s : Stats.St) : Prop where
  reporter : ∀ r, s.reporter = .reading r → r.left.length ≤ 3 * n
  main : ∀ r, s.main = .reading r → r.left.length ≤ 4 * n
  running : (∀ w, s.main ≠ .joining w) → s.running = false

theorem length_loads (n : Nat) (fields : List Field) : (loads n fields).length = fields.length * n := by
  unfold loads
  rw [List.length_flatMap]
  simp [Nat.mul_comm]

theorem lengths_start : Lengths n Stats.start where
  reporter := fun r h => by cases h
  main := fun r h => by cases h
  running := fun h => absurd rfl (h 0)

theorem Lengths.frame (h : Lengths n s) (hr : t.reporter = s.reporter) (hm : t.main = s.main)
    (hrun : t.running = s.running) : Lengths n t where
  reporter := by
    rw [hr]
    exact h.reporter
  main := by
    rw [hm]
    exact h.main
  running := by
    rw [hm, hrun]
    exact h.running

theorem Lengths.reporterStep (h : Lengths n s) (hst : reporterStep n s = some t) : Lengths n t := by
  have hmain : t.main = s.main := by
    obtain ⟨_, _, _, rfl⟩ := reporter_frame hst
    rfl
  have hrun : t.running = s.running := by
    obtain ⟨_, _, _, rfl⟩ := reporter_frame hst
    rfl
  refine ⟨fun r hr => ?_, by rw [hmain]; exact h.main, by rw [hmain, hrun]; exact h.running⟩
  unfold Stats.reporterStep at hst
  split at hst
  · cases hst
    change (if s.running = true then Reporter.sleeping else .exited) = .reading r at hr
    split at hr <;> cases hr
  · cases hst
    change (if s.running = true then Reporter.reading (.begin n reporterFields s.added) else .exited) = _ at hr
    split at hr
    · cases hr
      exact (length_loads n reporterFields).le
    · cases hr
  next r' hr' =>
    split at hst
    · cases hst
      cases hr
    next c left hleft =>
      cases hst
      cases hr
      have hle := h.reporter r' hr'
      rw [hleft, List.length_cons] at hle
      show left.length ≤ 3 * n
      omega
  · cases hst

theorem Lengths.mainStep (h : Lengths n s) (hst : mainStep n n s = some t) : Lengths n t := by
  have hrep : t.reporter = s.reporter := by
    obtain ⟨⟨_, _, rfl⟩, -⟩ := main_frame hst
    rfl
  refine ⟨by rw [hrep]; exact h.reporter, fun r hr => ?_, fun hj => ?_⟩
  · unfold Stats.mainStep at hst
    split at hst
    · split at hst
      · split at hst
        · cases hst
          cases hr
        · cases hst
      · cases hst
        cases hr
    · split at hst
      · cases hst
        cases hr
        exact (length_loads n summaryFields).le
      · cases hst
    next r' hr' =>
      split at hst
      · cases hst
        cases hr
      next c left hleft =>
        cases hst
        cases hr
        have hle := h.main r' hr'
        rw [hleft, List.length_cons] at hle
        show left.length ≤ 4 * n
        omega
    · cases hst
  · unfold Stats.mainStep at hst
    split at hst
    next w hw =>
      split at hst
      · split at hst
        · cases hst
          exact absurd rfl (hj (w + 1))
        · cases hst
      · cases hst
        rfl
    next hw =>
      have hrun := h.running (by rw [hw]; exact fun w => Joiner.noConfusion)
      split at hst
      · cases hst
        exact hrun
      · cases hst
    next r' hr' =>
      have hrun := h.running (by rw [hr']; exact fun w => Joiner.noConfusion)
      split at hst
      · cases hst
        exact hrun
      · cases hst
        exact hrun
    · cases hst

theorem lengths_step {a : Stats.Act} (h : Lengths n s) (hst : Stats.step n n s a = some t) : Lengths n t := by
  cases a with
  | call w c =>
    obtain ⟨-, rfl⟩ := Stats.step_call hst
    exact h.frame rfl rfl rfl
  | fetchAdd w =>
    obtain ⟨_, _, _, -, rfl⟩ := Stats.step_fetchAdd hst
    exact h.frame rfl rfl rfl
  | finish w =>
    obtain ⟨-, rfl⟩ := Stats.step_finish hst
    exact h.frame rfl rfl rfl
  | reporter => exact h.reporterStep hst
  | main => exact h.mainStep hst

/-! ## the ranks of the readers -/

def mainRank (n : Nat) : Joiner → Nat
  | .joining w => (n - w) + 4 * n + 3
  | .stopping => 4 * n + 2
  | .reading r => r.left.length + 1
  | .printed _ => 0

/-- while the reporter may go on for another interval its steps do not count -/
def reporterRank (n : Nat) (running : Bool) : Reporter → Nat
  | .exited => 0
  | .test | .sleeping => if running then 3 * n + 2 else 1
  | .reading r => if running then 3 * n + 2 else r.left.length + 2

def readersRank (n : Nat) (s : Stats.St) : Nat := mainRank n s.main + reporterRank n s.running s.reporter

theorem mainRank_le (h : Lengths n s) : mainRank n s.main ≤ 5 * n + 3 := by
  cases hm : s.main with
  | joining w =>
    show (n - w) + 4 * n + 3 ≤ _
    omega
  | stopping =>
    show 4 * n + 2 ≤ _
    omega
  | reading r =>
    have hle := h.main r hm
    show r.left.length + 1 ≤ _
    omega
  | printed totals => exact Nat.zero_le _

theorem reporterRank_le (h : Lengths n s) : reporterRank n s.running s.reporter ≤ 3 * n + 2 := by
  cases hr : s.reporter with
  | exited => exact Nat.zero_le _
  | test =>
    show (if s.running then _ else _) ≤ _
    split <;> omega
  | sleeping =>
    show (if s.running then _ else _) ≤ _
    split <;> omega
  | reading r =>
    have hle := h.reporter r hr
    show (if s.running then _ else _) ≤ _
    split <;> omega

/-- a step of the main thread after `run_until_stop`; a step that lowers the flag makes those of the reporter count -/
theorem readersRank_main (h : Lengths n s) (hst : mainStep n n s = some t) :
    readersRank n t + 1 ≤ readersRank n s := by
  unfold readersRank
  unfold Stats.mainStep at hst
  split at hst
  next w hw =>
    rw [hw]
    split at hst
    next hlt =>
      split at hst
      · cases hst
        show (n - (w + 1)) + 4 * n + 3 + reporterRank n s.running s.reporter + 1 ≤ (n - w) + 4 * n + 3 + _
        omega
      · cases hst
    · cases hst
      have hrep : reporterRank n false s.reporter ≤ reporterRank n s.running s.reporter := by
        cases hr : s.reporter with
        | exited => exact le_rfl
        | test =>
          show 1 ≤ if s.running then _ else _
          split <;> omega
        | sleeping =>
          show 1 ≤ if s.running then _ else _
          split <;> omega
        | reading r =>
          have hle := h.reporter r hr
          show r.left.length + 2 ≤ if s.running then _ else _
          split <;> omega
      show 4 * n + 2 + reporterRank n false s.reporter + 1 ≤ (n - w) + 4 * n + 3 + _
      omega
  next hm =>
    rw [hm]
    split at hst
    · cases hst
      have hlen : (loads n summaryFields).length = 4 * n := length_loads n summaryFields
      show (loads n summaryFields).length + 1 + reporterRank n s.running s.reporter + 1 ≤ 4 * n + 2 + _
      omega
    · cases hst
  next r hm =>
    rw [hm]
    split at hst
    · cases hst
      show 0 + reporterRank n s.running s.reporter + 1 ≤ r.left.length + 1 + _
      omega
    next c left hleft =>
      cases hst
      show left.length + 1 + reporterRank n s.running s.reporter + 1 ≤ r.left.length + 1 + _
      rw [hleft, List.length_cons]
      omega
  · cases hst

theorem readersRank_reporter (hst : reporterStep n s = some t) :
    readersRank n t + (if !s.running then 1 else 0) ≤ readersRank n s := by
  have hlower : reporterRank n s.running t.reporter + (if !s.running then 1 else 0) ≤
      reporterRank n s.running s.reporter := by
    unfold Stats.reporterStep at hst
    cases hb : s.running with
    | true =>
      rw [hb] at hst
      split at hst
      next hr =>
        cases hst
        rw [hr]
        exact le_rfl
      next hr =>
        cases hst
        rw [hr]
        exact le_rfl
      next r hr =>
        rw [hr]
        split at hst
        · cases hst
          exact le_rfl
        · cases hst
          exact le_rfl
      · cases hst
    | false =>
      rw [hb] at hst
      split at hst
      next hr =>
        cases hst
        rw [hr]
        exact le_rfl
      next hr =>
        cases hst
        rw [hr]
        exact le_rfl
      next r hr =>
        rw [hr]
        split at hst
        · cases hst
          show 1 + 1 ≤ r.left.length + 2
          omega
        next c left hleft =>
          cases hst
          show left.length + 2 + 1 ≤ r.left.length + 2
          rw [hleft, List.length_cons]
      · cases hst
  obtain ⟨_, _, _, rfl⟩ := reporter_frame hst
  unfold readersRank
  rw [Nat.add_assoc]
  exact Nat.add_le_add_left hlower _

end

/-! ## `run_until_stop` -/

/-- the steps left when the flag is set -/
def timerRank : Timer → Nat
  | .returned => 0
  | .test _ => 1
  | .asleep .. => 2
  | .begin => 2

theorem timerRank_le (timer : Timer) : timerRank timer ≤ 2 := by
  cases timer with
  | returned => exact Nat.zero_le 2
  | test startTime => exact Nat.le_succ 1
  | asleep startTime wake => exact le_rfl
  | begin => exact le_rfl

theorem timerRank_step {cfg : Config} {now : Nat} {timer timer' : Timer} {stop : Bool}
    (h : runUntilStop cfg now true timer = some (timer', stop)) : timerRank timer' + 1 ≤ timerRank timer := by
  cases timer with
  | begin =>
    cases h
    exact le_rfl
  | test startTime =>
    cases h
    exact le_rfl
  | asleep startTime wake =>
    simp only [runUntilStop] at h
    split at h
    · split at h
      · cases h
        exact Nat.le_succ _
      · cases h
        exact le_rfl
    · cases h
  | returned => cases h

/-- `run_until_stop` sleeps no longer than 100 ms -/
def Timer.Wakes (now : Nat) (timer : Timer) : Prop :=
  ∀ startTime wake, timer = .asleep startTime wake → wake ≤ now + 100 * millisecond

theorem wakes_step {cfg : Config} {now : Nat} {timer timer' : Timer} {stop stop' : Bool}
    (h : runUntilStop cfg now stop timer = some (timer', stop')) : timer'.Wakes now := by
  rintro startTime wake rfl
  cases timer with
  | begin => cases h
  | test t0 =>
    cases stop with
    | true => cases h
    | false =>
      cases h
      exact le_rfl
  | asleep t0 w0 =>
    simp only [runUntilStop] at h
    split at h
    · split at h <;> cases h
    · cases h
  | returned => cases h

/-- `run_until_stop` is left, sleeps, or can go on -/
theorem timer_live (cfg : Config) (now : Nat) (stop : Bool) (timer : Timer) :
    timer = .returned ∨ (∃ startTime wake, timer = .asleep startTime wake ∧ now < wake) ∨
      (runUntilStop cfg now stop timer).isSome = true := by
  cases timer with
  | begin => exact Or.inr (Or.inr rfl)
  | test startTime => exact Or.inr (Or.inr rfl)
  | asleep startTime wake =>
    by_cases hw : wake ≤ now
    · refine Or.inr (Or.inr ?_)
      simp only [runUntilStop]
      rw [if_pos hw]
      split <;> rfl
    · exact Or.inr (Or.inl ⟨startTime, wake, rfl, Nat.lt_of_not_le hw⟩)
  | returned => exact Or.inl rfl

/-! ## any thread that stops -/

section
variable {σ α : Type} {T : Nat → Thread σ α} {cfg : Config} {I : Nat → σ → Prop} {p q : St σ}

/-- the calls, and the additions they make -/
def cost (cs : List Call) : Nat := (cs.map fun c => 1 + c.fetchAdds.length).sum

theorem cost_cons (c : Call) (cs : List Call) : cost (c :: cs) = 1 + c.fetchAdds.length + cost cs := rfl

theorem cost_append (cs ds : List Call) : cost (cs ++ ds) = cost cs + cost ds := by
  unfold cost
  rw [List.map_append, List.sum_append]

/-- only the steps of the thread itself make calls, and few of them -/
structure Brief (T : Thread σ α) : Prop where
  cost_le : ∀ s a, cost (T.calls s a) ≤ 5
  quiet : ∀ s a, T.own a = false → T.calls s a = []

/-- a thread that has found the flag set has so many steps left, and needs no other signal for them -/
structure Stops (T : Thread σ α) (I : σ → Prop) (rank : σ → Nat) : Prop where
  brief : Brief T
  ranked : Ranked T.step T.own (fun s => T.exited s = true) I rank
  next : ∃ a, T.own a = true ∧ T.isSignal a = false

/-- what holds in every run of the program -/
structure Steady (cfg : Config) (p : St σ) : Prop where
  counted : Stats.Counted cfg.threads cfg.threads p.stats
  lengths : Lengths cfg.threads p.stats
  small : ∀ w, cost (p.owed w) + (p.stats.todo w).length ≤ 5
  wakes : ∀ proc, (p.timer proc).Wakes p.now
  unborn : Unborn cfg p

theorem steady_start (threw : Nat → Bool) (work : Nat → σ) : Steady cfg (start threw work) where
  unborn := unborn_start threw work
  counted := Stats.counted_start
  lengths := lengths_start
  small := fun _ => Nat.zero_le 5
  wakes := fun _ _ _ h => by cases h

theorem small_step (hT : ∀ w, Brief (T w)) {a : Act α} (h : Steady cfg p) (hst : step T cfg p a = some q) (w : Nat) :
    cost (q.owed w) + (q.stats.todo w).length ≤ 5 := by
  have hw := h.small w
  cases a with
  | fork =>
    obtain ⟨-, rfl⟩ := step_fork hst
    exact hw
  | worker v a =>
    obtain ⟨⟨-, -, hown, -⟩, t, -, rfl⟩ := step_worker hst
    show cost (Function.update p.owed v _ w) + (p.stats.todo w).length ≤ 5
    by_cases hwv : w = v
    · subst hwv
      rw [Function.update_self]
      cases ho : (T w).own a with
      | true =>
        obtain ⟨howed, htodo⟩ := hown ho
        rw [howed, htodo]
        exact (hT w).cost_le _ a
      | false =>
        rw [(hT w).quiet _ a ho, List.append_nil]
        exact hw
    · rw [Function.update_of_ne hwv]
      exact hw
  | call v =>
    obtain ⟨c, cs, st, howed, hcall, rfl⟩ := step_call hst
    obtain ⟨⟨hlt, -, htodo⟩, rfl⟩ := Stats.step_call hcall
    show cost (Function.update p.owed v cs w) + (Function.update p.stats.todo v _ w).length ≤ 5
    by_cases hwv : w = v
    · subst hwv
      rw [Function.update_self, Function.update_self, if_pos hlt]
      rw [howed, cost_cons] at hw
      omega
    · rw [Function.update_of_ne hwv, Function.update_of_ne hwv]
      exact hw
  | fetchAdd v =>
    obtain ⟨st, hs, rfl⟩ := statsStep_some hst
    obtain ⟨f, x, rest, htodo, rfl⟩ := Stats.step_fetchAdd hs
    show cost (p.owed w) + (Function.update p.stats.todo v rest w).length ≤ 5
    by_cases hwv : w = v
    · subst hwv
      rw [Function.update_self]
      rw [htodo, List.length_cons] at hw
      omega
    · rw [Function.update_of_ne hwv]
      exact hw
  | returns v =>
    obtain ⟨-, st, hs, rfl⟩ := step_returns hst
    obtain ⟨-, rfl⟩ := Stats.step_finish hs
    exact hw
  | reporter =>
    obtain ⟨-, st, hs, rfl⟩ := step_reporter hst
    obtain ⟨_, _, _, rfl⟩ := reporter_frame hs
    exact hw
  | main =>
    rcases (step_main hst).2 with ⟨-, st, hs, rfl⟩ | ⟨-, ht⟩
    · obtain ⟨⟨_, _, rfl⟩, -⟩ := main_frame hs
      exact hw
    · obtain ⟨_, _, -, rfl⟩ := timerStep_some ht
      exact hw
  | child v =>
    obtain ⟨_, _, -, rfl⟩ := timerStep_some (step_child hst).2
    exact hw
  | interrupt proc =>
    obtain ⟨-, rfl⟩ := step_interrupt hst
    exact hw
  | tick d =>
    cases hst
    exact hw

theorem wakes_timer (h : ∀ proc, (p.timer proc).Wakes p.now) {a : Act α} (hst : step T cfg p a = some q) (v : Nat) :
    (q.timer v).Wakes q.now := by
  cases step_timer hst with
  | quiet _ ht _ hn =>
    rw [ht, hn]
    exact h v
  | waits proc _ _ ht =>
    obtain ⟨timer, stop, hr, rfl⟩ := timerStep_some ht
    show (Function.update p.timer proc timer v).Wakes p.now
    by_cases hv : v = proc
    · subst hv
      rw [Function.update_self]
      exact wakes_step hr
    · rw [Function.update_of_ne hv]
      exact h v
  | signal _ _ he =>
    subst he
    exact h v
  | fork _ he =>
    subst he
    exact h v
  | clock d he =>
    subst he
    intro startTime wake hasleep
    have hle := h v startTime wake hasleep
    show wake ≤ p.now + d + 100 * millisecond
    omega

theorem steady_step (hT : ∀ w, Brief (T w)) (p : St σ) (a : Act α) (q : St σ) (h : Steady cfg p)
    (hst : step T cfg p a = some q) : Steady cfg q := by
  have hstats : Stats.Counted cfg.threads cfg.threads q.stats ∧ Lengths cfg.threads q.stats := by
    rcases step_stats hst with he | ⟨b, hb, -⟩
    · rw [he]
      exact ⟨h.counted, h.lengths⟩
    · exact ⟨Stats.counted_step h.counted hb, lengths_step h.lengths hb⟩
  exact ⟨hstats.1, hstats.2, small_step hT h hst, wakes_timer h.wakes hst, unborn_step p a q h.unborn hst⟩

/-! ## all threads together -/

/-- from the moment the flags are set and the workers have found them -/
structure Stopping (cfg : Config) (I : Nat → σ → Prop) (p : St σ) : Prop where
  steady : Steady cfg p
  flag : p.stop 0 = true
  flags : ∀ w < cfg.threads, p.stop (procOf cfg w) = true
  inv : ∀ w < cfg.threads, I w (p.work w)

theorem stopping_step {rank : Nat → σ → Nat} (hT : ∀ w, Stops (T w) (I w) (rank w)) (p : St σ) (a : Act α) (q : St σ)
    (h : Stopping cfg I p) (hst : step T cfg p a = some q) : Stopping cfg I q where
  steady := steady_step (fun w => (hT w).brief) p a q h.steady hst
  flag := step_stop h.steady.unborn hst h.flag
  flags := fun w hw => step_stop h.steady.unborn hst (h.flags w hw)
  inv := fun w => work_step (I := fun w s => w < cfg.threads → I w s)
    (fun w s a t hs ht hw => (hT w).ranked.inv s a t (hs hw) ht) p a q h.inv hst w

/-- a child with its flag set has been forked -/
theorem Stopping.ready (h : Stopping cfg I p) : ready cfg p := by
  intro hf
  by_contra hne
  have hlt : p.forked < cfg.threads := Nat.lt_of_le_of_ne h.steady.unborn.forked hne
  have hflag := h.flags p.forked hlt
  unfold procOf at hflag
  rw [if_pos hf, h.steady.unborn.stop _ (Nat.lt_succ_self _)] at hflag
  cases hflag

theorem Stopping.born (h : Stopping cfg I p) {w : Nat} (hw : w < cfg.threads) : born cfg p w :=
  ⟨hw, fun hf => by rw [h.ready hf]; exact hw⟩

/-- the steps left of a worker, with the calls it owes and, if it is a process, those of its `run_until_stop` -/
def workerLeft (cfg : Config) (left : Nat) (owed : List Call) (todo : List (Field × UInt64)) (finished : Bool)
    (timer : Timer) : Nat :=
  6 * left + cost owed + todo.length + (if finished then 0 else 1) + if forks cfg then timerRank timer else 0

def workerRank (cfg : Config) (left : Nat → σ → Nat) (p : St σ) (w : Nat) : Nat :=
  workerLeft cfg (left w (p.work w)) (p.owed w) (p.stats.todo w) (p.stats.finished w) (p.timer (w + 1))

def rank (cfg : Config) (left : Nat → σ → Nat) (p : St σ) : Nat :=
  ∑ w ∈ Finset.range cfg.threads, workerRank cfg left p w + (timerRank (p.timer 0) + readersRank cfg.threads p.stats)

/-- the steps that count: those of the threads, but the reporter may go on as long as the workers are joined -/
def counts (T : Nat → Thread σ α) (p : St σ) : Act α → Bool
  | .fork => true
  | .worker w a => (T w).own a
  | .call _ => true
  | .fetchAdd _ => true
  | .returns _ => true
  | .reporter => !p.stats.running
  | .main => true
  | .child _ => true
  | .interrupt _ => false
  | .tick _ => false

theorem sum_drop {n w k : Nat} {f g : Nat → Nat} (hw : w < n) (h : g w + k ≤ f w) (ho : ∀ v, v ≠ w → g v = f v) :
    ∑ v ∈ Finset.range n, g v + k ≤ ∑ v ∈ Finset.range n, f v := by
  have hmem := Finset.mem_range.mpr hw
  have hrest : ∑ v ∈ (Finset.range n).erase w, g v = ∑ v ∈ (Finset.range n).erase w, f v :=
    Finset.sum_congr rfl fun v hv => ho v (Finset.ne_of_mem_erase hv)
  rw [← Finset.add_sum_erase _ g hmem, ← Finset.add_sum_erase _ f hmem, hrest]
  omega

section
variable {left : Nat → σ → Nat}

theorem workerRank_congr {w : Nat} (hwork : q.work w = p.work w) (howed : q.owed w = p.owed w)
    (htodo : q.stats.todo w = p.stats.todo w) (hfin : q.stats.finished w = p.stats.finished w)
    (htimer : q.timer (w + 1) = p.timer (w + 1)) : workerRank cfg left q w = workerRank cfg left p w := by
  unfold workerRank
  rw [hwork, howed, htodo, hfin, htimer]

/-- a step of one worker -/
theorem rank_drop {w k : Nat} (hw : w < cfg.threads) (h : workerRank cfg left q w + k ≤ workerRank cfg left p w)
    (ho : ∀ v, v ≠ w → workerRank cfg left q v = workerRank cfg left p v) (htimer : q.timer 0 = p.timer 0)
    (hread : readersRank cfg.threads q.stats = readersRank cfg.threads p.stats) :
    rank cfg left q + k ≤ rank cfg left p := by
  have hsum := sum_drop hw h ho
  unfold rank
  rw [htimer, hread]
  omega

/-- a step of the main thread or the reporter -/
theorem rank_read {k : Nat} (ho : ∀ w, workerRank cfg left q w = workerRank cfg left p w)
    (h : timerRank (q.timer 0) + readersRank cfg.threads q.stats + k ≤
      timerRank (p.timer 0) + readersRank cfg.threads p.stats) : rank cfg left q + k ≤ rank cfg left p := by
  have hsum : ∑ w ∈ Finset.range cfg.threads, workerRank cfg left q w =
      ∑ w ∈ Finset.range cfg.threads, workerRank cfg left p w := Finset.sum_congr rfl fun w _ => ho w
  unfold rank
  omega

theorem rank_worker (hT : ∀ w, Stops (T w) (I w) (left w)) (h : Stopping cfg I p) {w : Nat} {a : α}
    (hst : step T cfg p (.worker w a) = some q) :
    rank cfg left q + (if (T w).own a then 1 else 0) ≤ rank cfg left p := by
  obtain ⟨⟨⟨hw, -⟩, -, -, -⟩, t, ht, rfl⟩ := step_worker hst
  have hlower := (hT w).ranked.lowers _ a t (h.inv w hw) ht
  refine rank_drop hw ?_ (fun v hv => ?_) rfl rfl
  · have hcost : cost ((T w).calls (p.work w) a) ≤ if (T w).own a then 5 else 0 := by
      split
      · exact (hT w).brief.cost_le _ a
      next ho => rw [(hT w).brief.quiet _ a (Bool.not_eq_true _ ▸ ho)]; exact le_rfl
    show workerLeft cfg (left w (Function.update p.work w t w)) (Function.update p.owed w _ w) (p.stats.todo w)
      (p.stats.finished w) (p.timer (w + 1)) + _ ≤ workerLeft cfg _ _ _ _ _
    rw [Function.update_self, Function.update_self]
    unfold workerLeft
    rw [cost_append]
    cases ho : (T w).own a with
    | true =>
      rw [ho] at hlower hcost
      simp only [if_true] at hlower hcost ⊢
      omega
    | false =>
      rw [ho] at hlower hcost
      simp only [Bool.false_eq_true, if_false] at hlower hcost ⊢
      omega
  · exact workerRank_congr (Function.update_of_ne hv _ _) (Function.update_of_ne hv _ _) rfl rfl rfl

theorem rank_call {w : Nat} (hst : step T cfg p (.call w) = some q) : rank cfg left q + 1 ≤ rank cfg left p := by
  obtain ⟨c, cs, st, howed, hcall, rfl⟩ := step_call hst
  obtain ⟨⟨hw, -, htodo⟩, rfl⟩ := Stats.step_call hcall
  refine rank_drop hw ?_ (fun v hv => ?_) rfl rfl
  · show workerLeft cfg (left w (p.work w)) (Function.update p.owed w cs w) (Function.update p.stats.todo w _ w)
      (p.stats.finished w) (p.timer (w + 1)) + 1 ≤ workerLeft cfg _ (p.owed w) (p.stats.todo w) _ _
    rw [Function.update_self, Function.update_self, if_pos hw, howed, htodo]
    unfold workerLeft
    rw [cost_cons, List.length_nil]
    omega
  · exact workerRank_congr rfl (Function.update_of_ne hv _ _) (Function.update_of_ne hv _ _) rfl rfl

theorem rank_fetchAdd (h : Steady cfg p) {w : Nat} (hst : step T cfg p (.fetchAdd w) = some q) :
    rank cfg left q + 1 ≤ rank cfg left p := by
  obtain ⟨st, hs, rfl⟩ := statsStep_some hst
  obtain ⟨f, x, rest, htodo, rfl⟩ := Stats.step_fetchAdd hs
  have hw := (h.counted.busy w (by rw [htodo]; exact List.cons_ne_nil _ _)).1
  refine rank_drop hw ?_ (fun v hv => ?_) rfl rfl
  · show workerLeft cfg (left w (p.work w)) (p.owed w) (Function.update p.stats.todo w rest w) (p.stats.finished w)
      (p.timer (w + 1)) + 1 ≤ workerLeft cfg _ _ (p.stats.todo w) _ _
    rw [Function.update_self, htodo]
    unfold workerLeft
    rw [List.length_cons]
    omega
  · exact workerRank_congr rfl rfl (Function.update_of_ne hv _ _) rfl rfl

theorem rank_returns {w : Nat} (hst : step T cfg p (.returns w) = some q) : rank cfg left q + 1 ≤ rank cfg left p := by
  obtain ⟨⟨⟨hw, -⟩, hfin, -⟩, st, hs, rfl⟩ := step_returns hst
  obtain ⟨-, rfl⟩ := Stats.step_finish hs
  refine rank_drop hw ?_ (fun v hv => ?_) rfl rfl
  · show workerLeft cfg (left w (p.work w)) (p.owed w) (p.stats.todo w) (Function.update p.stats.finished w true w)
      (p.timer (w + 1)) + 1 ≤ workerLeft cfg _ _ _ (p.stats.finished w) _
    rw [Function.update_self, hfin]
    unfold workerLeft
    simp only [Bool.false_eq_true, if_true, if_false]
    omega
  · exact workerRank_congr rfl rfl rfl (Function.update_of_ne hv _ _) rfl

theorem rank_child (h : Stopping cfg I p) {w : Nat} (hst : step T cfg p (.child w) = some q) :
    rank cfg left q + 1 ≤ rank cfg left p := by
  obtain ⟨⟨hf, ⟨hw, -⟩, -⟩, ht⟩ := step_child hst
  obtain ⟨timer, stop, hr, rfl⟩ := timerStep_some ht
  have hflag := h.flags w hw
  unfold procOf at hflag
  rw [if_pos hf] at hflag
  rw [hflag] at hr
  have hlower := timerRank_step hr
  refine rank_drop hw ?_ (fun v hv => ?_) (Function.update_of_ne (Nat.succ_ne_zero w).symm timer p.timer) rfl
  · show workerLeft cfg (left w (p.work w)) (p.owed w) (p.stats.todo w) (p.stats.finished w)
      (Function.update p.timer (w + 1) timer (w + 1)) + 1 ≤ workerLeft cfg _ _ _ _ (p.timer (w + 1))
    rw [Function.update_self]
    unfold workerLeft
    rw [if_pos hf, if_pos hf]
    omega
  · exact workerRank_congr rfl rfl rfl rfl (Function.update_of_ne (fun he => hv (Nat.succ.inj he)) timer p.timer)

theorem rank_main (h : Stopping cfg I p) (hst : step T cfg p .main = some q) :
    rank cfg left q + 1 ≤ rank cfg left p := by
  rcases (step_main hst).2 with ⟨-, st, hs, rfl⟩ | ⟨-, ht⟩
  · have hlower := readersRank_main h.steady.lengths hs
    refine rank_read ?_ (by show timerRank (p.timer 0) + readersRank cfg.threads st + 1 ≤ _; omega)
    obtain ⟨⟨_, _, rfl⟩, -⟩ := main_frame hs
    exact fun w => rfl
  · obtain ⟨timer, stop, hr, rfl⟩ := timerStep_some ht
    rw [h.flag] at hr
    have hlower := timerRank_step hr
    refine rank_read (fun w => ?_) ?_
    · exact workerRank_congr rfl rfl rfl rfl (Function.update_of_ne (Nat.succ_ne_zero w) timer p.timer)
    · show timerRank (Function.update p.timer 0 timer 0) + readersRank cfg.threads p.stats + 1 ≤ _
      rw [Function.update_self]
      omega

theorem rank_reporter (hst : step T cfg p .reporter = some q) :
    rank cfg left q + (if !p.stats.running then 1 else 0) ≤ rank cfg left p := by
  obtain ⟨-, st, hs, rfl⟩ := step_reporter hst
  have hlower := readersRank_reporter hs
  refine rank_read ?_ (by show timerRank (p.timer 0) + readersRank cfg.threads st + _ ≤ _; omega)
  obtain ⟨_, _, _, rfl⟩ := reporter_frame hs
  exact fun w => rfl

theorem rank_step (hT : ∀ w, Stops (T w) (I w) (left w)) (p : St σ) (a : Act α) (q : St σ) (h : Stopping cfg I p)
    (hst : step T cfg p a = some q) : rank cfg left q + (if counts T p a then 1 else 0) ≤ rank cfg left p := by
  cases a with
  | fork =>
    obtain ⟨⟨hf, hlt⟩, -⟩ := step_fork hst
    exact absurd (h.ready hf) (Nat.ne_of_lt hlt)
  | worker w a => exact rank_worker hT h hst
  | call w => exact rank_call hst
  | fetchAdd w => exact rank_fetchAdd h.steady hst
  | returns w => exact rank_returns hst
  | reporter => exact rank_reporter hst
  | main => exact rank_main h hst
  | child w => exact rank_child h hst
  | interrupt proc =>
    obtain ⟨-, rfl⟩ := step_interrupt hst
    exact le_rfl
  | tick d =>
    cases hst
    exact le_rfl

theorem rank_le (h : Steady cfg p) {B : Nat} (hB : ∀ w < cfg.threads, left w (p.work w) ≤ B) :
    rank cfg left p ≤ cfg.threads * (6 * B + 16) + 7 := by
  have hworker : ∀ w ∈ Finset.range cfg.threads, workerRank cfg left p w ≤ 6 * B + 8 := by
    intro w hw
    have hleft := hB w (Finset.mem_range.mp hw)
    have hsmall := h.small w
    have hfin : (if p.stats.finished w then 0 else 1) ≤ 1 := by split <;> omega
    have htimer : (if forks cfg then timerRank (p.timer (w + 1)) else 0) ≤ 2 := by
      split
      · exact timerRank_le _
      · exact Nat.zero_le 2
    unfold workerRank workerLeft
    omega
  have hsum : ∑ w ∈ Finset.range cfg.threads, workerRank cfg left p w ≤ cfg.threads * (6 * B + 8) := by
    have hle := Finset.sum_le_card_nsmul _ _ _ hworker
    rw [Finset.card_range, smul_eq_mul] at hle
    exact hle
  have hmain := mainRank_le h.lengths
  have hrep := reporterRank_le h.lengths
  have htimer := timerRank_le (p.timer 0)
  have hmul : cfg.threads * (6 * B + 16) = cfg.threads * (6 * B + 8) + 8 * cfg.threads := by
    rw [Nat.mul_comm 8, ← Nat.mul_add]
  unfold rank readersRank
  omega

end
/-! ## no thread waits in a circle -/

def Printed (p : St σ) : Prop := ∃ totals, p.stats.main = .printed totals

/-- a `run_until_stop` is in the rest of its 100 ms -/
def Asleep (p : St σ) : Prop :=
  ∃ proc startTime wake, p.timer proc = .asleep startTime wake ∧ p.now < wake ∧ wake ≤ p.now + 100 * millisecond

/-- a thread can go on -/
def GoesOn (T : Nat → Thread σ α) (cfg : Config) (p : St σ) : Prop :=
  ∃ a, counts T p a = true ∧ (step T cfg p a).isSome = true

theorem timerStep_live (h : Steady cfg p) (proc : Nat) :
    p.timer proc = .returned ∨ Asleep p ∨ (timerStep cfg p proc).isSome = true := by
  rcases timer_live cfg p.now (p.stop proc) (p.timer proc) with hret | ⟨startTime, wake, ht, hlt⟩ | hsome
  · exact Or.inl hret
  · exact Or.inr (Or.inl ⟨proc, startTime, wake, ht, hlt, h.wakes proc startTime wake ht⟩)
  · refine Or.inr (Or.inr ?_)
    unfold timerStep
    rw [Option.isSome_map]
    exact hsome

/-- a worker that has not returned owes a call, is in its loop, or waits for its `run_until_stop` -/
theorem worker_goesOn {left : Nat → σ → Nat} (hT : ∀ w, Stops (T w) (I w) (left w)) (h : Stopping cfg I p) {w : Nat}
    (hw : w < cfg.threads) (hfin : p.stats.finished w = false) : Asleep p ∨ GoesOn T cfg p := by
  cases htodo : p.stats.todo w with
  | cons x rest =>
    refine Or.inr ⟨.fetchAdd w, rfl, ?_⟩
    show ((Stats.step cfg.threads cfg.threads p.stats (.fetchAdd w)).map _).isSome = true
    simp only [Stats.step, htodo, Option.isSome_map, Option.isSome_some]
  | nil =>
    cases howed : p.owed w with
    | cons c cs =>
      refine Or.inr ⟨.call w, rfl, ?_⟩
      simp only [step, howed, statsStep, Stats.step, hw, hfin, htodo, and_self, if_true, Option.isSome_map,
        Option.isSome_some]
    | nil =>
      rcases (hT w).ranked.live _ (h.inv w hw) with hexit | hlive
      · by_cases hret : forks cfg = true → p.timer (w + 1) = .returned ∨ p.threw w = true
        · refine Or.inr ⟨.returns w, rfl, ?_⟩
          have hmay : mayReturn T cfg p w := ⟨h.born hw, hfin, howed, hexit, hret⟩
          simp only [step, if_pos hmay, statsStep, Stats.step, htodo, if_true, Option.isSome_map, Option.isSome_some]
        · obtain ⟨hf, hret⟩ := Classical.not_imp.mp hret
          rcases (timerStep_live h.steady (w + 1)).resolve_left fun hr => hret (Or.inl hr) with hasleep | hsome
          · exact Or.inl hasleep
          · refine Or.inr ⟨.child w, rfl, ?_⟩
            simp only [step, if_pos (And.intro hf (And.intro (h.born hw) hfin)), hsome]
      · obtain ⟨a, hown, hsig⟩ := (hT w).next
        refine Or.inr ⟨.worker w a, hown, ?_⟩
        have hmay : mayStep T cfg p w a :=
          ⟨h.born hw, hfin, fun _ => ⟨howed, htodo⟩, fun hs => absurd (hsig.symm.trans hs) Bool.false_ne_true⟩
        simp only [step, if_pos hmay, Option.isSome_map]
        exact hlive a hown

theorem goesOn {left : Nat → σ → Nat} (hT : ∀ w, Stops (T w) (I w) (left w)) (p : St σ) (h : Stopping cfg I p) :
    (Printed p ∨ Asleep p) ∨ GoesOn T cfg p := by
  rcases timerStep_live h.steady 0 with hret | hasleep | hsome
  · cases hm : p.stats.main with
    | joining w =>
      by_cases hw : w < cfg.threads
      · cases hfin : p.stats.finished w with
        | false => exact (worker_goesOn hT h hw hfin).imp Or.inr id
        | true =>
          refine Or.inr ⟨.main, rfl, ?_⟩
          simp only [step, if_pos h.ready, if_pos hret, statsStep, Stats.step, mainStep, hm, if_pos hw, hfin, if_true, Option.isSome_map,
            Option.isSome_some]
      · refine Or.inr ⟨.main, rfl, ?_⟩
        simp only [step, if_pos h.ready, if_pos hret, statsStep, Stats.step, mainStep, hm, if_neg hw, Option.isSome_map,
          Option.isSome_some]
    | stopping =>
      -- the main thread waits for the reporter, which has been told to stop
      have hrun := h.steady.lengths.running (by rw [hm]; exact fun w => Joiner.noConfusion)
      by_cases hex : p.stats.reporter = .exited
      · refine Or.inr ⟨.main, rfl, ?_⟩
        simp only [step, if_pos h.ready, if_pos hret, statsStep, Stats.step, mainStep, hm, hex, Option.isSome_map, Option.isSome_some]
      · refine Or.inr ⟨.reporter, congrArg (!·) hrun, ?_⟩
        simp only [step, if_pos h.ready, statsStep, Option.isSome_map]
        show (reporterStep cfg.threads p.stats).isSome = true
        unfold Stats.reporterStep
        split
        · rfl
        · rfl
        · split <;> rfl
        next he => exact absurd he hex
    | reading r =>
      refine Or.inr ⟨.main, rfl, ?_⟩
      simp only [step, if_pos h.ready, if_pos hret, statsStep, Stats.step, mainStep, hm, Option.isSome_map]
      split <;> rfl
    | printed totals => exact Or.inl (Or.inl ⟨totals, hm⟩)
  · exact Or.inl (Or.inr hasleep)
  · by_cases hret : p.timer 0 = .returned
    · unfold timerStep at hsome
      rw [hret] at hsome
      cases hsome
    · refine Or.inr ⟨.main, rfl, ?_⟩
      simp only [step, if_pos h.ready, if_neg hret, hsome]

/-- from every reachable state in which all processes have their flag set and the workers are at their `ends`, the
threads take at most `n` further steps, and none is left waiting but for the summary or a sleep -/
def ShutsDown (T : Nat → Thread σ α) (cfg : Config) (ends : σ → Prop) (work : Nat → σ) (n : Nat) : Prop :=
  ∀ threw p, Reach (step T cfg) (start threw work) p → p.stop 0 = true → (∀ w < cfg.threads, p.stop (procOf cfg w) = true) →
    (∀ w < cfg.threads, ends (p.work w)) →
    Settles (step T cfg) (counts T) (fun q => Printed q ∨ Asleep q) p n

theorem shutsDown {J : Nat → σ → Prop} {ends : σ → Prop} {left : Nat → σ → Nat} {work : Nat → σ} {B : Nat}
    (hstep : ∀ w s a t, J w s → (T w).step s a = some t → J w t) (hJ : ∀ w, J w (work w))
    (hT : ∀ w, Stops (T w) (fun s => J w s ∧ ends s) (left w)) (hB : ∀ w s, J w s → left w s ≤ B) :
    ShutsDown T cfg ends work (cfg.threads * (6 * B + 16) + 7) := by
  intro threw p hp hflag hflags hends
  have hsteady : Steady cfg p := hp.inv (steady_start threw work) (steady_step fun w => (hT w).brief)
  have hinv : ∀ w, J w (p.work w) := hp.inv (I := fun p => ∀ w, J w (p.work w)) hJ (work_step hstep)
  have hstopping : Stopping cfg (fun w s => J w s ∧ ends s) p :=
    ⟨hsteady, hflag, hflags, fun w hw => ⟨hinv w, hends w hw⟩⟩
  exact Settles.of_rank (rank cfg left) (stopping_step hT) (rank_step hT) (goesOn hT) hstopping
    (rank_le hsteady fun w _ => hB w _ (hinv w))

end
/-! ## the threads of the loops -/

section
variable {σ ε χ κ : Type} {base : UInt32} {outside : κ → σ → Option (σ × Option ε)} {signal : κ → Bool}
variable {calls : σ → ε → List Call} {P : σ → Prop}

theorem batch_stops {loop : Loop σ ε χ} (hP : loop.Halts outside P) (ha : loop.Atomic)
    (hmax : loop.maxReap.toNat < 2^31) (x : χ) (hcost : ∀ s c, cost (calls s c) ≤ 5) :
    Stops (batchThread loop outside signal calls)
      (fun s => Batch.Counted loop base s ∧ (s.phase = .exited ∨ P s.app)) (fun s => Batch.rank loop s.phase) where
  brief := by
    refine ⟨fun s a => ?_, fun s a ho => ?_⟩
    · cases a with
      | worker x =>
        simp only [batchThread]
        split
        · exact hcost _ _
        · exact Nat.zero_le 5
      | outside e => exact Nat.zero_le 5
    · cases a with
      | worker x => cases ho
      | outside e => rfl
  ranked := (Batch.ranked hP ha hmax).imp fun s hs => by simp only [batchThread, hs]
  next := ⟨.worker x, rfl, rfl⟩

theorem each_stops {loop : ForEach σ ε χ} (hP : loop.Halts outside P) (ha : loop.Atomic) {mask : UInt32} (x : χ)
    (hcost : ∀ s c, cost (calls s c) ≤ 5) :
    Stops (eachThread loop outside signal calls)
      (fun s => Each.Counted loop base mask s ∧ (s.phase = .exited ∨ P s.app))
      (fun s => Each.rank (mask.toNat + 1) s.phase) where
  brief := by
    refine ⟨fun s a => ?_, fun s a ho => ?_⟩
    · cases a with
      | worker x =>
        simp only [eachThread]
        split
        · exact hcost _ _
        · exact Nat.zero_le 5
      | outside e => exact Nat.zero_le 5
    · cases a with
      | worker x => cases ho
      | outside e => rfl
  ranked := (Each.ranked hP ha).imp fun s hs => by simp only [eachThread, hs]
  next := ⟨.worker x, rfl, rfl⟩

end

section
open Worker

theorem cost_errorCalls (res : Int) : cost (errorCalls res) ≤ 2 := by
  unfold errorCalls
  split <;> decide

theorem cost_onSendCalls (packets : Int → Nat) (c : Uring.Completion) : cost (onSendCalls packets c) ≤ 5 := by
  have herr := cost_errorCalls c.res
  unfold onSendCalls
  split
  · exact Nat.le_of_ble_eq_true rfl
  · split
    · exact Nat.le_of_ble_eq_true rfl
    · split
      · exact Nat.zero_le 5
      · omega

theorem cost_onRecvMultishotCalls (packets : Int → Nat) (c : Uring.Completion) :
    cost (onRecvMultishotCalls packets c) ≤ 5 := by
  have htake : cost (takeBufferCalls packets c) ≤ 3 := by
    unfold takeBufferCalls
    split
    · exact Nat.zero_le 3
    · split
      · exact Nat.le_of_ble_eq_true rfl
      · exact Nat.zero_le 3
  have herr := cost_errorCalls c.res
  unfold onRecvMultishotCalls
  rw [cost_append]
  split
  · exact Nat.le_trans htake (by decide)
  · split
    · exact Nat.le_trans htake (by decide)
    · omega

theorem cost_onRecvCalls (packets : Int → Nat) (c : Uring.Completion) : cost (onRecvCalls packets c) ≤ 5 := by
  have herr := cost_errorCalls c.res
  unfold onRecvCalls
  split
  · exact Nat.le_of_ble_eq_true rfl
  · split
    · exact Nat.zero_le 5
    · omega

theorem cost_sendCalls (L : Client.Setup) (c : Entry) : cost (sendCalls L c) ≤ 5 := by
  unfold sendCalls
  split
  · exact Nat.zero_le 5
  · exact cost_onSendCalls _ _

theorem cost_recvCalls (L : Client.Setup) (c : Entry) : cost (recvCalls L c) ≤ 5 := by
  unfold recvCalls
  split
  · exact Nat.zero_le 5
  · split
    · exact cost_onRecvMultishotCalls _ _
    · exact cost_onRecvCalls _ _

theorem cost_serverCalls (L : Server.Setup) (c : Entry) : cost (serverCalls L c) ≤ 5 := by
  unfold serverCalls
  split
  · exact Nat.zero_le 5
  · split
    · exact Nat.zero_le 5
    · exact cost_onSendCalls _ _
    · split
      · exact cost_onRecvMultishotCalls _ _
      · exact cost_onRecvCalls _ _
    · exact Nat.zero_le 5

theorem cost_zcrxCalls (p : Zcrx.Packed.St) (c : Uring.Cqe Zcrx.Packed.Sqe) : cost (zcrxCalls p c) ≤ 5 := by
  have herr := cost_errorCalls c.res
  unfold zcrxCalls
  split
  · exact Nat.zero_le 5
  · split
    · split
      · split
        · exact Nat.zero_le 5
        · split
          · exact Nat.zero_le 5
          · omega
      · split
        · exact Nat.le_of_ble_eq_true rfl
        · exact Nat.zero_le 5
    · exact Nat.zero_le 5

theorem cost_zcrxClientCalls (c : Uring.Completion) : cost (zcrxClientCalls c) ≤ 5 := by
  have herr := cost_errorCalls c.res
  unfold zcrxClientCalls
  split
  · split
    · exact Nat.zero_le 5
    · omega
  · split
    · exact Nat.le_of_ble_eq_true rfl
    · exact Nat.zero_le 5

/-! ## the five kinds of worker -/

variable {cfg : Config} {mask base : Nat → UInt32}

theorem batch_shutsDown {σ ε χ κ : Type} {loop : Nat → Loop σ ε χ} {outside : Nat → κ → σ → Option (σ × Option ε)}
    {signal : κ → Bool} {calls : Nat → σ → ε → List Call} {P : σ → Prop} (hP : ∀ w, (loop w).Halts (outside w) P)
    (ha : ∀ w, (loop w).Atomic) (hmax : ∀ w, (loop w).maxReap.toNat = cfg.inFlight) (hn : cfg.inFlight < 2^31)
    (x : χ) (hcost : ∀ w s c, cost (calls w s c) ≤ 5) (hm : ∀ w, IsMask (mask w)) (failed : Nat → Bool)
    (cqes : Nat → UInt32 → ε) (app : Nat → σ) :
    ShutsDown (fun w => batchThread (loop w) (outside w) signal (calls w)) cfg (fun s => s.phase = .exited ∨ P s.app)
      (batchWork mask base failed cqes app) (cfg.threads * (30 * cfg.inFlight + 40) + 7) := by
  have hlt : ∀ w, (loop w).maxReap.toNat < 2^31 := fun w => by rw [hmax w]; exact hn
  have hbound : 30 * cfg.inFlight + 40 = 6 * (5 * cfg.inFlight + 4) + 16 := by omega
  rw [hbound]
  refine shutsDown (J := fun w => Batch.Counted (loop w) (base w)) (fun w => Batch.counted_step (ha w) (hlt w))
    (fun w => launchBatch_counted (hm w) (cqes w) (app w) (failed w))
    (fun w => batch_stops (hP w) (ha w) (hlt w) x (hcost w)) fun w s hs => ?_
  rw [← hmax w]
  exact hs.le

theorem each_shutsDown {σ ε χ κ : Type} {loop : Nat → ForEach σ ε χ} {outside : Nat → κ → σ → Option (σ × Option ε)}
    {signal : κ → Bool} {calls : Nat → σ → ε → List Call} {P : σ → Prop} (hP : ∀ w, (loop w).Halts (outside w) P)
    (ha : ∀ w, (loop w).Atomic) (x : χ) (hcost : ∀ w s c, cost (calls w s c) ≤ 5) (hm : ∀ w, IsMask (mask w))
    {size : Nat} (hsize : ∀ w, (mask w).toNat < size) (failed : Nat → Bool) (cqes : Nat → UInt32 → ε)
    (app : Nat → σ) :
    ShutsDown (fun w => eachThread (loop w) (outside w) signal (calls w)) cfg (fun s => s.phase = .exited ∨ P s.app)
      (eachWork mask base failed cqes app) (cfg.threads * (18 * size + 28) + 7) := by
  have hbound : 18 * size + 28 = 6 * (3 * size + 2) + 16 := by omega
  rw [hbound]
  refine shutsDown (J := fun w => Each.Counted (loop w) (base w) (mask w)) (fun w => Each.counted_step (ha w))
    (fun w => launchEach_counted (hm w) (cqes w) (app w) (failed w))
    (fun w => each_stops (hP w) (ha w) x (hcost w)) fun w s hs => ?_
  have hle := hs.le
  have hlt := hsize w
  omega

/-- **The program shuts down.**  For every number of workers, as threads or as processes, whichever of the five loops they
run: from any point of any run at which all flags are set and every worker has found its own (or its peer has closed, or
it has left its loop before), the workers, the main threads and the reporter once it is told to stop take at most
`threads * B + 7` more steps together, with `B` linear in the batch size or in the size of the ring; before it is told to
stop the reporter prints its lines, and these steps are not bounded.  However these steps are ordered, and
whatever the kernel, the clock and further signals do between them, some thread can take one until the summary is printed
or a `run_until_stop` sleeps out its 100 ms: nobody waits for a thread that waits for it.  The last sleep of the reporter
and the handshake of a connection accepted in the last batch are among the steps; how long they last is not said here. -/
theorem program_shuts_down (cfg : Config) (mask base : Nat → UInt32) (hm : ∀ w, IsMask (mask w)) (failed : Nat → Bool)
    (size : Nat) (hsize : ∀ w, (mask w).toNat < size) (hn : cfg.inFlight < 2^31) :
    (∀ (L : Nat → Client.Setup) cqes app, (∀ w, (L w).config.inFlight = cfg.inFlight) →
      ShutsDown (fun w => sendThread (L w)) cfg (fun s => s.phase = .exited ∨ s.app.stop = true)
        (batchWork mask base failed cqes app) (cfg.threads * (30 * cfg.inFlight + 40) + 7)) ∧
    (∀ (L : Nat → Client.Setup) cqes app, (∀ w, (L w).config.inFlight = cfg.inFlight) →
      ShutsDown (fun w => recvThread (L w)) cfg
        (fun s => s.phase = .exited ∨ s.app.stop = true ∨ s.app.peerClosed = true)
        (batchWork mask base failed cqes app) (cfg.threads * (30 * cfg.inFlight + 40) + 7)) ∧
    (∀ (L : Nat → Server.Setup) cqes app, (∀ w, (L w).config.inFlight = cfg.inFlight) →
      ShutsDown (fun w => serverThread (L w)) cfg (fun s => s.phase = .exited ∨ s.app.stop = true)
        (batchWork mask base failed cqes app) (cfg.threads * (30 * cfg.inFlight + 40) + 7)) ∧
    (∀ (listenFd : Nat → Int) cqes app,
      ShutsDown (fun w => zcrxThread (listenFd w)) cfg (fun s => s.phase = .exited ∨ s.app.stop = true)
        (eachWork mask base failed cqes app) (cfg.threads * (18 * size + 28) + 7)) ∧
    ∀ (conn : Nat → Conn) cqes app,
      ShutsDown (fun w => zcrxClientThread (conn w)) cfg
        (fun s => s.phase = .exited ∨ s.app.stop = true ∨ s.app.peerClosed = true)
        (eachWork mask base failed cqes app) (cfg.threads * (18 * size + 28) + 7) := by
  refine ⟨fun L cqes app hL => ?_, fun L cqes app hL => ?_, fun L cqes app hL => ?_, fun listenFd cqes app => ?_,
    fun conn cqes app => ?_⟩
  · have hmax : ∀ w, (sendLoop (L w)).maxReap.toNat = cfg.inFlight := fun w => by
      rw [← hL w] at hn ⊢
      exact toNat_inFlight hn
    exact batch_shutsDown (fun w => sendLoop_halts (L w)) (fun w => sendLoop_atomic (L w)) hmax hn ()
      (fun w _ => cost_sendCalls (L w)) hm failed cqes app
  · have hmax : ∀ w, (recvLoop (L w)).maxReap.toNat = cfg.inFlight := fun w => by
      rw [← hL w] at hn ⊢
      exact toNat_inFlight hn
    exact batch_shutsDown (fun w => recvLoop_halts (L w)) (fun w => recvLoop_atomic (L w)) hmax hn ()
      (fun w _ => cost_recvCalls (L w)) hm failed cqes app
  · have hmax : ∀ w, (serverLoop (L w)).maxReap.toNat = cfg.inFlight := fun w => by
      rw [← hL w] at hn ⊢
      exact toNat_inFlight hn
    exact batch_shutsDown (fun w => serverLoop_halts (L w)) (fun w => serverLoop_atomic (L w)) hmax hn (0, none)
      (fun w _ => cost_serverCalls (L w)) hm failed cqes app
  · exact each_shutsDown (fun w => zcrxLoop_halts (listenFd w)) (fun _ => zcrxLoop_atomic) (true, 0)
      (fun _ => cost_zcrxCalls) hm hsize failed cqes app
  · exact each_shutsDown (fun w => zcrxClientLoop_halts (conn w)) (fun w => zcrxClientLoop_atomic (conn w)) true
      (fun _ _ => cost_zcrxClientCalls) hm hsize failed cqes app

/-- a client with two child processes -/
def twoProcesses : Config := { threads := 2, multiProcess := true }

/-- the signals arrive while both children are in a call of the collector -/
def callingRun : List (Act (Batch.Act Unit Event)) :=
  List.flatten
    [[.fork, .fork, .worker 0 (.outside (.post 0 (.plain 64))), .worker 1 (.outside (.post 0 (.plain 36)))],
      List.replicate 5 (.worker 0 (.worker ())),
      List.replicate 5 (.worker 1 (.worker ())),
      [.call 0, .call 1, .interrupt 0, .interrupt 1, .interrupt 2, .worker 0 (.outside .signal),
        .worker 1 (.outside .signal)]]

theorem program_shuts_down_calling : IsMask 1 ∧ (1 : UInt32).toNat < 2 ∧ twoProcesses.inFlight < 2^31 ∧
    Client.defaultSetup.config.inFlight = twoProcesses.inFlight ∧
    ∃ p, Reach (step (fun _ => sendThread Client.defaultSetup) twoProcesses)
      (start (fun _ => false) (batchWork (fun _ => 1) (fun _ => 4294967295) (fun _ => false) (fun _ _ => nullEntry 0)
        fun _ => Client.sendStart Client.defaultSetup 4)) p ∧
    ((p.stats.todo 0).length = 2 ∧ (p.stats.todo 1).length = 2) ∧
    Settles (step (fun _ => sendThread Client.defaultSetup) twoProcesses)
      (counts fun _ => sendThread Client.defaultSetup) (fun q => Printed q ∨ Asleep q) p
      (twoProcesses.threads * (30 * twoProcesses.inFlight + 40) + 7) := by
  have hn : twoProcesses.inFlight < 2^31 := by decide
  have hm : IsMask 1 := ⟨1, by decide, rfl⟩
  have hsize : (1 : UInt32).toNat < 2 := by decide
  have hrun : ∃ p, Reach (step (fun _ => sendThread Client.defaultSetup) twoProcesses)
      (start (fun _ => false) (batchWork (fun _ => 1) (fun _ => 4294967295) (fun _ => false) (fun _ _ => nullEntry 0)
        fun _ => Client.sendStart Client.defaultSetup 4)) p ∧
      ((p.stats.todo 0).length = 2 ∧ (p.stats.todo 1).length = 2) ∧ p.stop 0 = true ∧
      ∀ w < 2, p.stop (w + 1) = true ∧ (p.work w).app.stop = true :=
    exists_reach callingRun (by decide +kernel)
  obtain ⟨p, hp, htodo, hflag, hstop⟩ := hrun
  exact ⟨hm, hsize, hn, rfl, p, hp, htodo, (program_shuts_down twoProcesses (fun _ => 1) (fun _ => 4294967295)
    (fun _ => hm) (fun _ => false) 2 (fun _ => hsize) hn).1 (fun _ => Client.defaultSetup) (fun _ _ => nullEntry 0)
    (fun _ => Client.sendStart Client.defaultSetup 4) (fun _ => rfl) (fun _ => false) p hp hflag
    (fun w hw => (hstop w hw).1) fun w hw => Or.inr (hstop w hw).2⟩

end
end Program
end UringPerf
