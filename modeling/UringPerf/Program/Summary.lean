import UringPerf.Engine.Stops
import UringPerf.Program.Model
import UringPerf.Worker.Calls

/-!
# The summary is what the workers have counted

The collector adds up calls (`Stats.reach_exact`), the loops count completions in a record of their own.  Here the two
are put together: in every run of the whole program, with the additions of all workers and the loads of both readers in
any order, the totals printed at the end are the sums of what the workers have counted.

* `Counts`          a thread makes the calls its record asks for;
* `Told`            the record of a worker is what its calls amount to, and those it has still to make;
* `Told.summary`    the printed totals are the sums over the records, and every worker has returned;
* `batchThread`, `eachThread`   the threads of the loops over the ring;
* `summary_exact`   the five kinds of worker.
-/

namespace UringPerf
namespace Program
open Trans Stats Circular

/-! ## any thread that makes its calls -/

section
variable {σ α : Type} {T : Nat → Thread σ α} {cfg : Config} {stats : σ → ThreadStats} {I : Nat → σ → Prop}
variable {p q : St σ}

structure Counts (T : Thread σ α) (I : σ → Prop) (stats : σ → ThreadStats) : Prop where
  inv : ∀ s a t, I s → T.step s a = some t → I t
  tells : ∀ s a t, I s → T.step s a = some t → Tells (stats s) (stats t) (T.calls s a)

structure Told (T : Nat → Thread σ α) (cfg : Config) (I : Nat → σ → Prop) (stats : σ → ThreadStats) (p : St σ) :
    Prop where
  inv : ∀ w, I w (p.work w)
  told : ∀ w (f : Field), f.get (stats (p.work w)) < 2^64 →
    f.get (stats (p.work w)) = f.get (statsOf w p.stats.calls) + amounts f (p.owed w)
  returned : ∀ w, p.stats.finished w = true → (T w).exited (p.work w) = true ∧ p.owed w = []

theorem told_start {threw : Nat → Bool} {work : Nat → σ} (hI : ∀ w, I w (work w)) (hz : ∀ w, stats (work w) = .zero) :
    Told T cfg I stats (start threw work) where
  inv := hI
  told := fun w f _ => by
    show f.get (stats (work w)) = _
    rw [hz w]
    cases f <;> rfl
  returned := fun w h => by cases h

/-- a step of the collector that is no call of a worker and ends none -/
theorem Told.quiet (h : Told T cfg I stats p) {st : Stats.St} (hc : st.calls = p.stats.calls)
    (hf : st.finished = p.stats.finished) : Told T cfg I stats { p with stats := st } where
  inv := h.inv
  told := fun w f hlt => by
    rw [hc]
    exact h.told w f hlt
  returned := fun w hw => h.returned w (by rw [← hf]; exact hw)

/-- the collector's side is as before -/
theorem Told.frame (h : Told T cfg I stats p) (hwork : q.work = p.work) (howed : q.owed = p.owed)
    (hstats : q.stats = p.stats) : Told T cfg I stats q := by
  refine ⟨?_, ?_, ?_⟩
  · rw [hwork]
    exact h.inv
  · rw [hwork, howed, hstats]
    exact h.told
  · rw [hwork, howed, hstats]
    exact h.returned

theorem Told.worker (hT : ∀ w, Counts (T w) (I w) stats) (h : Told T cfg I stats p) {w : Nat} {a : α}
    (hst : step T cfg p (.worker w a) = some q) : Told T cfg I stats q := by
  obtain ⟨⟨-, hfin, -⟩, t, ht, rfl⟩ := step_worker hst
  refine ⟨work_step (fun w => (hT w).inv) p _ _ h.inv hst, fun v f hlt => ?_, fun v hv => ?_⟩
  · change f.get (stats (Function.update p.work w t v)) < 2^64 at hlt
    show f.get (stats (Function.update p.work w t v)) = _ + amounts f (Function.update p.owed w _ v)
    by_cases hvw : v = w
    · subst hvw
      rw [Function.update_self] at hlt ⊢
      rw [Function.update_self, amounts_append]
      obtain ⟨n, hn, hcalls⟩ := (hT v).tells _ a t (h.inv v) ht f
      have hold := h.told v f (by omega)
      have hnew := hcalls (by omega)
      rw [hn, hold, hnew, Nat.add_assoc]
    · rw [Function.update_of_ne hvw] at hlt ⊢
      rw [Function.update_of_ne hvw]
      exact h.told v f hlt
  · have hvw : v ≠ w := by
      rintro rfl
      rw [hfin] at hv
      cases hv
    show (T v).exited (Function.update p.work w t v) = true ∧ Function.update p.owed w _ v = []
    rw [Function.update_of_ne hvw, Function.update_of_ne hvw]
    exact h.returned v hv

theorem Told.call (h : Told T cfg I stats p) {w : Nat} (hst : step T cfg p (.call w) = some q) :
    Told T cfg I stats q := by
  obtain ⟨c, cs, st, howed, hcall, rfl⟩ := step_call hst
  obtain ⟨⟨-, hfin, -⟩, hst'⟩ := Stats.step_call hcall
  have hcalls : st.calls = p.stats.calls ++ [(w, c)] := by rw [hst']
  have hfinished : st.finished = p.stats.finished := by rw [hst']
  refine ⟨h.inv, fun v f hlt => ?_, fun v hv => ?_⟩
  · show _ = f.get (statsOf v st.calls) + amounts f (Function.update p.owed w cs v)
    rw [h.told v f hlt, hcalls, statsOf_concat]
    by_cases hvw : v = w
    · subst hvw
      rw [if_pos rfl, Function.update_self, howed, Nat.add_assoc]
      rfl
    · rw [if_neg hvw, Function.update_of_ne hvw, Nat.add_zero]
  · have hv' : p.stats.finished v = true := by rw [← hfinished]; exact hv
    have hvw : v ≠ w := by
      rintro rfl
      rw [hfin] at hv'
      cases hv'
    show (T v).exited (p.work v) = true ∧ Function.update p.owed w cs v = []
    rw [Function.update_of_ne hvw]
    exact h.returned v hv'

theorem Told.returns (h : Told T cfg I stats p) {w : Nat} (hst : step T cfg p (.returns w) = some q) :
    Told T cfg I stats q := by
  obtain ⟨⟨-, -, howed, hexit, -⟩, st, hfin, rfl⟩ := step_returns hst
  obtain ⟨-, rfl⟩ := Stats.step_finish hfin
  refine ⟨h.inv, h.told, fun v hv => ?_⟩
  change Function.update p.stats.finished w true v = true at hv
  by_cases hvw : v = w
  · subst hvw
    exact ⟨hexit, howed⟩
  · rw [Function.update_of_ne hvw] at hv
    exact h.returned v hv

theorem told_step (hT : ∀ w, Counts (T w) (I w) stats) (p : St σ) (a : Act α) (q : St σ) (h : Told T cfg I stats p)
    (hst : step T cfg p a = some q) : Told T cfg I stats q := by
  cases a with
  | fork =>
    obtain ⟨-, rfl⟩ := step_fork hst
    exact h.frame rfl rfl rfl
  | worker w a => exact h.worker hT hst
  | call w => exact h.call hst
  | fetchAdd w =>
    obtain ⟨st, hs, rfl⟩ := statsStep_some hst
    obtain ⟨_, _, _, -, hst'⟩ := Stats.step_fetchAdd hs
    exact h.quiet (by rw [hst']) (by rw [hst'])
  | returns w => exact h.returns hst
  | reporter =>
    obtain ⟨-, st, hs, rfl⟩ := step_reporter hst
    obtain ⟨_, _, _, hst'⟩ := reporter_frame hs
    exact h.quiet (by rw [hst']) (by rw [hst'])
  | main =>
    rcases (step_main hst).2 with ⟨-, st, hs, rfl⟩ | ⟨-, ht⟩
    · obtain ⟨⟨_, _, hst'⟩, -⟩ := main_frame hs
      exact h.quiet (by rw [hst']) (by rw [hst'])
    · obtain ⟨_, _, -, rfl⟩ := timerStep_some ht
      exact h.frame rfl rfl rfl
  | child w =>
    obtain ⟨-, ht⟩ := step_child hst
    obtain ⟨_, _, -, rfl⟩ := timerStep_some ht
    exact h.frame rfl rfl rfl
  | interrupt proc =>
    obtain ⟨-, rfl⟩ := step_interrupt hst
    exact h.frame rfl rfl rfl
  | tick d =>
    cases hst
    exact h.frame rfl rfl rfl

/-- what the workers have counted in a field -/
def counted (cfg : Config) (stats : σ → ThreadStats) (p : St σ) (f : Field) : Nat :=
  ((List.range cfg.threads).map fun w => f.get (stats (p.work w))).sum

theorem Told.summary (h : Told T cfg I stats p)
    (hr : Reach (Stats.step cfg.threads cfg.threads) Stats.start p.stats) {totals : Field → UInt64}
    (hm : p.stats.main = .printed totals) (f : Field) (hb : counted cfg stats p f < 2^64) :
    (totals f).toNat = counted cfg stats p f ∧ ∀ w < cfg.threads, (T w).exited (p.work w) = true := by
  obtain ⟨hc, hex⟩ := reach_exact (f := f) hr
  have hjoined : p.stats.main.joined cfg.threads = cfg.threads := by
    rw [hm]
    rfl
  have hfin : ∀ w < cfg.threads, p.stats.finished w = true := fun w hw => hc.joined w (by rw [hjoined]; exact hw)
  have hsum : callTotal cfg.threads p.stats.calls f = counted cfg stats p f := by
    rw [callTotal_eq]
    refine congrArg List.sum (List.map_congr_left fun w hw => ?_)
    have hle : f.get (stats (p.work w)) ≤ counted cfg stats p f :=
      List.single_le_sum (fun _ _ => Nat.zero_le _) _ (List.mem_map.mpr ⟨w, hw, rfl⟩)
    have htold := h.told w f (Nat.lt_of_le_of_lt hle hb)
    rw [(h.returned w (hfin w (List.mem_range.mp hw))).2] at htold
    exact htold.symm
  have htotal : total cfg.threads p.stats.added f = counted cfg stats p f := by
    rw [hc.total_eq hjoined, hsum]
  have hj := (hex (by rw [htotal]; exact hb)).2
  unfold Stats.Joined at hj
  rw [hm] at hj
  exact ⟨hj.trans htotal, fun w hw => (h.returned w (hfin w hw)).1⟩

end

/-! ## the threads of the loops -/

section
variable {σ ε χ κ : Type} {base : UInt32}

def batchThread (loop : Loop σ ε χ) (outside : κ → σ → Option (σ × Option ε)) (signal : κ → Bool)
    (calls : σ → ε → List Call) : Thread (Batch.St σ ε) (Batch.Act χ κ) where
  step := Batch.step loop outside
  own := Batch.Act.isWorker
  isSignal
    | .worker _ => false
    | .outside e => signal e
  calls s
    | .worker _ =>
      match s.phase with
      | .run cqe (.use _ :: _) _ => calls s.app (s.log.cq.cqes cqe)
      | _ => []
    | .outside _ => []
  exited s :=
    match s.phase with
    | .exited => true
    | _ => false

def eachThread (loop : ForEach σ ε χ) (outside : κ → σ → Option (σ × Option ε)) (signal : κ → Bool)
    (calls : σ → ε → List Call) : Thread (Each.St σ ε) (Batch.Act χ κ) where
  step := Each.step loop outside
  own := Batch.Act.isWorker
  isSignal
    | .worker _ => false
    | .outside e => signal e
  calls s
    | .worker _ =>
      match s.phase with
      | .run _ _ cqe (_ :: _) => calls s.app (s.log.cq.cqes cqe)
      | _ => []
    | .outside _ => []
  exited s :=
    match s.phase with
    | .exited => true
    | _ => false

variable {outside : κ → σ → Option (σ × Option ε)} {signal : κ → Bool} {stats : σ → ThreadStats}
variable {calls : σ → ε → List Call}

theorem tells_of_eq {a b : ThreadStats} (h : b = a) : Tells a b [] := h ▸ Tells.refl a

theorem batch_worker_tells {loop : Loop σ ε χ} (ht : loop.Tells outside stats calls) {s t : Batch.St σ ε} {x : χ}
    (hi : Batch.Inv base s) (hf : Batch.Fits loop s.log s.phase) (hst : Batch.workerStep loop s x = some t) :
    Tells (stats s.app) (stats t.app) ((batchThread loop outside signal calls).calls s (.worker x)) := by
  obtain ⟨app, log, phase⟩ := s
  cases phase with
  | top =>
    simp only [Batch.workerStep] at hst
    split at hst
    · cases hst
      exact tells_of_eq (ht.prelude x app)
    · cases hst
      exact Tells.refl _
  | reap head cqesOut =>
    have hreaped : stats (Batch.reaped loop ⟨app, log, .reap head cqesOut⟩ cqesOut).app = stats app := by
      unfold Batch.reaped
      split
      · exact ht.idle app
      · rfl
    simp only [Batch.workerStep] at hst
    split at hst
    · cases hst
      exact tells_of_eq hreaped
    · split at hst
      · cases hst
        exact tells_of_eq hreaped
      · cases hst
        exact Tells.refl _
  | batch cqes =>
    cases cqes with
    | nil =>
      cases hst
      exact Tells.refl _
    | cons cqe cqes =>
      cases hst
      exact Tells.refl _
  | run cqe todo cqes =>
    cases todo with
    | nil =>
      cases hst
      exact Tells.refl _
    | cons stmt todo =>
      cases stmt with
      | seen =>
        cases hst
        exact Tells.refl _
      | use f =>
        cases hst
        -- the statement is the one of the completion in this slot
        obtain ⟨-, hs, hp⟩ := hi
        obtain ⟨-, -, -, hcqe⟩ := hp
        change cqe = log.cq.khead &&& log.cq.ringMask at hcqe
        obtain ⟨-, y, c, cs, hcons, hb⟩ := hf
        have hslot : log.cq.unreleased = _ := hs.cons hs.held_le_length
        obtain ⟨rfl, -⟩ := List.cons.inj (hcons.symm.trans hslot)
        rw [← hcqe] at hb
        have htells := ht.handle y app (log.cq.cqes cqe)
        rw [Batch.handle_use hb] at htells
        exact htells
  | flush =>
    cases hst
    exact tells_of_eq (ht.flush app)
  | exited => cases hst

theorem batch_counts {loop : Loop σ ε χ} (ht : loop.Tells outside stats calls) (ha : loop.Atomic)
    (hmax : loop.maxReap.toNat < 2^31) :
    Counts (batchThread loop outside signal calls) (Batch.Counted loop base) (fun s => stats s.app) where
  inv := Batch.counted_step ha hmax
  tells := by
    intro s a t hc hst
    cases a with
    | worker x => exact batch_worker_tells ht hc.inv hc.fits hst
    | outside e =>
      obtain ⟨r, hr, hm⟩ := Option.bind_eq_some_iff.mp hst
      obtain ⟨l, -, rfl⟩ := Option.map_eq_some_iff.mp hm
      exact tells_of_eq (ht.outside e _ r hr)

theorem each_worker_tells {loop : ForEach σ ε χ} (ht : loop.Tells outside stats calls) {s t : Each.St σ ε} {x : χ}
    (hi : Each.Inv base s) (hf : Each.Fits loop (fun _ _ => True) s.app s.log s.phase)
    (hst : Each.workerStep loop s x = some t) :
    Tells (stats s.app) (stats t.app) ((eachThread loop outside signal calls).calls s (.worker x)) := by
  obtain ⟨app, log, phase⟩ := s
  cases phase with
  | top =>
    simp only [Each.workerStep] at hst
    split at hst
    · split at hst
      · cases hst
        exact Tells.refl _
      next app' hw =>
        cases hst
        exact tells_of_eq (ht.wait x app app' hw)
    · cases hst
      exact Tells.refl _
  | each head count =>
    simp only [Each.workerStep] at hst
    split at hst
    · cases hst
      exact Tells.refl _
    · cases hst
      exact Tells.refl _
  | run head count cqe todo =>
    cases todo with
    | nil =>
      cases hst
      exact Tells.refl _
    | cons f todo =>
      cases hst
      obtain ⟨-, -, hs, hp⟩ := hi
      obtain ⟨-, y, c, hget, -, hb⟩ := hf
      obtain ⟨hhead, hcqe⟩ : head = log.cq.khead + count ∧ cqe = head &&& log.cq.ringMask := hp
      have hc : log.cq.cqes cqe = c := by
        rw [hcqe, hhead]
        exact Option.some.inj ((Each.look_get hs hs.held_le_length).symm.trans hget)
      have htells := ht.handle y app c
      rw [Each.handle_single hb, ← hc] at htells
      exact htells
  | exited => cases hst

theorem each_counts {loop : ForEach σ ε χ} (ht : loop.Tells outside stats calls) (ha : loop.Atomic) {mask : UInt32} :
    Counts (eachThread loop outside signal calls) (Each.Counted loop base mask) (fun s => stats s.app) where
  inv := Each.counted_step ha
  tells := by
    intro s a t hc hst
    cases a with
    | worker x => exact each_worker_tells ht hc.inv hc.fits hst
    | outside e =>
      obtain ⟨r, hr, hm⟩ := Option.bind_eq_some_iff.mp hst
      obtain ⟨l, -, rfl⟩ := Option.map_eq_some_iff.mp hm
      exact tells_of_eq (ht.outside e _ r hr)

/-- a worker that could not be set up returns without entering its loop -/
def launchBatch (failed : Bool) (s : Batch.St σ ε) : Batch.St σ ε := if failed then { s with phase := .exited } else s

def launchEach (failed : Bool) (s : Each.St σ ε) : Each.St σ ε := if failed then { s with phase := .exited } else s

/-- the workers before their loops -/
def batchWork (mask base : Nat → UInt32) (failed : Nat → Bool) (cqes : Nat → UInt32 → ε) (app : Nat → σ) (w : Nat) :
    Batch.St σ ε := launchBatch (failed w) (Batch.start (mask w) (base w) (cqes w) (app w))

def eachWork (mask base : Nat → UInt32) (failed : Nat → Bool) (cqes : Nat → UInt32 → ε) (app : Nat → σ) (w : Nat) :
    Each.St σ ε := launchEach (failed w) (Each.start (mask w) (base w) (cqes w) (app w))

theorem launchBatch_counted {loop : Loop σ ε χ} {mask : UInt32} (hm : IsMask mask) (cqes : UInt32 → ε) (app : σ)
    (failed : Bool) : Batch.Counted loop base (launchBatch failed (Batch.start mask base cqes app)) := by
  have hstart : Batch.Counted loop base (Batch.start mask base cqes app) := Batch.counted_start hm cqes app
  cases failed with
  | false => exact hstart
  | true => exact ⟨⟨hstart.inv.marked, hstart.inv.sound, hstart.inv.phase⟩, trivial, Nat.zero_le _⟩

theorem launchEach_counted {loop : ForEach σ ε χ} {mask : UInt32} (hm : IsMask mask) (cqes : UInt32 → ε) (app : σ)
    (failed : Bool) : Each.Counted loop base mask (launchEach failed (Each.start mask base cqes app)) := by
  have hstart : Each.Counted loop base mask (Each.start mask base cqes app) := Each.counted_start hm cqes app
  cases failed with
  | false => exact hstart
  | true =>
    exact ⟨⟨hstart.inv.marked, hstart.inv.mark_le, hstart.inv.sound, trivial⟩, trivial, hstart.ring, Nat.zero_le _⟩

end

/-! ## the five kinds of worker -/

open Worker

def isSignal : Event → Bool
  | .signal => true
  | _ => false

def isZcrxSignal : ZcrxEvent → Bool
  | .signal => true
  | _ => false

def sendThread (L : Client.Setup) : Thread (Batch.St Client.St Entry) (Batch.Act Unit Event) :=
  batchThread (sendLoop L) clientOutside isSignal fun _ c => sendCalls L c

def recvThread (L : Client.Setup) : Thread (Batch.St Client.St Entry) (Batch.Act Unit Event) :=
  batchThread (recvLoop L) clientOutside isSignal fun _ c => recvCalls L c

def serverThread (L : Server.Setup) :
    Thread (Batch.St Server.St Entry) (Batch.Act (Nat × Option (Bool × Nat)) Event) :=
  batchThread (serverLoop L) (serverOutside L) isSignal fun _ c => serverCalls L c

def zcrxThread (listenFd : Int) :
    Thread (Each.St Zcrx.Packed.St (Uring.Cqe Zcrx.Packed.Sqe)) (Batch.Act (Bool × UInt64) ZcrxEvent) :=
  eachThread zcrxLoop (zcrxOutside listenFd) isZcrxSignal zcrxCalls

def zcrxClientThread (conn : Conn) : Thread (Each.St Zcrx.ClientSt Uring.Completion) (Batch.Act Bool ZcrxEvent) :=
  eachThread (zcrxClientLoop conn) zcrxClientOutside isZcrxSignal fun _ c => zcrxClientCalls c

/-- in every run of the program the totals printed are the sums of what the workers have counted, and all of them have
left their loops then -/
def PrintsSums {σ α : Type} (T : Nat → Thread σ α) (cfg : Config) (stats : σ → ThreadStats) (work : Nat → σ) : Prop :=
  ∀ threw p totals f, Reach (step T cfg) (start threw work) p → p.stats.main = .printed totals →
    counted cfg stats p f < 2^64 →
    (totals f).toNat = counted cfg stats p f ∧ ∀ w < cfg.threads, (T w).exited (p.work w) = true

theorem printsSums {σ α : Type} {T : Nat → Thread σ α} {cfg : Config} {stats : σ → ThreadStats} {I : Nat → σ → Prop}
    {work : Nat → σ} (hT : ∀ w, Counts (T w) (I w) stats) (hI : ∀ w, I w (work w))
    (hz : ∀ w, stats (work w) = .zero) : PrintsSums T cfg stats work := by
  intro threw p totals f h hm hb
  have htold : Told T cfg I stats p := h.inv (told_start hI hz) (told_step hT)
  exact htold.summary (reach_stats h) hm f hb

theorem inFlight_lt {cfg : Config} (h : cfg.inFlight < 2^31) : (UInt32.ofNat cfg.inFlight).toNat < 2^31 := by
  rw [toNat_inFlight h]
  exact h

/-- **The summary is what the workers have counted.**  For every number of workers, as threads or as processes, whichever
of the five loops they run and whether or not they could be set up, in every interleaving with the reporter and the main
thread: when the summary is printed every worker has left its loop, and the total of each field is the sum of what the
workers have counted in it, if that fits into 64 bits. -/
theorem summary_exact (cfg : Config) (mask base : Nat → UInt32) (hm : ∀ w, IsMask (mask w)) (failed : Nat → Bool) :
    (∀ (L : Nat → Client.Setup) cqes (app : Nat → Client.St),
      (∀ w, (L w).config.inFlight < 2^31) → (∀ w, (app w).stats = .zero) →
      PrintsSums (fun w => sendThread (L w)) cfg (fun s => s.app.stats)
        (batchWork mask base failed cqes app)) ∧
    (∀ (L : Nat → Client.Setup) cqes (app : Nat → Client.St),
      (∀ w, (L w).config.inFlight < 2^31) → (∀ w, (app w).stats = .zero) →
      PrintsSums (fun w => recvThread (L w)) cfg (fun s => s.app.stats)
        (batchWork mask base failed cqes app)) ∧
    (∀ (L : Nat → Server.Setup) cqes (app : Nat → Server.St),
      (∀ w, (L w).config.inFlight < 2^31) → (∀ w, (app w).stats = .zero) →
      PrintsSums (fun w => serverThread (L w)) cfg (fun s => s.app.stats)
        (batchWork mask base failed cqes app)) ∧
    (∀ (listenFd : Nat → Int) cqes (app : Nat → Zcrx.Packed.St), (∀ w, (app w).stats = .zero) →
      PrintsSums (fun w => zcrxThread (listenFd w)) cfg (fun s => s.app.stats)
        (eachWork mask base failed cqes app)) ∧
    ∀ (conn : Nat → Conn) cqes (app : Nat → Zcrx.ClientSt), (∀ w, (app w).stats = .zero) →
      PrintsSums (fun w => zcrxClientThread (conn w)) cfg (fun s => s.app.stats)
        (eachWork mask base failed cqes app) := by
  have hbatch : ∀ {σ ε : Type} (s : Batch.St σ ε) (b : Bool), (launchBatch b s).app = s.app := by
    intro σ ε s b
    cases b <;> rfl
  have heach : ∀ {σ ε : Type} (s : Each.St σ ε) (b : Bool), (launchEach b s).app = s.app := by
    intro σ ε s b
    cases b <;> rfl
  refine ⟨fun L cqes app hn hz => ?_, fun L cqes app hn hz => ?_, fun L cqes app hn hz => ?_,
    fun listenFd cqes app hz => ?_, fun conn cqes app hz => ?_⟩
  · exact printsSums (fun w => batch_counts (sendLoop_tells (L w)) (sendLoop_atomic (L w)) (inFlight_lt (hn w)))
      (fun w => launchBatch_counted (hm w) _ _ _) fun w => by rw [batchWork, hbatch]; exact hz w
  · exact printsSums (fun w => batch_counts (recvLoop_tells (L w)) (recvLoop_atomic (L w)) (inFlight_lt (hn w)))
      (fun w => launchBatch_counted (hm w) _ _ _) fun w => by rw [batchWork, hbatch]; exact hz w
  · exact printsSums (fun w => batch_counts (serverLoop_tells (L w)) (serverLoop_atomic (L w)) (inFlight_lt (hn w)))
      (fun w => launchBatch_counted (hm w) _ _ _) fun w => by rw [batchWork, hbatch]; exact hz w
  · exact printsSums (fun w => each_counts (zcrxLoop_tells (listenFd w)) zcrxLoop_atomic)
      (fun w => launchEach_counted (hm w) _ _ _) fun w => by rw [eachWork, heach]; exact hz w
  · exact printsSums (fun w => each_counts (zcrxClientLoop_tells (conn w)) (zcrxClientLoop_atomic (conn w)))
      (fun w => launchEach_counted (hm w) _ _ _) fun w => by rw [eachWork, heach]; exact hz w

/-- two workers send 64 and 36 bytes; while both are in a call of the collector, their additions and the reporter's loads
take turns; then they are interrupted and joined -/
def twoSends : List (Act (Batch.Act Unit Event)) :=
  List.flatten
    [[.worker 0 (.outside (.post 0 (.plain 64))), .worker 1 (.outside (.post 0 (.plain 36)))],
      List.replicate 5 (.worker 0 (.worker ())),
      List.replicate 5 (.worker 1 (.worker ())),
      [.call 0, .call 1, .fetchAdd 1, .fetchAdd 0, .reporter, .fetchAdd 0, .fetchAdd 1, .main, .interrupt 0,
        .worker 0 (.outside .signal), .worker 1 (.outside .signal)],
      List.replicate 5 (.worker 1 (.worker ())),
      [.returns 1],
      List.replicate 5 (.worker 0 (.worker ())),
      [.returns 0],
      List.replicate 4 .main,
      [.reporter],
      List.replicate 10 .main]

theorem summary_exact_twoSends : IsMask 1 ∧ Client.defaultSetup.config.inFlight < 2^31 ∧
    (Client.sendStart Client.defaultSetup 4).stats = .zero ∧
    ∃ p totals, Reach (step (fun _ => sendThread Client.defaultSetup) { threads := 2 })
      (start (fun _ => false) (batchWork (fun _ => 1) (fun _ => 4294967295) (fun _ => false) (fun _ _ => nullEntry 0)
        fun _ => Client.sendStart Client.defaultSetup 4)) p ∧
    p.stats.main = .printed totals ∧ totals .bytesTransferred = 100 ∧
    (totals .bytesTransferred).toNat = counted { threads := 2 } (fun s => s.app.stats) p .bytesTransferred := by
  have hn : Client.defaultSetup.config.inFlight < 2^31 := by decide
  have hm : IsMask 1 := ⟨1, by decide, rfl⟩
  have hz : (Client.sendStart Client.defaultSetup 4).stats = .zero := rfl
  have hrun : ∃ p, Reach (step (fun _ => sendThread Client.defaultSetup) { threads := 2 })
      (start (fun _ => false) (batchWork (fun _ => 1) (fun _ => 4294967295) (fun _ => false) (fun _ _ => nullEntry 0)
        fun _ => Client.sendStart Client.defaultSetup 4)) p ∧
      counted { threads := 2 } (fun s => s.app.stats) p .bytesTransferred < 2^64 ∧
      p.stats.main.summary.map (fun totals => totals .bytesTransferred) = some 100 :=
    exists_reach twoSends (by decide +kernel)
  obtain ⟨p, hp, hb, hmain⟩ := hrun
  obtain ⟨totals, htot, h100⟩ := Option.map_eq_some_iff.mp hmain
  have hprinted := Joiner.printed_of_summary htot
  have hsum := (summary_exact { threads := 2 } (fun _ => 1) (fun _ => 4294967295) (fun _ => hm) fun _ => false).1
    (fun _ => Client.defaultSetup) (fun _ _ => nullEntry 0) (fun _ => Client.sendStart Client.defaultSetup 4)
    (fun _ => hn) (fun _ => hz) (fun _ => false) p totals .bytesTransferred hp hprinted hb
  exact ⟨hm, hn, hz, p, totals, hp, hprinted, h100, hsum.1⟩

end Program
end UringPerf
