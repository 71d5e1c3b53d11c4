import Mathlib
import UringPerf.Base.Run
import UringPerf.Stats.Counters

/-!
# The statistics collector

`src/stats.cpp` with the threads that use it: workers add to the shared counters, the reporter thread reads them once
an interval, and the main thread joins both and prints the summary (`main.cpp`).  A counter is a 64-bit atomic; every
`fetch_add` and every `load` is a step of its own, in any order with the steps of the other threads.

* `Call`, `Call.fetchAdds`   a call of a worker, and the additions it makes one after another;
* `Reading`                  a read loop over the threads, one load after another;
* `Reporter`, `Joiner`       where the reporter thread and the main thread are;
* `step numThreads workers`  one step of one thread.

`added`, `calls` and the two instants of a `Reading` record what happened; no thread reads them.
-/

namespace UringPerf
namespace Stats

/-- the members of `ThreadStats` -/
inductive Field where
  | bytesTransferred
  | packetsCount
  | zcNotifications
  | errors
deriving DecidableEq, Repr

/-- a counter: `shared_stats_[thread].field` -/
abbrev Cell := Nat × Field

inductive Call where
  | addBytes (bytes packets : UInt64)
  | addZcNotification
  | addError
deriving DecidableEq, Repr

/-- the `fetch_add`s of a call, in order -/
def Call.fetchAdds : Call → List (Field × UInt64)
  | .addBytes bytes packets => [(.bytesTransferred, bytes), (.packetsCount, packets)]
  | .addZcNotification => [(.zcNotifications, 1)]
  | .addError => [(.errors, 1)]

/-- what additions put into a field -/
def amountIn (f : Field) (adds : List (Field × UInt64)) : Nat :=
  ((adds.filter fun a => a.1 = f).map fun a => a.2.toNat).sum

/-- what a call is to add to a field: its bytes and packets, or one -/
def Call.amount (f : Field) : Call → Nat
  | .addBytes bytes packets =>
    match f with
    | .bytesTransferred => bytes.toNat
    | .packetsCount => packets.toNat
    | _ => 0
  | .addZcNotification => if f = .zcNotifications then 1 else 0
  | .addError => if f = .errors then 1 else 0

/-- the additions of a call come to this -/
theorem amountIn_fetchAdds (f : Field) (c : Call) : amountIn f c.fetchAdds = c.amount f := by
  cases c <;> cases f <;> simp [amountIn, Call.fetchAdds, Call.amount]

/-- a call, as the model of one worker counts it -/
def Call.apply (c : Call) (stats : ThreadStats) : ThreadStats :=
  match c with
  | .addBytes bytes packets => stats.addBytes bytes.toNat packets.toNat
  | .addZcNotification => stats.addZcNotification
  | .addError => stats.addError

def Field.get (f : Field) (stats : ThreadStats) : Nat :=
  match f with
  | .bytesTransferred => stats.bytesTransferred
  | .packetsCount => stats.packetsCount
  | .zcNotifications => stats.zcNotifications
  | .errors => stats.errors

/-- the counters of one worker after its calls -/
def statsOf (worker : Nat) (calls : List (Nat × Call)) : ThreadStats :=
  (calls.filter fun c => c.1 = worker).foldl (fun stats c => c.2.apply stats) .zero

/-- the members `reporter_loop` reads of each thread -/
def reporterFields : List Field := [.bytesTransferred, .packetsCount, .zcNotifications]

/-- the members `print_summary` reads of each thread -/
def summaryFields : List Field := [.bytesTransferred, .packetsCount, .zcNotifications, .errors]

/-- the loads of a read loop, in order -/
def loads (numThreads : Nat) (fields : List Field) : List Cell :=
  (List.range numThreads).flatMap fun i => fields.map fun f => (i, f)

structure Reading where
  left : List Cell
  totals : Field → UInt64
  /-- what had been added when the loop began -/
  start : Cell → Nat
  /-- what had been added at the last load -/
  stop : Cell → Nat

def Reading.begin (numThreads : Nat) (fields : List Field) (added : Cell → Nat) : Reading :=
  { left := loads numThreads fields, totals := fun _ => 0, start := added, stop := added }

/-- `total += load` -/
def Reading.load (r : Reading) (c : Cell) (left : List Cell) (v : UInt64) (added : Cell → Nat) : Reading :=
  { r with left := left, totals := Function.update r.totals c.2 (r.totals c.2 + v), stop := added }

inductive Reporter where
  | test
  | sleeping
  | reading (r : Reading)
  | exited

inductive Joiner where
  | joining (worker : Nat)
  | stopping
  | reading (r : Reading)
  | printed (totals : Field → UInt64)

/-- a line of the reporter -/
structure Report where
  totals : Field → UInt64
  interval : Field → UInt64
  start : Cell → Nat
  stop : Cell → Nat

structure St where
  shared : Cell → UInt64
  /-- the additions left of the call a worker is in -/
  todo : Nat → List (Field × UInt64)
  finished : Nat → Bool
  running : Bool
  reporter : Reporter
  prev : Field → UInt64
  main : Joiner
  reports : List Report
  added : Cell → Nat
  calls : List (Nat × Call)

inductive Act where
  | call (worker : Nat) (c : Call)
  | fetchAdd (worker : Nat)
  | finish (worker : Nat)
  | reporter
  | main

/-- `start_reporting` has been called, the workers are about to start -/
def start : St :=
  { shared := fun _ => 0, todo := fun _ => [], finished := fun _ => false, running := true, reporter := .test,
    prev := fun _ => 0, main := .joining 0, reports := [], added := fun _ => 0, calls := [] }

/-- the end of the body of `reporter_loop` -/
def emit (s : St) (r : Reading) : St :=
  { s with
    reports := s.reports ++ [⟨r.totals, fun f => r.totals f - s.prev f, r.start, r.stop⟩]
    prev := r.totals
    reporter := .test }

/-- the next step of the reporter thread -/
def reporterStep (numThreads : Nat) (s : St) : Option St :=
  match s.reporter with
  | .test => some { s with reporter := if s.running then .sleeping else .exited }
  | .sleeping =>
    some { s with
      reporter := if s.running then .reading (.begin numThreads reporterFields s.added) else .exited }
  | .reading r =>
    match r.left with
    | [] => some (emit s r)
    | c :: left => some { s with reporter := .reading (r.load c left (s.shared c) s.added) }
  | .exited => none

/-- the next step of the main thread: join the workers, stop the reporter, print the summary -/
def mainStep (numThreads workers : Nat) (s : St) : Option St :=
  match s.main with
  | .joining w =>
    if w < workers then
      if s.finished w then some { s with main := .joining (w + 1) } else none
    else some { s with running := false, main := .stopping }
  | .stopping =>
    match s.reporter with
    | .exited => some { s with main := .reading (.begin numThreads summaryFields s.added) }
    | _ => none
  | .reading r =>
    match r.left with
    | [] => some { s with main := .printed r.totals }
    | c :: left => some { s with main := .reading (r.load c left (s.shared c) s.added) }
  | .printed _ => none

def step (numThreads workers : Nat) (s : St) : Act → Option St
  | .call w c =>
    if w < workers ∧ s.finished w = false ∧ s.todo w = [] then
      some { s with
        -- `if (thread_id < num_threads_)`
        todo := Function.update s.todo w (if w < numThreads then c.fetchAdds else [])
        calls := s.calls ++ [(w, c)] }
    else none
  | .fetchAdd w =>
    match s.todo w with
    | [] => none
    | (f, v) :: rest =>
      some { s with
        shared := Function.update s.shared (w, f) (s.shared (w, f) + v)
        added := Function.update s.added (w, f) (s.added (w, f) + v.toNat)
        todo := Function.update s.todo w rest }
  | .finish w =>
    if s.todo w = [] then some { s with finished := Function.update s.finished w true } else none
  | .reporter => reporterStep numThreads s
  | .main => mainStep numThreads workers s

/-- the true total of a field over the threads that are counted -/
def total (numThreads : Nat) (added : Cell → Nat) (f : Field) : Nat :=
  ((List.range numThreads).map fun i => added (i, f)).sum

/-- what the calls of the counted threads add to a field -/
def callTotal (numThreads : Nat) (calls : List (Nat × Call)) (f : Field) : Nat :=
  ((calls.filter fun c => c.1 < numThreads).map fun c => c.2.amount f).sum

end Stats
end UringPerf
