import UringPerf.Base.Run
import UringPerf.Engine.Completions

/-!
# The two shapes of the completion loops

A loop is given by what the program does with a completion; the application's state `σ`, the contents `ε` of a slot
and what the loop learns from outside (`χ`: a time, the result of a handshake) are left open.  Between any two steps
of a loop something else may happen (`outside`): a signal, or the kernel posting a completion.

* `Loop`, `Batch.step`     loops built on `reap_completions` and `cqe_seen`: pointers to all waiting completions are
                           collected first, then each is processed and released;
* `ForEach`, `Each.step`  loops built on `io_uring_for_each_cqe`: the completions are processed in place and released
                           together by `io_uring_cq_advance`.
-/

namespace UringPerf

/-- a statement of a loop body: one that reads the completion through the pointer, or `cqe_seen` -/
inductive Stmt (σ ε : Type) where
  | use (f : σ → ε → σ)
  | seen

structure Loop (σ ε χ : Type) where
  maxReap : UInt32
  running : σ → Bool
  /-- before the completions are reaped -/
  prelude : χ → σ → σ
  /-- if there are none -/
  idle : σ → σ
  /-- the statements of the branch a completion takes -/
  body : χ → σ → ε → List (Stmt σ ε)
  /-- after the batch -/
  flush : σ → σ

/-- an unsigned count as the `int` it is returned as -/
def toInt32 (n : Nat) : Int := if n % 2^32 < 2^31 then (n % 2^32 : Nat) else (n % 2^32 : Nat) - 2^32

/-- an outside event changes the application's state and may post a completion, for which there has to be room -/
def Log.outside {ε : Type} (l : Log ε) : Option ε → Option (Log ε)
  | none => some l
  | some c => if l.cq.hasRoom then some (l.post c) else none

namespace Batch

inductive Phase (σ ε : Type) where
  | top
  | reap (head : UInt32) (cqesOut : List UInt32)
  | batch (cqes : List UInt32)
  | run (cqe : UInt32) (todo : List (Stmt σ ε)) (cqes : List UInt32)
  | flush
  | exited

structure St (σ ε : Type) where
  app : σ
  log : Log ε
  phase : Phase σ ε

inductive Act (χ κ : Type) where
  | worker (x : χ)
  | outside (e : κ)

section
variable {σ ε χ κ : Type}

/-- `reap_completions` returns; the caller tests `reaped <= 0` on a signed number -/
def reaped (loop : Loop σ ε χ) (s : St σ ε) (cqesOut : List UInt32) : St σ ε :=
  if toInt32 cqesOut.length ≤ 0 then { s with app := loop.idle s.app, phase := .top }
  else { s with log := s.log.setMark cqesOut.length, phase := .batch cqesOut }

/-- the next step of the worker's thread -/
def workerStep (loop : Loop σ ε χ) (s : St σ ε) (x : χ) : Option (St σ ε) :=
  match s.phase with
  | .top =>
    if loop.running s.app then
      some { s with app := loop.prelude x s.app, phase := .reap s.log.cq.khead [] }
    else some { s with phase := .exited }
  | .reap head cqesOut =>
    match s.log.cq.forEachNext head with
    | none => some (reaped loop s cqesOut)
    | some cqe =>
      if loop.maxReap.toNat ≤ cqesOut.length then some (reaped loop s cqesOut)
      else some { s with phase := .reap (head + 1) (cqesOut ++ [cqe]) }
  | .batch [] => some { s with phase := .flush }
  | .batch (cqe :: cqes) =>
    some { s with log := s.log.look cqe, phase := .run cqe (loop.body x s.app (s.log.cq.cqes cqe)) cqes }
  | .run cqe (.use f :: todo) cqes =>
    some { s with app := f s.app (s.log.cq.cqes cqe), phase := .run cqe todo cqes }
  | .run cqe (.seen :: todo) cqes => some { s with log := s.log.release 1, phase := .run cqe todo cqes }
  | .run _ [] cqes => some { s with phase := .batch cqes }
  | .flush => some { s with app := loop.flush s.app, phase := .top }
  | .exited => none

def step (loop : Loop σ ε χ) (outside : κ → σ → Option (σ × Option ε)) (s : St σ ε) : Act χ κ → Option (St σ ε)
  | .worker x => workerStep loop s x
  | .outside e =>
    (outside e s.app).bind fun r => (s.log.outside r.2).map fun l => { s with app := r.1, log := l }

def start (mask base : UInt32) (cqes : UInt32 → ε) (app : σ) : St σ ε := ⟨app, .start mask base cqes, .top⟩

end
end Batch

structure ForEach (σ ε χ : Type) where
  running : σ → Bool
  /-- submit and wait; `none` if this fails -/
  wait : χ → σ → Option σ
  body : χ → σ → ε → List (σ → ε → σ)

namespace Each

inductive Phase (σ ε : Type) where
  | top
  | each (head count : UInt32)
  | run (head count cqe : UInt32) (todo : List (σ → ε → σ))
  | exited

structure St (σ ε : Type) where
  app : σ
  log : Log ε
  phase : Phase σ ε

section
variable {σ ε χ κ : Type}

def workerStep (loop : ForEach σ ε χ) (s : St σ ε) (x : χ) : Option (St σ ε) :=
  match s.phase with
  | .top =>
    if loop.running s.app then
      match loop.wait x s.app with
      | none => some { s with phase := .exited }
      | some app => some { s with app := app, log := s.log.setMark 0, phase := .each s.log.cq.khead 0 }
    else some { s with phase := .exited }
  | .each head count =>
    match s.log.cq.forEachNext head with
    | none => some { s with log := s.log.release count, phase := .top }
    | some cqe =>
      some { s with log := s.log.look cqe, phase := .run head count cqe (loop.body x s.app (s.log.cq.cqes cqe)) }
  | .run head count cqe (f :: todo) =>
    some { s with app := f s.app (s.log.cq.cqes cqe), phase := .run head count cqe todo }
  | .run head count _ [] => some { s with phase := .each (head + 1) (count + 1) }
  | .exited => none

def step (loop : ForEach σ ε χ) (outside : κ → σ → Option (σ × Option ε)) (s : St σ ε) :
    Batch.Act χ κ → Option (St σ ε)
  | .worker x => workerStep loop s x
  | .outside e =>
    (outside e s.app).bind fun r => (s.log.outside r.2).map fun l => { s with app := r.1, log := l }

def start (mask base : UInt32) (cqes : UInt32 → ε) (app : σ) : St σ ε := ⟨app, .start mask base cqes, .top⟩

end
end Each
end UringPerf
