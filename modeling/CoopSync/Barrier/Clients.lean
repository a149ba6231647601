/-
# The barrier with any calls

`include/coopsync_tbb/barrier.hpp` as in `Barrier.Model`, now for any number of tasks
that make any calls: `arrive(update)` with any update, `arrive_and_wait`,
`arrive_and_drop`, and `wait` for any token that a call of `arrive` has handed out.

A call keeps the phase in which it began, the phase that its load of `m_phase` has read,
and the count that its decrement has found.  The phase a load reads is counted without
wrapping around in `number`, which `m_phase` would hold were it not a byte.
-/

import CoopSync.Barrier.Model

namespace CoopSync
namespace Barrier
namespace Clients

open WaitQueue

/-- A call of `arrive`: what happens to its token, its update, the stores to `m_phase`
before it began, the phase it has read, and the count its decrement has found. -/
structure Call where
  after : After
  update : ℤ
  began : ℕ
  number : ℕ
  before : ℤ
deriving DecidableEq

/-- `class arrival_token`, with the call that has made it. -/
structure Token where
  /-- `m_phase` -/
  phase : UInt8
  call : Call
deriving DecidableEq

/-- `class barrier`, and what has happened. -/
structure Shared (τ : Type*) extends Barrier.Shared τ where
  /-- what `m_phase` would hold were it not a byte -/
  number : ℕ
  /-- the updates of the calls begun in the current phase -/
  begun : ℤ
  /-- the updates taken off in the current phase -/
  applied : ℤ
  /-- `m_expected` when the current phase began -/
  phaseExpected : ℤ
  /-- the calls of `arrive_and_drop` so far -/
  drops : ℕ
  /-- those made before the current phase -/
  dropsBefore : ℕ
  /-- the tokens that `arrive` has returned -/
  tokens : List Token
  /-- the phase of each call of `m_completion`, and the call of `arrive` that made it -/
  completed : List (ℕ × Call)
  /-- the tokens of the waits that have returned -/
  waited : List Token
  /-- the failures of the assertion in `wait` -/
  failures : ℕ

/-- Where a task stands in the code of the barrier. -/
inductive Pc (τ : Type*)
  | outside
  /-- `m_initial_expected.fetch_sub(1)` in `arrive_and_drop()` -/
  | dropSub (call : Call)
  | arrive (call : Call) (a : Arrive τ)
  /-- the fast path of `wait(arrival)` -/
  | waitLoad (token : Token)
  /-- `m_waiters.wait_if(...)` in `wait(arrival)` -/
  | waitIf (token : Token) (w : WaitIf τ)
deriving DecidableEq

/-- The scheduler's choice: a task outside makes a call, the `i`-th token handed out
being the one it waits for, and a task inside steps. -/
inductive Act
  | arrive (update : ℤ)
  | arriveAndWait
  | arriveAndDrop
  | wait (i : ℕ)
  | step
deriving DecidableEq

variable {τ : Type*}

/-- A call that begins now. -/
def Shared.call (s : Shared τ) (k : After) (update : ℤ) : Call := ⟨k, update, s.phases, 0, 0⟩

/-- The place after `arrive()` has returned. -/
def After.enter (token : Token) : After → Pc τ
  | .wait => .waitLoad token
  | .keep | .drop => .outside

/-- `arrive()` returns. -/
def Shared.return (s : Shared τ) (token : Token) : Shared τ :=
  { s with tokens := s.tokens ++ [token] }

/-- `assert(arrival.m_phase == current_phase)` -/
def Shared.assertCurrent (s : Shared τ) (token : Token) : Shared τ :=
  if token.phase = s.phase then s else { s with failures := s.failures + 1 }

variable [DecidableEq τ]

/-- One step of one task. -/
def next : Next τ Act (Shared τ) (Pc τ)
  | _, .arrive update, s, .outside =>
    some ({ s with begun := s.begun + update }, .arrive (s.call .keep update) .load)
  | _, .arriveAndWait, s, .outside =>
    some ({ s with begun := s.begun + 1 }, .arrive (s.call .wait 1) .load)
  | _, .arriveAndDrop, s, .outside =>
    some ({ s with begun := s.begun + 1, drops := s.drops + 1 }, .dropSub (s.call .drop 1))
  | _, .wait i, s, .outside =>
    match s.tokens[i]? with
    | some token => if token.call.after = .keep then some (s, .waitLoad token) else none
    | none => none
  | _, .step, s, .dropSub call =>
    some ({ s with initialExpected := s.initialExpected - 1 }, .arrive call .load)
  | _, .step, s, .arrive call .load =>
    some (s, .arrive { call with number := s.number } (.fetchSub s.phase))
  | _, .step, s, .arrive call (.fetchSub phase) =>
    let s' :=
      { s with expected := s.expected - call.update, applied := s.applied + call.update }
    let call' := { call with before := s.expected }
    some (if s.expected = call.update then (s', .arrive call' (.completion phase))
      else (s'.return ⟨phase, call'⟩, After.enter ⟨phase, call'⟩ call.after))
  | _, .step, s, .arrive call (.completion phase) =>
    some ({ s with
        completions := s.completions + 1
        completed := s.completed ++ [(s.phases, call)] },
      .arrive call (.loadInitial phase))
  | _, .step, s, .arrive call (.loadInitial phase) =>
    some (s, .arrive call (.storeExpected phase s.initialExpected))
  | _, .step, s, .arrive call (.storeExpected phase nextExpected) =>
    some ({ s with expected := nextExpected }, .arrive call (.storePhase phase))
  | _, .step, s, .arrive call (.storePhase phase) =>
    some ({ s with
        phase := phase + 1
        phases := s.phases + 1
        number := call.number + 1
        begun := 0
        applied := 0
        phaseExpected := s.expected
        dropsBefore := s.drops },
      .arrive call (.resumeAll phase .lock))
  | t, .step, s, .arrive call (.resumeAll phase r) =>
    (r.step t s.waiters).map fun r =>
      match r.2 with
      | some r' => ({ s with waiters := r.1 }, .arrive call (.resumeAll phase r'))
      | none =>
        ({ s with waiters := r.1 }.return ⟨phase, call⟩, After.enter ⟨phase, call⟩ call.after)
  | _, .step, s, .waitLoad token =>
    some (if previous token.phase s.phase then
        ({ s with waited := s.waited ++ [token] }, .outside)
      else (s.assertCurrent token, .waitIf token .fastPath))
  | t, .step, s, .waitIf token w =>
    (w.step t (s.phase == token.phase) s.waiters).map fun r =>
      match r.2 with
      | some w' => ({ s with waiters := r.1 }, .waitIf token w')
      | none => ({ s with waiters := r.1, waited := s.waited ++ [token] }, .outside)
  | _, _, _, _ => none

/-- A barrier constructed with `expected`, every task outside. -/
def start (τ : Type*) (expected : ℕ) : Config τ (Shared τ) (Pc τ) :=
  ⟨⟨⟨expected, expected, 0, Queue.init τ, 0, 0⟩, 0, 0, 0, expected, 0, 0, [], [], [], 0⟩,
    fun _ => .outside⟩

end Clients
end Barrier
end CoopSync
