/-
# `barrier`

`include/coopsync_tbb/barrier.hpp`: `arrive` takes one off `m_expected`; the task
that takes the last one calls the completion function, restores `m_expected` from
`m_initial_expected`, advances `m_phase` and resumes all waiters.  `wait` returns
at once for a token of the previous phase and waits while `m_phase` is the token's
phase.

The tasks `τ` are the participants.  Each arrives, with the default update of one,
waits for its token, and repeats, or drops out.  `m_phase` and the tokens are bytes
and wrap around; in `wait` the byte is promoted to `int` before one is subtracted.
The assertions do not stop the program.
-/

import CoopSync.WaitQueue.Model

namespace CoopSync
namespace Barrier

open WaitQueue

/-- `class barrier`, and how often its phase has advanced and its completion
function has returned. -/
structure Shared (τ : Type*) where
  /-- `m_initial_expected` -/
  initialExpected : ℤ
  /-- `m_expected` -/
  expected : ℤ
  /-- `m_phase` -/
  phase : UInt8
  /-- `m_waiters` -/
  waiters : Queue τ
  /-- the stores to `m_phase` so far -/
  phases : ℕ
  /-- the returns of `m_completion` so far -/
  completions : ℕ

/-- Where a task stands in `arrive()`, with the phase it has read. -/
inductive Arrive (τ : Type*)
  /-- `phase = m_phase.load(...)` -/
  | load
  /-- `expected = m_expected.fetch_sub(update)` and `if (expected == update)` -/
  | fetchSub (phase : UInt8)
  /-- `m_completion()` -/
  | completion (phase : UInt8)
  /-- `next_expected = m_initial_expected.load(...)` -/
  | loadInitial (phase : UInt8)
  /-- `m_expected.store(next_expected, ...)` -/
  | storeExpected (phase : UInt8) (nextExpected : ℤ)
  /-- `m_phase.store(next_phase, ...)` -/
  | storePhase (phase : UInt8)
  /-- `m_waiters.resume_all()` -/
  | resumeAll (phase : UInt8) (r : ResumeAll τ)
deriving DecidableEq

/-- What a task does with the token of its arrival. -/
inductive After
  /-- `t = arrive()` -/
  | keep
  /-- `wait(arrive())` in `arrive_and_wait()` -/
  | wait
  /-- `std::ignore = arrive(1)` in `arrive_and_drop()` -/
  | drop
deriving DecidableEq

/-- Where a task stands in the code of the barrier. -/
inductive Pc (τ : Type*)
  | outside
  /-- `m_initial_expected.fetch_sub(1)` in `arrive_and_drop()` -/
  | dropSub
  | arrive (k : After) (a : Arrive τ)
  /-- outside, with a token to wait for -/
  | holding (token : UInt8)
  /-- the fast path of `wait(arrival)` -/
  | waitLoad (token : UInt8)
  /-- `m_waiters.wait_if(...)` in `wait(arrival)` -/
  | waitIf (token : UInt8) (w : WaitIf τ)
  /-- dropped out -/
  | gone
deriving DecidableEq

/-- A participant: how often it has taken one off `m_expected`, how many of its
waits have returned, and where it stands. -/
structure Local (τ : Type*) where
  arrivals : ℕ
  waits : ℕ
  pc : Pc τ

/-- The scheduler's choice: a participant outside makes a call, one inside
steps. -/
inductive Act
  | arrive
  | arriveAndWait
  | arriveAndDrop
  | wait
  | step

variable {τ : Type*} [DecidableEq τ]

/-- The place after `arrive()` has returned the token of `phase`. -/
def After.pc (phase : UInt8) : After → Pc τ
  | .keep => .holding phase
  | .wait => .waitLoad phase
  | .drop => .gone

/-- `arrival.m_phase == previous_phase`, computed in `int`. -/
def previous (token phase : UInt8) : Bool := (token.toNat : ℤ) = (phase.toNat : ℤ) - 1

/-- One step of one task. -/
def next : Next τ Act (Shared τ) (Local τ)
  | _, .arrive, s, ⟨a, w, .outside⟩ => some (s, ⟨a, w, .arrive .keep .load⟩)
  | _, .arriveAndWait, s, ⟨a, w, .outside⟩ => some (s, ⟨a, w, .arrive .wait .load⟩)
  | _, .arriveAndDrop, s, ⟨a, w, .outside⟩ => some (s, ⟨a, w, .dropSub⟩)
  | _, .wait, s, ⟨a, w, .holding token⟩ => some (s, ⟨a, w, .waitLoad token⟩)
  | _, .step, s, ⟨a, w, .dropSub⟩ =>
    some ({ s with initialExpected := s.initialExpected - 1 }, ⟨a, w, .arrive .drop .load⟩)
  | _, .step, s, ⟨a, w, .arrive k .load⟩ => some (s, ⟨a, w, .arrive k (.fetchSub s.phase)⟩)
  | _, .step, s, ⟨a, w, .arrive k (.fetchSub phase)⟩ =>
    some ({ s with expected := s.expected - 1 },
      ⟨a + 1, w, if s.expected = 1 then .arrive k (.completion phase) else k.pc phase⟩)
  | _, .step, s, ⟨a, w, .arrive k (.completion phase)⟩ =>
    some ({ s with completions := s.completions + 1 }, ⟨a, w, .arrive k (.loadInitial phase)⟩)
  | _, .step, s, ⟨a, w, .arrive k (.loadInitial phase)⟩ =>
    some (s, ⟨a, w, .arrive k (.storeExpected phase s.initialExpected)⟩)
  | _, .step, s, ⟨a, w, .arrive k (.storeExpected phase nextExpected)⟩ =>
    some ({ s with expected := nextExpected }, ⟨a, w, .arrive k (.storePhase phase)⟩)
  | _, .step, s, ⟨a, w, .arrive k (.storePhase phase)⟩ =>
    some ({ s with phase := phase + 1, phases := s.phases + 1 },
      ⟨a, w, .arrive k (.resumeAll phase .lock)⟩)
  | t, .step, s, ⟨a, w, .arrive k (.resumeAll phase r)⟩ =>
    (r.step t s.waiters).map fun r =>
      ({ s with waiters := r.1 },
        ⟨a, w, r.2.elim (k.pc phase) fun r => .arrive k (.resumeAll phase r)⟩)
  | _, .step, s, ⟨a, w, .waitLoad token⟩ =>
    some (s, if previous token s.phase then ⟨a, w + 1, .outside⟩
      else ⟨a, w, .waitIf token .fastPath⟩)
  | t, .step, s, ⟨a, w, .waitIf token wi⟩ =>
    (wi.step t (s.phase == token) s.waiters).map fun r =>
      ({ s with waiters := r.1 },
        r.2.elim ⟨a, w + 1, .outside⟩ fun wi => ⟨a, w, .waitIf token wi⟩)
  | _, _, _, _ => none

/-- A barrier constructed with the number of participants, all of them outside. -/
def start (τ : Type*) [Fintype τ] : Config τ (Shared τ) (Local τ) :=
  ⟨⟨Fintype.card τ, Fintype.card τ, 0, Queue.init τ, 0, 0⟩, fun _ => ⟨0, 0, .outside⟩⟩

end Barrier
end CoopSync
