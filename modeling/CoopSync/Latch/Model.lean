/-
# `latch`

`include/coopsync_tbb/latch.hpp` and `src/latch.cpp`.  `count_down(update)` takes
`update` off `m_counter`; if that was all there was left it resumes all waiters.
`wait` returns at once if the counter is zero, and waits while it is not;
`arrive_and_wait` does the one and then the other.

Any number of tasks call them, with updates that are natural numbers.  The assertions
do not stop the program; where `wait` asserts that the counter is zero is a place of its
own.
-/

import CoopSync.WaitQueue.Model

namespace CoopSync
namespace Latch

open WaitQueue

/-- `class latch`, and the sum of the updates of all calls made. -/
structure Shared (τ : Type*) where
  /-- `m_counter` -/
  counter : ℤ
  /-- `m_waiters` -/
  waiters : Queue τ
  /-- the updates of the calls so far -/
  requested : ℕ

/-- What a task does after `count_down`. -/
inductive After
  /-- `count_down(update)` -/
  | return
  /-- `wait()` in `arrive_and_wait(update)` -/
  | wait
deriving DecidableEq, Repr

/-- Where a task stands in the code of the latch. -/
inductive Pc (τ : Type*)
  | outside
  /-- `prev = m_counter.fetch_sub(update)` and `if (prev == update)` -/
  | fetchSub (k : After) (update : ℕ)
  /-- `m_waiters.resume_all()` -/
  | resumeAll (k : After) (r : ResumeAll τ)
  /-- `try_wait()` -/
  | tryWait
  /-- `if (!try_wait())` in `wait()` -/
  | fastPath
  /-- `m_waiters.wait_if(...)` in `wait()` -/
  | waitIf (w : WaitIf τ)
  /-- `assert(m_counter.load() == 0)` in `wait()` -/
  | assertZero
deriving DecidableEq, Repr

/-- A task: how often it had been suspended when it last entered `wait`, and where it
stands. -/
structure Local (τ : Type*) where
  before : ℕ
  pc : Pc τ

/-- The scheduler's choice: a task outside makes a call, one inside steps. -/
inductive Act
  | countDown (update : ℕ)
  | arriveAndWait (update : ℕ)
  | wait
  | tryWait
  | step
deriving DecidableEq, Repr

variable {τ : Type*} [DecidableEq τ]

/-- `try_wait` -/
def Shared.tryWait (s : Shared τ) : Bool := s.counter = 0

/-- `wait()` is called. -/
def Local.enterWait (t : τ) (q : Queue τ) : Local τ := ⟨q.suspends t, .fastPath⟩

/-- The task after its `count_down`. -/
def After.enter (t : τ) (q : Queue τ) (before : ℕ) : After → Local τ
  | .return => ⟨before, .outside⟩
  | .wait => .enterWait t q

/-- One step of one task.  What a call of `try_wait` returns is not kept. -/
def next : Next τ Act (Shared τ) (Local τ)
  | _, .countDown update, s, ⟨b, .outside⟩ =>
    some ({ s with requested := s.requested + update }, ⟨b, .fetchSub .return update⟩)
  | _, .arriveAndWait update, s, ⟨b, .outside⟩ =>
    some ({ s with requested := s.requested + update }, ⟨b, .fetchSub .wait update⟩)
  | t, .wait, s, ⟨_, .outside⟩ => some (s, .enterWait t s.waiters)
  | _, .tryWait, s, ⟨b, .outside⟩ => some (s, ⟨b, .tryWait⟩)
  | t, .step, s, ⟨b, .fetchSub k update⟩ =>
    some ({ s with counter := s.counter - update },
      if s.counter = update then ⟨b, .resumeAll k .lock⟩ else k.enter t s.waiters b)
  | t, .step, s, ⟨b, .resumeAll k r⟩ =>
    (r.step t s.waiters).map fun r =>
      ({ s with waiters := r.1 }, r.2.elim (k.enter t r.1 b) fun r => ⟨b, .resumeAll k r⟩)
  | _, .step, s, ⟨b, .tryWait⟩ => some (s, ⟨b, .outside⟩)
  | _, .step, s, ⟨b, .fastPath⟩ =>
    some (s, ⟨b, if !s.tryWait then .waitIf .fastPath else .assertZero⟩)
  | t, .step, s, ⟨b, .waitIf w⟩ =>
    (w.step t (!s.tryWait) s.waiters).map fun r =>
      ({ s with waiters := r.1 }, ⟨b, r.2.elim .assertZero .waitIf⟩)
  | _, .step, s, ⟨b, .assertZero⟩ => some (s, ⟨b, .outside⟩)
  | _, _, _, _ => none

/-- A latch constructed with `expected`, every task outside. -/
def start (τ : Type*) (expected : ℕ) : Config τ (Shared τ) (Local τ) :=
  ⟨⟨expected, Queue.init τ, 0⟩, fun _ => ⟨0, .outside⟩⟩

/-- The updates of all calls of a run are at most `expected`. -/
def WithinExpected (expected : ℕ) (c : Config τ (Shared τ) (Local τ)) (_ : τ) : Act → Prop
  | .countDown update | .arriveAndWait update => c.shared.requested + update ≤ expected
  | _ => True

instance (expected : ℕ) (c : Config τ (Shared τ) (Local τ)) (t : τ) :
    ∀ a, Decidable (WithinExpected expected c t a)
  | .countDown update | .arriveAndWait update =>
    inferInstanceAs (Decidable (c.shared.requested + update ≤ expected))
  | .wait | .tryWait | .step => .isTrue trivial

end Latch
end CoopSync
