/-
# `counting_semaphore` and `binary_semaphore`

`include/coopsync_tbb/semaphore.hpp` and `src/semaphore.cpp`.

`counting_semaphore<L>` keeps its permits in the narrowest signed integer that
holds `L` (`int_max_value_t`); values stored there are two's complement of that
width.  `try_acquire` takes one permit in a loop around a weak exchange, which
may fail for no reason; `acquire` repeats it and waits while the counter is zero;
`release(update)` adds `update` permits and resumes as many waiters.

`counting_semaphore<1>` is a flag: `acquire` clears it, `release` sets it and
resumes one waiter.
-/

import CoopSync.WaitQueue.Model

namespace CoopSync
namespace Semaphore

open WaitQueue

/-! ### The storage type -/

/-- The width of `int_max_value_t<N>::type`, with the standard least types of
their exact widths and a 64-bit `ptrdiff_t`. -/
def storageWidth (n : ℤ) : ℕ :=
  if n ≤ 2 ^ 7 - 1 then 8
  else if n ≤ 2 ^ 15 - 1 then 16
  else if n ≤ 2 ^ 31 - 1 then 32
  else 64

/-- `static_cast<storage_t>`: two's complement of the storage width. -/
def storageCast (leastMaxValue : ℤ) (x : ℤ) : ℤ := x.bmod (2 ^ storageWidth leastMaxValue)

/-- `counting_semaphore<LeastMaxValue>::max()` -/
def max (leastMaxValue : ℤ) : ℤ := 2 ^ (storageWidth leastMaxValue - 1) - 1

/-! ### `counting_semaphore<LeastMaxValue>` -/

/-- `class counting_semaphore` -/
structure Shared (τ : Type*) where
  /-- `m_counter` -/
  counter : ℤ
  /-- `m_waiters` -/
  waiters : Queue τ

/-- Where a task stands in `try_acquire`. -/
inductive TryAcquire
  /-- `current = m_counter.load(...)` -/
  | load
  /-- `while (current > 0) { if (compare_exchange_weak(current, current - 1)) ... }` -/
  | loop (current : ℤ)

/-- Where a task stands in the code of the semaphore. -/
inductive Pc (τ : Type*)
  | outside
  /-- `try_acquire()` -/
  | tryAcquire (a : TryAcquire)
  /-- `while (!try_acquire())` in `acquire()` -/
  | acquireTry (a : TryAcquire)
  /-- `m_waiters.wait_if(...)` in `acquire()` -/
  | acquireWait (w : WaitIf τ)
  /-- `if (update == 0) return;` in `release(update)` -/
  | release (update : ℕ)
  /-- `prev = m_counter.fetch_add(static_cast<storage_t>(update))` -/
  | releaseAdd (update : ℕ)
  /-- `assert(update <= max() - prev)` -/
  | releaseAssert (update : ℕ) (prev : ℤ)
  /-- `m_waiters.resume_n(update)` -/
  | releaseResume (update : ℕ) (r : ResumeN τ)

/-- A task: the permits it has acquired and released so far, and where it
stands. -/
structure Local (τ : Type*) where
  acquired : ℕ
  released : ℕ
  pc : Pc τ

/-- The scheduler's choice: a task outside the code makes a call, a task inside
steps; a weak exchange fails spuriously if `spurious` is set. -/
inductive Act
  | acquire
  | tryAcquire
  | release (update : ℕ)
  | step (spurious : Bool)

/-- `try_acquire` on the counter; the Boolean is the value returned. -/
def TryAcquire.step (leastMaxValue : ℤ) (spurious : Bool) (counter : ℤ) :
    TryAcquire → ℤ × (TryAcquire ⊕ Bool)
  | .load => (counter, .inl (.loop counter))
  | .loop current =>
    if 0 < current then
      if counter = current ∧ spurious = false then
        (storageCast leastMaxValue (current - 1), .inr true)
      else (counter, .inl (.loop counter))
    else (counter, .inr false)

/-- `m_counter.fetch_add(static_cast<storage_t>(update))` -/
def Shared.fetchAdd {τ : Type*} (leastMaxValue : ℤ) (s : Shared τ) (update : ℕ) : Shared τ :=
  { s with counter := storageCast leastMaxValue (s.counter + storageCast leastMaxValue update) }

variable {τ : Type*} [DecidableEq τ]

/-- One step of one task. -/
def next (leastMaxValue : ℤ) : Next τ Act (Shared τ) (Local τ)
  | _, .acquire, s, ⟨m, n, .outside⟩ => some (s, ⟨m, n, .acquireTry .load⟩)
  | _, .tryAcquire, s, ⟨m, n, .outside⟩ => some (s, ⟨m, n, .tryAcquire .load⟩)
  | _, .release update, s, ⟨m, n, .outside⟩ => some (s, ⟨m, n, .release update⟩)
  | _, .step spurious, s, ⟨m, n, .tryAcquire a⟩ =>
    let r := a.step leastMaxValue spurious s.counter
    some ({ s with counter := r.1 }, match r.2 with
      | .inl a => ⟨m, n, .tryAcquire a⟩
      | .inr true => ⟨m + 1, n, .outside⟩
      | .inr false => ⟨m, n, .outside⟩)
  | _, .step spurious, s, ⟨m, n, .acquireTry a⟩ =>
    let r := a.step leastMaxValue spurious s.counter
    some ({ s with counter := r.1 }, match r.2 with
      | .inl a => ⟨m, n, .acquireTry a⟩
      | .inr true => ⟨m + 1, n, .outside⟩
      | .inr false => ⟨m, n, .acquireWait .fastPath⟩)
  | t, .step _, s, ⟨m, n, .acquireWait w⟩ =>
    (w.step t (s.counter = 0) s.waiters).map fun r =>
      ({ s with waiters := r.1 }, ⟨m, n, r.2.elim (.acquireTry .load) .acquireWait⟩)
  | _, .step _, s, ⟨m, n, .release update⟩ =>
    some (s, ⟨m, n, if update = 0 then .outside else .releaseAdd update⟩)
  | _, .step _, s, ⟨m, n, .releaseAdd update⟩ =>
    some (s.fetchAdd leastMaxValue update, ⟨m, n + update, .releaseAssert update s.counter⟩)
  | _, .step _, s, ⟨m, n, .releaseAssert update _⟩ =>
    some (s, ⟨m, n, .releaseResume update (.enter update)⟩)
  | t, .step _, s, ⟨m, n, .releaseResume update r⟩ =>
    (r.step t s.waiters).map fun r =>
      ({ s with waiters := r.1 }, ⟨m, n, r.2.elim (.releaseResume update) fun _ => .outside⟩)
  | _, _, _, _ => none

/-- A semaphore constructed with `desired`, every task outside.  The constructor
converts `desired` to the storage type. -/
def start (τ : Type*) (leastMaxValue desired : ℤ) : Config τ (Shared τ) (Local τ) :=
  ⟨⟨storageCast leastMaxValue desired, Queue.init τ⟩, fun _ => ⟨0, 0, .outside⟩⟩

/-- What `release` asks of its callers: when the permits are added there is room
for them below `max()`. -/
def WithinMax (leastMaxValue : ℤ) (c : Config τ (Shared τ) (Local τ)) (t : τ) (_ : Act) : Prop :=
  match (c.loc t).pc with
  | .releaseAdd update => (update : ℤ) ≤ max leastMaxValue - c.shared.counter
  | _ => True

instance (leastMaxValue : ℤ) (c : Config τ (Shared τ) (Local τ)) (t : τ) (a : Act) :
    Decidable (WithinMax leastMaxValue c t a) := by
  unfold WithinMax
  split <;> infer_instance

/-! ### `counting_semaphore<1>` -/

namespace Binary

/-- `class counting_semaphore<1>` -/
structure Shared (τ : Type*) where
  /-- `m_available` -/
  available : Bool
  /-- `m_waiters` -/
  waiters : Queue τ

/-- Where a task stands in the code of the binary semaphore. -/
inductive Pc (τ : Type*)
  | outside
  /-- `try_acquire()` -/
  | tryAcquire
  /-- `while (!try_acquire())` in `acquire()` -/
  | acquireTry
  /-- `m_waiters.wait_if(...)` in `acquire()` -/
  | acquireWait (w : WaitIf τ)
  /-- `if (update == 0) return;` in `release(update)` -/
  | release (update : ℕ)
  /-- `assert(!m_available.load(...))` -/
  | releaseAssert
  /-- `m_available.store(true, ...)` -/
  | releaseStore
  /-- `m_waiters.resume_one()` -/
  | releaseResume (r : ResumeOne τ)

/-- The scheduler's choice. -/
inductive Act
  | acquire
  | tryAcquire
  | release (update : ℕ)
  | step

/-- `m_available.compare_exchange_strong(expected = true, false)` -/
def Shared.tryAcquire (s : Shared τ) : Bool × Shared τ :=
  if s.available then (true, { s with available := false }) else (false, s)

/-- One step of one task. -/
def next : Next τ Act (Shared τ) (Pc τ)
  | _, .acquire, s, .outside => some (s, .acquireTry)
  | _, .tryAcquire, s, .outside => some (s, .tryAcquire)
  | _, .release update, s, .outside => some (s, .release update)
  | _, .step, s, .tryAcquire => some (s.tryAcquire.2, .outside)
  | _, .step, s, .acquireTry =>
    some (s.tryAcquire.2, if s.tryAcquire.1 then .outside else .acquireWait .fastPath)
  | t, .step, s, .acquireWait w =>
    (w.step t (!s.available) s.waiters).map fun r =>
      ({ s with waiters := r.1 }, r.2.elim .acquireTry .acquireWait)
  | _, .step, s, .release update => some (s, if update = 0 then .outside else .releaseAssert)
  | _, .step, s, .releaseAssert => some (s, .releaseStore)
  | _, .step, s, .releaseStore => some ({ s with available := true }, .releaseResume .lock)
  | t, .step, s, .releaseResume r =>
    (r.step t s.waiters).map fun r =>
      ({ s with waiters := r.1 }, r.2.elim .releaseResume fun _ => .outside)
  | _, _, _, _ => none

/-- A binary semaphore constructed with `desired`, every task outside. -/
def start (τ : Type*) (desired : Bool) : Config τ (Shared τ) (Pc τ) :=
  ⟨⟨desired, Queue.init τ⟩, fun _ => .outside⟩

end Binary

end Semaphore
end CoopSync
