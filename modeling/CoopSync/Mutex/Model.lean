/-
# `mutex`

`src/mutex.cpp`: a flag `m_locked` and a wait queue.  `lock` tries the flag and
waits while it is set; `unlock` clears it and wakes one waiter, which tries
again and may find the flag set by another task.
-/

import CoopSync.WaitQueue.Model

namespace CoopSync
namespace Mutex

open WaitQueue

/-- `class mutex` -/
structure Shared (τ : Type*) where
  /-- `m_locked` -/
  locked : Bool
  /-- `m_wait_queue` -/
  waitQueue : Queue τ

/-- Where a task stands in the code of the mutex. -/
inductive Pc (τ : Type*)
  | outside
  /-- `try_lock()` -/
  | tryLock
  /-- `while (!try_lock())` in `lock()` -/
  | lockTry
  /-- `m_wait_queue.wait_if(...)` in `lock()` -/
  | lockWait (w : WaitIf τ)
  /-- `assert(m_locked.load(...))` in `unlock()` -/
  | unlockAssert
  /-- `m_locked.store(false, ...)` -/
  | unlockStore
  /-- `m_wait_queue.resume_one()` -/
  | unlockResume (r : ResumeOne τ)

/-- A task: how often it has acquired the mutex and not called `unlock` since,
and where it stands. -/
structure Local (τ : Type*) where
  owns : ℕ
  pc : Pc τ

/-- The scheduler's choice: a task outside the code makes a call, a task inside
steps. -/
inductive Act
  | lock
  | tryLock
  | unlock
  | step

variable {τ : Type*} [DecidableEq τ]

/-- `m_locked.compare_exchange_strong(expected = false, true)` -/
def Shared.tryLock (s : Shared τ) : Bool × Shared τ :=
  if s.locked then (false, s) else (true, { s with locked := true })

/-- One step of one task. -/
def next : Next τ Act (Shared τ) (Local τ)
  | _, .lock, s, ⟨n, .outside⟩ => some (s, ⟨n, .lockTry⟩)
  | _, .tryLock, s, ⟨n, .outside⟩ => some (s, ⟨n, .tryLock⟩)
  -- only an owner may call `unlock`
  | _, .unlock, s, ⟨n + 1, .outside⟩ => some (s, ⟨n, .unlockAssert⟩)
  | _, .step, s, ⟨n, .tryLock⟩ =>
    some (s.tryLock.2, ⟨if s.tryLock.1 then n + 1 else n, .outside⟩)
  | _, .step, s, ⟨n, .lockTry⟩ =>
    some (s.tryLock.2, if s.tryLock.1 then ⟨n + 1, .outside⟩ else ⟨n, .lockWait .fastPath⟩)
  | t, .step, s, ⟨n, .lockWait w⟩ =>
    (w.step t s.locked s.waitQueue).map fun r =>
      ({ s with waitQueue := r.1 }, ⟨n, r.2.elim .lockTry .lockWait⟩)
  | _, .step, s, ⟨n, .unlockAssert⟩ => some (s, ⟨n, .unlockStore⟩)
  | _, .step, s, ⟨n, .unlockStore⟩ =>
    some ({ s with locked := false }, ⟨n, .unlockResume .lock⟩)
  | t, .step, s, ⟨n, .unlockResume r⟩ =>
    (r.step t s.waitQueue).map fun r =>
      ({ s with waitQueue := r.1 }, ⟨n, r.2.elim .unlockResume fun _ => .outside⟩)
  | _, _, _, _ => none

/-- A new mutex with every task outside. -/
def start (τ : Type*) : Config τ (Shared τ) (Local τ) :=
  ⟨⟨false, Queue.init τ⟩, fun _ => ⟨0, .outside⟩⟩

end Mutex
end CoopSync
