/-
# `condition_variable`

`include/coopsync_tbb/condition_variable.hpp` and `src/condition_variable.cpp`:
`wait(lock)` releases the lock, waits on the queue under a predicate that is
always true, and takes the lock again; `wait(lock, pred)` repeats that while
`pred()` is false.  `notify_one` and `notify_all` resume from the queue.

The lock is any lock with mutual exclusion: the task that holds it, and taking it
is possible while nobody does.  The predicates read a state `υ`.  The code around
the calls is part of the model, since the guarantee is about it: a waiter takes
the lock, calls `wait`, and releases the lock; a notifier takes the lock, changes
the state, releases the lock and calls a notify function.
-/

import CoopSync.WaitQueue.Model

namespace CoopSync
namespace ConditionVariable

open WaitQueue

/-- The lock, the state under it, and `class condition_variable`. -/
structure Shared (τ υ : Type*) where
  /-- the task that holds the lock -/
  owner : Option τ
  /-- what the predicates read -/
  state : υ
  /-- `m_waiters` -/
  waiters : Queue τ

/-- Where a task stands. -/
inductive Pc (τ υ : Type*)
  | outside
  /-- `lock.lock()` before `wait(lock, pred)` -/
  | waitEnter (pred : υ → Bool)
  /-- `while (!pred())` -/
  | waitTest (pred : υ → Bool)
  /-- `lock.unlock()` in `wait(lock)` -/
  | waitUnlock (pred : υ → Bool)
  /-- `m_waiters.wait_if([] { return true; })` -/
  | waitIf (pred : υ → Bool) (w : WaitIf τ)
  /-- `lock.lock()` in `wait(lock)` -/
  | waitRelock (pred : υ → Bool)
  /-- `wait(lock, pred)` has returned, with the lock held -/
  | waitReturned
  /-- `lock.lock()` of a notifier -/
  | notifyEnter (change : υ → υ)
  /-- the notifier changes the state -/
  | notifyChange (change : υ → υ)
  /-- `lock.unlock()` of a notifier -/
  | notifyUnlock
  /-- `notify_one()`: `m_waiters.resume_one()` -/
  | notifyOne (r : ResumeOne τ)
  /-- `notify_all()`: `m_waiters.resume_all()` -/
  | notifyAll (r : ResumeAll τ)

/-- The function the notifiers call. -/
inductive Notify
  | one
  | all

/-- The scheduler's choice: a task outside starts to wait or to notify, a task
inside steps. -/
inductive Act (υ : Type*)
  | wait (pred : υ → Bool)
  | notify (change : υ → υ)
  | step

variable {τ υ : Type*} [DecidableEq τ]

/-- `lock.lock()` -/
def Shared.lock (s : Shared τ υ) (t : τ) : Option (Shared τ υ) :=
  if s.owner = none then some { s with owner := some t } else none

/-- `lock.unlock()` -/
def Shared.unlock (s : Shared τ υ) : Shared τ υ := { s with owner := none }

/-- The first place of a notify call. -/
def Notify.enter : Notify → Pc τ υ
  | .one => .notifyOne .lock
  | .all => .notifyAll .lock

/-- One step of one task, where the tasks of `waits` may wait and the notifiers
call `notify`. -/
def next (waits : τ → Bool) (notify : Notify) : Next τ (Act υ) (Shared τ υ) (Pc τ υ)
  | t, .wait pred, s, .outside => if waits t then some (s, .waitEnter pred) else none
  | _, .notify change, s, .outside => some (s, .notifyEnter change)
  | t, .step, s, .waitEnter pred => (s.lock t).map fun s => (s, .waitTest pred)
  | _, .step, s, .waitTest pred =>
    some (s, if pred s.state then .waitReturned else .waitUnlock pred)
  | _, .step, s, .waitUnlock pred => some (s.unlock, .waitIf pred .fastPath)
  | t, .step, s, .waitIf pred w =>
    (w.step t true s.waiters).map fun r =>
      ({ s with waiters := r.1 }, r.2.elim (.waitRelock pred) (.waitIf pred))
  | t, .step, s, .waitRelock pred => (s.lock t).map fun s => (s, .waitTest pred)
  | _, .step, s, .waitReturned => some (s.unlock, .outside)
  | t, .step, s, .notifyEnter change => (s.lock t).map fun s => (s, .notifyChange change)
  | _, .step, s, .notifyChange change => some ({ s with state := change s.state }, .notifyUnlock)
  | _, .step, s, .notifyUnlock => some (s.unlock, notify.enter)
  | t, .step, s, .notifyOne r =>
    (r.step t s.waiters).map fun r =>
      ({ s with waiters := r.1 }, r.2.elim .notifyOne fun _ => .outside)
  | t, .step, s, .notifyAll r =>
    (r.step t s.waiters).map fun r => ({ s with waiters := r.1 }, r.2.elim .outside .notifyAll)
  | _, _, _, _ => none

/-- A new condition variable, the lock free and every task outside. -/
def start (τ : Type*) {υ : Type*} (state : υ) : Config τ (Shared τ υ) (Pc τ υ) :=
  ⟨⟨none, state, Queue.init τ⟩, fun _ => .outside⟩

end ConditionVariable
end CoopSync
