/-
# `shared_mutex`

`src/shared_mutex.cpp`: one integer `m_state`, the number of shared owners or
`k_writer_locked` or, while the last reader hands over, `k_transition`, and a
wait queue for each kind of owner.

A releasing task gives the mutex to the first queued writer without touching
`m_state`; only if there is none it stores `0` and resumes all readers.  The two
release paths end in the same lines, which are `Handoff` here.  A woken reader
tries again; a woken writer owns the mutex.  The predicate a writer waits on is
`!try_lock()`, so evaluating it may take the mutex.

`m_state` is an integer here: an `int` overflows only with `2^31 - 1` shared
owners.  The assertions are steps of their own and do not stop the program.
-/

import CoopSync.WaitQueue.Model

namespace CoopSync
namespace SharedMutex

open WaitQueue

/-- `k_transition` -/
def kTransition : ℤ := -2

/-- `k_writer_locked` -/
def kWriterLocked : ℤ := -1

/-- `class shared_mutex` -/
structure Shared (τ : Type*) where
  /-- `m_state` -/
  state : ℤ
  /-- `m_writer_waiters` -/
  writerWaiters : Queue τ
  /-- `m_reader_waiters` -/
  readerWaiters : Queue τ

/-- Where a task stands in `try_lock_shared`. -/
inductive TryLockShared
  /-- `state = m_state.load(...)` -/
  | load
  /-- `while (state >= 0) { if (compare_exchange_weak(state, state + 1)) ... }` -/
  | loop (state : ℤ)
deriving DecidableEq, Repr

/-- The lines that end `unlock()` and `unlock_shared()`. -/
inductive Handoff (τ : Type*)
  /-- `if (m_writer_waiters.resume_one()) return;` -/
  | resumeOne (r : ResumeOne τ)
  /-- `m_state.store(0, ...)` -/
  | store
  /-- `m_reader_waiters.resume_all()` -/
  | resumeAll (r : ResumeAll τ)
deriving DecidableEq, Repr

/-- Where a task stands in the code of the mutex. -/
inductive Pc (τ : Type*)
  | outside
  /-- `try_lock()` -/
  | tryLock
  /-- `if (try_lock()) return;` in `lock()` -/
  | lockTry
  /-- `m_writer_waiters.wait_if(...)` in `lock()` -/
  | lockWait (w : WaitIf τ)
  /-- the assertion at the end of `lock()` -/
  | lockAssert
  /-- the assertion of `unlock()` -/
  | unlockAssert
  /-- `try_lock_shared()` -/
  | tryLockShared (a : TryLockShared)
  /-- `while (!try_lock_shared())` in `lock_shared()` -/
  | lockSharedTry (a : TryLockShared)
  /-- `m_reader_waiters.wait_if(...)` in `lock_shared()` -/
  | lockSharedWait (w : WaitIf τ)
  /-- `state = m_state.load(...)` in `unlock_shared()` -/
  | unlockSharedLoad
  /-- the loop of `unlock_shared()`, with its assertion on `state` -/
  | unlockSharedLoop (state : ℤ)
  /-- `m_state.store(k_writer_locked, ...)` in `unlock_shared()` -/
  | unlockSharedStore
  | handoff (h : Handoff τ)
deriving DecidableEq, Repr

/-- What a task has done in `lock()`: a record kept for the proofs, which no step
reads. -/
structure History where
  /-- calls of `lock()` -/
  calls : ℕ
  /-- exchanges of `m_state` won in `lock()` -/
  wins : ℕ
  /-- returns from `wait_if` after somebody else resumed the task -/
  handoffs : ℕ
deriving DecidableEq, Repr

/-- A task: how often it owns the mutex in each mode without having called the
release for it, its history, and where it stands. -/
structure Local (τ : Type*) where
  writes : ℕ
  reads : ℕ
  hist : History
  pc : Pc τ
deriving DecidableEq, Repr

/-- The scheduler's choice: a task outside the code makes a call, a task inside
steps; a weak exchange fails spuriously if `spurious` is set. -/
inductive Act
  | lock
  | tryLock
  | unlock
  | lockShared
  | tryLockShared
  | unlockShared
  | step (spurious : Bool)
deriving DecidableEq, Repr

/-- `m_state.compare_exchange_strong(expected = 0, k_writer_locked)` -/
def tryLock (state : ℤ) : Bool × ℤ :=
  if state = 0 then (true, kWriterLocked) else (false, state)

/-- The predicate of `lock()`: `!try_lock()`. -/
def writerWaits (state : ℤ) : Bool × ℤ := (!(tryLock state).1, (tryLock state).2)

/-- `try_lock_shared` on the state; the Boolean is the value returned. -/
def TryLockShared.step (spurious : Bool) (state : ℤ) : TryLockShared → ℤ × (TryLockShared ⊕ Bool)
  | .load => (state, .inl (.loop state))
  | .loop expected =>
    if 0 ≤ expected then
      if state = expected ∧ spurious = false then (expected + 1, .inr true)
      else (state, .inl (.loop state))
    else (state, .inr false)

variable {τ : Type*} [DecidableEq τ]

/-- The end of a release; `none` as the new place means that it has returned. -/
def Handoff.step (t : τ) (s : Shared τ) : Handoff τ → Option (Shared τ × Option (Handoff τ))
  | .resumeOne r =>
    (r.step t s.writerWaiters).map fun r =>
      ({ s with writerWaiters := r.1 }, match r.2 with
        | .inl r => some (.resumeOne r)
        | .inr true => none
        | .inr false => some .store)
  | .store => some ({ s with state := 0 }, some (.resumeAll .lock))
  | .resumeAll r =>
    (r.step t s.readerWaiters).map fun r =>
      ({ s with readerWaiters := r.1 }, r.2.map .resumeAll)

/-- The step of `wait_if` after which a task goes on that somebody else resumed. -/
def continued : WaitIf τ → ℕ
  | .queued _ => 1
  | _ => 0

/-- One step of one task. -/
def next : Next τ Act (Shared τ) (Local τ)
  | _, .lock, s, l@⟨_, _, h, .outside⟩ =>
    some (s, { l with hist := { h with calls := h.calls + 1 }, pc := .lockTry })
  | _, .tryLock, s, l@⟨_, _, _, .outside⟩ => some (s, { l with pc := .tryLock })
  -- only an exclusive owner may call `unlock`
  | _, .unlock, s, ⟨m + 1, n, h, .outside⟩ => some (s, ⟨m, n, h, .unlockAssert⟩)
  | _, .lockShared, s, l@⟨_, _, _, .outside⟩ => some (s, { l with pc := .lockSharedTry .load })
  | _, .tryLockShared, s, l@⟨_, _, _, .outside⟩ =>
    some (s, { l with pc := .tryLockShared .load })
  -- only a shared owner may call `unlock_shared`
  | _, .unlockShared, s, ⟨m, n + 1, h, .outside⟩ => some (s, ⟨m, n, h, .unlockSharedLoad⟩)
  | _, .step _, s, ⟨m, n, h, .tryLock⟩ =>
    some ({ s with state := (tryLock s.state).2 },
      ⟨if (tryLock s.state).1 then m + 1 else m, n, h, .outside⟩)
  | _, .step _, s, ⟨m, n, h, .lockTry⟩ =>
    some ({ s with state := (tryLock s.state).2 },
      if (tryLock s.state).1 then ⟨m + 1, n, { h with wins := h.wins + 1 }, .outside⟩
      else ⟨m, n, h, .lockWait .fastPath⟩)
  | t, .step _, s, ⟨m, n, h, .lockWait w⟩ =>
    (w.stepWith writerWaits t s.state s.writerWaiters).map fun r =>
      ({ s with state := r.1, writerWaiters := r.2.1 },
        ⟨m, n, { h with
            wins := h.wins + if w.evaluates ∧ (tryLock s.state).1 then 1 else 0
            handoffs := h.handoffs + continued w },
          r.2.2.elim .lockAssert .lockWait⟩)
  | _, .step _, s, ⟨m, n, h, .lockAssert⟩ => some (s, ⟨m + 1, n, h, .outside⟩)
  | _, .step _, s, ⟨m, n, h, .unlockAssert⟩ => some (s, ⟨m, n, h, .handoff (.resumeOne .lock)⟩)
  | _, .step spurious, s, ⟨m, n, h, .tryLockShared a⟩ =>
    let r := a.step spurious s.state
    some ({ s with state := r.1 }, match r.2 with
      | .inl a => ⟨m, n, h, .tryLockShared a⟩
      | .inr true => ⟨m, n + 1, h, .outside⟩
      | .inr false => ⟨m, n, h, .outside⟩)
  | _, .step spurious, s, ⟨m, n, h, .lockSharedTry a⟩ =>
    let r := a.step spurious s.state
    some ({ s with state := r.1 }, match r.2 with
      | .inl a => ⟨m, n, h, .lockSharedTry a⟩
      | .inr true => ⟨m, n + 1, h, .outside⟩
      | .inr false => ⟨m, n, h, .lockSharedWait .fastPath⟩)
  | t, .step _, s, ⟨m, n, h, .lockSharedWait w⟩ =>
    (w.step t (s.state < 0) s.readerWaiters).map fun r =>
      ({ s with readerWaiters := r.1 },
        ⟨m, n, h, r.2.elim (.lockSharedTry .load) .lockSharedWait⟩)
  | _, .step _, s, ⟨m, n, h, .unlockSharedLoad⟩ =>
    some (s, ⟨m, n, h, .unlockSharedLoop s.state⟩)
  | _, .step spurious, s, ⟨m, n, h, .unlockSharedLoop state⟩ =>
    if s.state = state ∧ spurious = false then
      if 1 < state then some ({ s with state := state - 1 }, ⟨m, n, h, .outside⟩)
      else some ({ s with state := kTransition }, ⟨m, n, h, .unlockSharedStore⟩)
    else some (s, ⟨m, n, h, .unlockSharedLoop s.state⟩)
  | _, .step _, s, ⟨m, n, h, .unlockSharedStore⟩ =>
    some ({ s with state := kWriterLocked }, ⟨m, n, h, .handoff (.resumeOne .lock)⟩)
  | t, .step _, s, ⟨m, n, h, .handoff f⟩ =>
    (f.step t s).map fun r => (r.1, ⟨m, n, h, r.2.elim .outside .handoff⟩)
  | _, _, _, _ => none

/-- A new mutex with every task outside. -/
def start (τ : Type*) : Config τ (Shared τ) (Local τ) :=
  ⟨⟨0, Queue.init τ, Queue.init τ⟩, fun _ => ⟨0, 0, ⟨0, 0, 0⟩, .outside⟩⟩

end SharedMutex
end CoopSync
