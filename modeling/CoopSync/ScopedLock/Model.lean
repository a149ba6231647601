/-
# `scoped_lock`

`shared_mutex::scoped_lock` (`src/shared_mutex.cpp`) and `mutex::scoped_lock`
(`src/mutex.cpp`), as classes of holders: `m_mutex` is the pointer, `m_is_writer_lock` the
mode.  A `mutex` has one mode, for which its `scoped_lock` has no field.

The users of a mutex are the `scoped_lock` objects.  A task in a call of one of them goes
by the name of that object in the wait queues, and every task may call any object that is
in no call of another task.
-/

import CoopSync.Holder.Code
import CoopSync.Mutex.Model
import CoopSync.SharedMutex.Model

namespace CoopSync

open Holder

namespace SharedMutex

/-- The call that a place belongs to. -/
def Pc.phase {κ : Type*} : Pc κ → Option (Phase Bool)
  | .outside => none
  | .tryLock => some (.trying true)
  | .lockTry | .lockWait _ | .lockAssert => some (.locking true)
  | .tryLockShared _ => some (.trying false)
  | .lockSharedTry _ | .lockSharedWait _ => some (.locking false)
  | .unlockAssert | .unlockSharedLoad | .unlockSharedLoop _ | .unlockSharedStore | .handoff _ =>
    some .unlocking

/-- A `shared_mutex` as its `scoped_lock` objects use it; the mode is `write`. -/
def lockable (κ : Type*) [DecidableEq κ] : Lockable κ Bool Bool Act (Shared κ) (Local κ) where
  next := next
  start := start κ
  call
    | .lock write => if write then .lock else .lockShared
    | .tryLock write => if write then .tryLock else .tryLockShared
    | .unlock write => if write then .unlock else .unlockShared
  step := .step
  during l := l.pc.phase
  owns l write := if write then l.writes else l.reads

namespace ScopedLock

/-- The member functions of `shared_mutex::scoped_lock`. -/
inductive Op (M : Type*)
  /-- `scoped_lock()` -/
  | default
  /-- `scoped_lock(m, write)` -/
  | construct (m : M) (write : Bool)
  | acquire (m : M) (write : Bool)
  | tryAcquire (m : M) (write : Bool)
  | release
  | upgradeToWriter
  | downgradeToReader
  /-- `~scoped_lock()` -/
  | destroy
deriving DecidableEq, Repr

variable {M : Type*}

def acquire (m : M) (write : Bool) : List (Instr M Bool) :=
  [.throwIfHeld, .setMutex (some m), .lock write, .setMode write]

def tryAcquire (m : M) (write : Bool) : List (Instr M Bool) :=
  [.throwIfHeld, .tryLock m write, .setMutex (some m), .setMode write, .ret true]

def release : List (Instr M Bool) :=
  [.returnIfFree, .unlockHeld, .setMode false, .setMutex none]

/-- The reader lock is released before the writer lock is acquired. -/
def upgradeToWriter : List (Instr M Bool) :=
  [.throwIfFree, .returnTrueIf true, .unlock false, .lock true, .setMode true, .ret false]

/-- The writer lock is released before the reader lock is acquired. -/
def downgradeToReader : List (Instr M Bool) :=
  [.throwIfFree, .returnTrueIf false, .unlock true, .lock false, .setMode false, .ret false]

def code (M : Type*) : Code (Op M) M Bool where
  init
    | .default => some ⟨none, false⟩
    | .construct m write => some ⟨some m, write⟩
    | _ => none
  body
    | .default => []
    | .construct _ write => [.lock write]
    | .acquire m write => acquire m write
    | .tryAcquire m write => tryAcquire m write
    | .release | .destroy => release
    | .upgradeToWriter => upgradeToWriter
    | .downgradeToReader => downgradeToReader
  destroys
    | .destroy => true
    | _ => false
  tries
    | .tryAcquire _ _ => true
    | _ => false

end ScopedLock

end SharedMutex

namespace Mutex

/-- The call that a place belongs to. -/
def Pc.phase {κ : Type*} : Pc κ → Option (Phase Unit)
  | .outside => none
  | .tryLock => some (.trying ())
  | .lockTry | .lockWait _ => some (.locking ())
  | .unlockAssert | .unlockStore | .unlockResume _ => some .unlocking

/-- A `mutex` as its `scoped_lock` objects use it. -/
def lockable (κ : Type*) [DecidableEq κ] : Lockable κ Unit Unit Act (Shared κ) (Local κ) where
  next := next
  start := start κ
  call
    | .lock _ => .lock
    | .tryLock _ => .tryLock
    | .unlock _ => .unlock
  step _ := .step
  during l := l.pc.phase
  owns l _ := l.owns

namespace ScopedLock

/-- The member functions of `mutex::scoped_lock`. -/
inductive Op (N : Type*)
  /-- `scoped_lock()` -/
  | default
  /-- `scoped_lock(m)` -/
  | construct (m : N)
  | acquire (m : N)
  | tryAcquire (m : N)
  | release
  /-- `~scoped_lock()` -/
  | destroy
deriving DecidableEq, Repr

variable {N : Type*}

def acquire (m : N) : List (Instr N Unit) := [.throwIfHeld, .setMutex (some m), .lock ()]

def tryAcquire (m : N) : List (Instr N Unit) :=
  [.throwIfHeld, .tryLock m (), .setMutex (some m), .ret true]

def release : List (Instr N Unit) := [.returnIfFree, .unlock (), .setMutex none]

def code (N : Type*) : Code (Op N) N Unit where
  init
    | .default => some ⟨none, ()⟩
    | .construct m => some ⟨some m, ()⟩
    | _ => none
  body
    | .default => []
    | .construct _ => [.lock ()]
    | .acquire m => acquire m
    | .tryAcquire m => tryAcquire m
    | .release | .destroy => release
  destroys
    | .destroy => true
    | _ => false
  tries
    | .tryAcquire _ => true
    | _ => false

end ScopedLock

end Mutex

/-! ### Any number of tasks, mutexes and locks -/

namespace ScopedLock

variable {τ κ κ' M N : Type*} [DecidableEq κ] [DecidableEq κ'] [DecidableEq M] [DecidableEq N]

/-- The `shared_mutex` objects `M` with their locks `κ`. -/
abbrev SharedMutexes (κ M : Type*) := Config κ
  (M → Config κ (SharedMutex.Shared κ) (SharedMutex.Local κ))
  (Holder.Local (SharedMutex.ScopedLock.Op M) M Bool)

/-- The `mutex` objects `N` with their locks `κ'`. -/
abbrev Mutexes (κ' N : Type*) := Config κ' (N → Config κ' (Mutex.Shared κ') (Mutex.Local κ'))
  (Holder.Local (Mutex.ScopedLock.Op N) N Unit)

structure System (κ κ' M N : Type*) where
  sharedMutexes : SharedMutexes κ M
  mutexes : Mutexes κ' N

/-- The steps of the locks of `shared_mutex` objects. -/
def nextShared : Next κ (Holder.Act (SharedMutex.ScopedLock.Op M) Bool)
    (M → Config κ (SharedMutex.Shared κ) (SharedMutex.Local κ))
    (Holder.Local (SharedMutex.ScopedLock.Op M) M Bool) :=
  Holder.next (SharedMutex.lockable κ) (SharedMutex.ScopedLock.code M)

/-- The steps of the locks of `mutex` objects. -/
def nextMutex : Next κ' (Holder.Act (Mutex.ScopedLock.Op N) Unit)
    (N → Config κ' (Mutex.Shared κ') (Mutex.Local κ'))
    (Holder.Local (Mutex.ScopedLock.Op N) N Unit) :=
  Holder.next (Mutex.lockable κ') (Mutex.ScopedLock.code N)

/-- The scheduler's choice: a task outside the code calls a member function of a lock; a
task inside steps, and a weak exchange fails spuriously if `spurious` is set. -/
inductive Act (κ κ' M N : Type*)
  | shared (k : κ) (op : SharedMutex.ScopedLock.Op M)
  | mutex (k : κ') (op : Mutex.ScopedLock.Op N)
  | step (spurious : Bool)

/-- One step of one task, which stands outside or in a call of a lock. -/
def next : Next τ (Act κ κ' M N) (System κ κ' M N) (Option (κ ⊕ κ'))
  | _, .shared k op, s, none =>
    (s.sharedMutexes.step nextShared k (.call op)).map fun c =>
      ({ s with sharedMutexes := c }, some (.inl k))
  | _, .mutex k op, s, none =>
    (s.mutexes.step nextMutex k (.call op)).map fun c =>
      ({ s with mutexes := c }, some (.inr k))
  | _, .step spurious, s, some (.inl k) =>
    (s.sharedMutexes.step nextShared k (.step spurious)).map fun c =>
      ({ s with sharedMutexes := c }, if (c.loc k).run.isNone then none else some (.inl k))
  | _, .step _, s, some (.inr k) =>
    (s.mutexes.step nextMutex k (.step ())).map fun c =>
      ({ s with mutexes := c }, if (c.loc k).run.isNone then none else some (.inr k))
  | _, _, _, _ => none

/-- New mutexes, no lock constructed, and every task outside. -/
def start (τ κ κ' M N : Type*) [DecidableEq κ] [DecidableEq κ'] :
    Config τ (System κ κ' M N) (Option (κ ⊕ κ')) :=
  ⟨⟨Holder.start (SharedMutex.lockable κ) _ M, Holder.start (Mutex.lockable κ') _ N⟩,
    fun _ => none⟩

end ScopedLock
end CoopSync
