/-
# `wait_queue`

`include/coopsync_tbb/detail/wait_queue.hpp` and `src/wait_queue.cpp`: the queue
of suspended tasks under every primitive of the library.

`wait_if(pred)` returns at once if `pred()` is false.  Otherwise it suspends the
task; the suspend callback takes the queue's spin lock, evaluates `pred()` again
and either pushes the task's node or, after releasing the lock, resumes the task
itself.  `resume_one`, `resume_n` and `resume_all` take nodes off the list under
the lock and resume them after releasing it.

Every line that touches shared memory is one step here, so the lock, the second
evaluation of the predicate, the push and the release are four steps and other
tasks may move between any two.  The value of the predicate is the scheduler's
choice in this module; the primitives supply their own.

`tbb::spin_mutex` is the task inside its critical section, `tbb::task::suspend`
hands out the next suspend point of the calling task, and `tbb::task::resume`
records the suspend point it was called with: a suspended task goes on only once
its suspend point is recorded.  The intrusive list is a list of suspend points,
first queued first.
-/

import CoopSync.Interleave

namespace CoopSync
namespace WaitQueue

/-- `tbb::task::suspend_point`: the suspension number `call` of `task`. -/
structure SuspendPoint (τ : Type*) where
  task : τ
  call : ℕ
deriving DecidableEq, Repr

instance {τ : Type*} [DecidableEq τ] : LawfulBEq (SuspendPoint τ) := inferInstance

/-- `class wait_queue` and what the runtime knows of its tasks. -/
structure Queue (τ : Type*) where
  /-- `m_waiters_mutex`: the task in the critical section. -/
  waitersMutex : Option τ
  /-- `m_waiters` -/
  waiters : List (SuspendPoint τ)
  /-- The arguments `tbb::task::resume` was called with, latest first. -/
  resumed : List (SuspendPoint τ)
  /-- How often each task has called `tbb::task::suspend`. -/
  suspends : τ → ℕ

/-- A newly constructed queue. -/
def Queue.init (τ : Type*) : Queue τ := ⟨none, [], [], fun _ => 0⟩

/-- `tbb::task::resume` -/
def Queue.resume {τ : Type*} (q : Queue τ) (sp : SuspendPoint τ) : Queue τ :=
  { q with resumed := sp :: q.resumed }

/-- Where a task stands in `wait_if`. -/
inductive WaitIf (τ : Type*)
  /-- `if (!pred()) return;` -/
  | fastPath
  /-- `tbb::task::suspend` -/
  | suspend
  /-- the callback takes `m_waiters_mutex` -/
  | lock (sp : SuspendPoint τ)
  /-- `if (captured_pred.value())` -/
  | recheck (sp : SuspendPoint τ)
  /-- `m_waiters.push_back(node)` -/
  | pushBack (sp : SuspendPoint τ)
  /-- the lock is released on the way out of the callback -/
  | unlockQueued (sp : SuspendPoint τ)
  /-- the lock is released after a re-check that came out false -/
  | unlockResume (sp : SuspendPoint τ)
  /-- `tbb::task::resume(sp)` by the callback itself -/
  | resume (sp : SuspendPoint τ)
  /-- suspended by a callback that pushed -/
  | queued (sp : SuspendPoint τ)
  /-- suspended by a callback that resumed the task itself -/
  | selfResumed (sp : SuspendPoint τ)
deriving DecidableEq, Repr

/-- Where a task stands in `resume_one`. -/
inductive ResumeOne (τ : Type*)
  | lock
  /-- `waiter = m_waiters.pop_front()` -/
  | popFront
  | unlock (waiter : Option (SuspendPoint τ))
  /-- `tbb::task::resume(waiter->value)` -/
  | resume (waiter : SuspendPoint τ)
deriving DecidableEq, Repr

/-- Where a task stands in `do_resume_all`, with its local list. -/
inductive DoResumeAll (τ : Type*)
  /-- `while (waiter = waiters_to_resume.pop_front())` -/
  | popFront (waitersToResume : List (SuspendPoint τ))
  /-- `tbb::task::resume(waiter->value)` -/
  | resume (waiter : SuspendPoint τ) (waitersToResume : List (SuspendPoint τ))
deriving DecidableEq, Repr

/-- Where a task stands in `resume_all`. -/
inductive ResumeAll (τ : Type*)
  | lock
  /-- `waiters_to_resume.swap(m_waiters)` -/
  | swap
  | unlock (waitersToResume : List (SuspendPoint τ))
  | doResumeAll (d : DoResumeAll τ)
deriving DecidableEq, Repr

/-- Where a task stands in `resume_n(n)`; `resumed` is the local counter. -/
inductive ResumeN (τ : Type*)
  /-- `if (n == 0) return 0;` -/
  | enter (n : ℕ)
  | lock (n : ℕ)
  /-- `while (resumed < n)` with its `pop_front` and `push_back` -/
  | loop (n resumed : ℕ) (waitersToResume : List (SuspendPoint τ))
  | unlock (resumed : ℕ) (waitersToResume : List (SuspendPoint τ))
  | doResumeAll (resumed : ℕ) (d : DoResumeAll τ)
deriving DecidableEq, Repr

/-- Where a task stands in `empty`. -/
inductive Empty
  | lock
  | read
  | unlock (result : Bool)
deriving DecidableEq, Repr

variable {τ : Type*} [DecidableEq τ]

/-- `m_waiters_mutex.lock()`: possible only while the lock is free. -/
def Queue.acquire (q : Queue τ) (t : τ) : Option (Queue τ) :=
  if q.waitersMutex = none then some { q with waitersMutex := some t } else none

omit [DecidableEq τ] in
/-- Taking the lock leaves the list alone. -/
theorem Queue.acquire_waiters {q q' : Queue τ} {t : τ} (h : q.acquire t = some q') :
    q'.waiters = q.waiters := by
  unfold Queue.acquire at h
  split at h
  · obtain rfl := Option.some.inj h
    rfl
  · simp at h

/-- `m_waiters_mutex.unlock()` -/
def Queue.release (q : Queue τ) : Queue τ := { q with waitersMutex := none }

omit [DecidableEq τ] in
/-- So does releasing it. -/
@[simp] theorem Queue.release_waiters (q : Queue τ) : q.release.waiters = q.waiters := rfl

/-- `wait_if`, where `pred` is what the predicate evaluates to if this step
evaluates it.  `none` as the new place means that the call has returned. -/
def WaitIf.step (t : τ) (pred : Bool) (q : Queue τ) :
    WaitIf τ → Option (Queue τ × Option (WaitIf τ))
  | .fastPath => some (q, if pred then some .suspend else none)
  | .suspend =>
    some ({ q with suspends := Function.update q.suspends t (q.suspends t + 1) },
      some (.lock ⟨t, q.suspends t⟩))
  | .lock sp => (q.acquire t).map fun q => (q, some (.recheck sp))
  | .recheck sp => some (q, some (if pred then .pushBack sp else .unlockResume sp))
  | .pushBack sp => some ({ q with waiters := q.waiters ++ [sp] }, some (.unlockQueued sp))
  | .unlockQueued sp => some (q.release, some (.queued sp))
  | .unlockResume sp => some (q.release, some (.resume sp))
  | .resume sp => some (q.resume sp, some (.selfResumed sp))
  | .queued sp => if sp ∈ q.resumed then some (q, none) else none
  | .selfResumed sp => if sp ∈ q.resumed then some (q, none) else none

/-- The steps of `wait_if` that evaluate the predicate. -/
def WaitIf.evaluates : WaitIf τ → Bool
  | .fastPath | .recheck _ => true
  | _ => false

/-- `wait_if` with a predicate that reads, and may write, the state `s` of the
primitive that owns the queue. -/
def WaitIf.stepWith {σ : Type*} (pred : σ → Bool × σ) (t : τ) (s : σ) (q : Queue τ)
    (w : WaitIf τ) : Option (σ × Queue τ × Option (WaitIf τ)) :=
  if w.evaluates then (w.step t (pred s).1 q).map fun r => ((pred s).2, r)
  else (w.step t false q).map fun r => (s, r)

/-- `resume_one`; the Boolean is the value returned. -/
def ResumeOne.step (t : τ) (q : Queue τ) : ResumeOne τ → Option (Queue τ × (ResumeOne τ ⊕ Bool))
  | .lock => (q.acquire t).map fun q => (q, .inl .popFront)
  | .popFront => some ({ q with waiters := q.waiters.tail }, .inl (.unlock q.waiters.head?))
  | .unlock (some waiter) => some (q.release, .inl (.resume waiter))
  | .unlock none => some (q.release, .inr false)
  | .resume waiter => some (q.resume waiter, .inr true)

/-- `do_resume_all` -/
def DoResumeAll.step (q : Queue τ) : DoResumeAll τ → Queue τ × Option (DoResumeAll τ)
  | .popFront [] => (q, none)
  | .popFront (waiter :: rest) => (q, some (.resume waiter rest))
  | .resume waiter rest => (q.resume waiter, some (.popFront rest))

/-- `resume_all` -/
def ResumeAll.step (t : τ) (q : Queue τ) : ResumeAll τ → Option (Queue τ × Option (ResumeAll τ))
  | .lock => (q.acquire t).map fun q => (q, some .swap)
  | .swap => some ({ q with waiters := [] }, some (.unlock q.waiters))
  | .unlock l => some (q.release, some (.doResumeAll (.popFront l)))
  | .doResumeAll d => some ((d.step q).1, (d.step q).2.map .doResumeAll)

/-- `resume_n`; the number is the value returned. -/
def ResumeN.step (t : τ) (q : Queue τ) : ResumeN τ → Option (Queue τ × (ResumeN τ ⊕ ℕ))
  | .enter n => some (q, if n = 0 then .inr 0 else .inl (.lock n))
  | .lock n => (q.acquire t).map fun q => (q, .inl (.loop n 0 []))
  | .loop n resumed l =>
    if resumed < n then
      match q.waiters with
      | [] => some (q, .inl (.unlock resumed l))
      | waiter :: rest =>
        some ({ q with waiters := rest }, .inl (.loop n (resumed + 1) (l ++ [waiter])))
    else some (q, .inl (.unlock resumed l))
  | .unlock resumed l => some (q.release, .inl (.doResumeAll resumed (.popFront l)))
  | .doResumeAll resumed d =>
    some ((d.step q).1, match (d.step q).2 with
      | some d' => .inl (.doResumeAll resumed d')
      | none => .inr resumed)

/-- `empty`; the Boolean is the value returned. -/
def Empty.step (t : τ) (q : Queue τ) : Empty → Option (Queue τ × (Empty ⊕ Bool))
  | .lock => (q.acquire t).map fun q => (q, .inl .read)
  | .read => some (q, .inl (.unlock q.waiters.isEmpty))
  | .unlock result => some (q.release, .inr result)

/-! ### Any number of tasks on one queue -/

/-- Where a task stands in the code of the queue. -/
inductive Pc (τ : Type*)
  | idle
  | waitIf (w : WaitIf τ)
  | resumeOne (r : ResumeOne τ)
  | resumeAll (r : ResumeAll τ)
  | resumeN (r : ResumeN τ)
  | empty (e : Empty)
deriving DecidableEq, Repr

/-- The calls a task can make. -/
inductive Op
  | waitIf
  | resumeOne
  | resumeAll
  | resumeN (n : ℕ)
  | empty
deriving DecidableEq, Repr

/-- The scheduler's choice: a task outside the code makes a call; a task inside
steps, with `pred` for the predicate if the step evaluates it. -/
inductive Act
  | call (op : Op)
  | step (pred : Bool)
deriving DecidableEq, Repr

/-- The first place of a call. -/
def Op.enter : Op → Pc τ
  | .waitIf => .waitIf .fastPath
  | .resumeOne => .resumeOne .lock
  | .resumeAll => .resumeAll .lock
  | .resumeN n => .resumeN (.enter n)
  | .empty => .empty .lock

/-- One step of one task on the queue. -/
def next : Next τ Act (Queue τ) (Pc τ)
  | _, .call op, q, .idle => some (q, op.enter)
  | t, .step pred, q, .waitIf w =>
    (w.step t pred q).map fun r => (r.1, r.2.elim .idle .waitIf)
  | t, .step _, q, .resumeOne r =>
    (r.step t q).map fun r => (r.1, r.2.elim .resumeOne fun _ => .idle)
  | t, .step _, q, .resumeAll r =>
    (r.step t q).map fun r => (r.1, r.2.elim .idle .resumeAll)
  | t, .step _, q, .resumeN r =>
    (r.step t q).map fun r => (r.1, r.2.elim .resumeN fun _ => .idle)
  | t, .step _, q, .empty e =>
    (e.step t q).map fun r => (r.1, r.2.elim .empty fun _ => .idle)
  | _, _, _, _ => none

/-- Every task outside the code of a new queue. -/
def start (τ : Type*) : Config τ (Queue τ) (Pc τ) := ⟨Queue.init τ, fun _ => .idle⟩

end WaitQueue
end CoopSync
