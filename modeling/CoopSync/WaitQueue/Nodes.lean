/-
# The nodes of a wait queue

`WaitQueue.Model` keeps `m_waiters` and the local lists of the resumers as lists of suspend
points.  Here they are what they are in the source: pointers to nodes that are linked
through their next pointers, each of them a local variable of a call of `wait_if`.

A node is constructed at any address that is no node at the time, and is gone when the
call returns; what is at an address that is no node can be written by anybody
(`Act.reuse`).  So a task that is resumed may come back with a new node at the address of
the one it had.  A step whose assertion fails, or that resumes through a null suspend
point, has no result.

The note of a task is that of `WaitQueue.Fifo`.  What it finds queued are the suspensions
that have been pushed and not taken, in the order of the pushes; no step reads this.
-/

import CoopSync.IntrusiveList.Model
import CoopSync.WaitQueue.Fifo

namespace CoopSync
namespace WaitQueue
namespace Nodes

open IntrusiveList

/-- `class wait_queue`, the storage for nodes, and what the runtime knows of its tasks. -/
structure Queue (τ α : Type*) where
  /-- `m_waiters_mutex`: the task in the critical section. -/
  waitersMutex : Option τ
  /-- `m_waiters` -/
  waiters : IntrusiveList α
  /-- What is at an address, read as a node. -/
  heap : Heap α (Option (SuspendPoint τ))
  /-- The task whose call of `wait_if` has its node at the address. -/
  frame : α → Option τ
  /-- The arguments `tbb::task::resume` was called with, latest first. -/
  resumed : List (SuspendPoint τ)
  /-- How often each task has called `tbb::task::suspend`. -/
  suspends : τ → ℕ
  /-- The suspensions that have been pushed and not taken, in the order of the pushes. -/
  queued : List (SuspendPoint τ)

/-- Where a task stands in `wait_if`, with the address of its node. -/
inductive WaitIf (τ α : Type*)
  /-- `if (!pred()) return;` -/
  | fastPath
  /-- `auto node = node{}` -/
  | construct
  /-- `tbb::task::suspend` -/
  | suspend (node : α)
  /-- the callback takes `m_waiters_mutex` -/
  | lock (node : α) (sp : SuspendPoint τ)
  /-- `if (captured_pred.value())` -/
  | recheck (node : α) (sp : SuspendPoint τ)
  /-- `node.value = sp` -/
  | setValue (node : α) (sp : SuspendPoint τ)
  /-- `m_waiters.push_back(node)` -/
  | pushBack (node : α) (sp : SuspendPoint τ)
  /-- the lock is released on the way out of the callback -/
  | unlockQueued (node : α) (sp : SuspendPoint τ)
  /-- the lock is released after a re-check that came out false -/
  | unlockResume (node : α) (sp : SuspendPoint τ)
  /-- `tbb::task::resume(sp)` by the callback itself -/
  | resume (node : α) (sp : SuspendPoint τ)
  /-- suspended by a callback that pushed -/
  | queued (node : α) (sp : SuspendPoint τ)
  /-- suspended by a callback that resumed the task itself -/
  | selfResumed (node : α) (sp : SuspendPoint τ)
deriving DecidableEq, Repr

/-- Where a task stands in `resume_one`. -/
inductive ResumeOne (α : Type*)
  | lock
  /-- `waiter = m_waiters.pop_front()` -/
  | popFront
  | unlock (waiter : Option α)
  /-- `tbb::task::resume(waiter->value)` -/
  | resume (waiter : α)
deriving DecidableEq, Repr

/-- Where a task stands in `do_resume_all`, with its local list. -/
inductive DoResumeAll (α : Type*)
  /-- `while (waiter = waiters_to_resume.pop_front())` -/
  | popFront (waitersToResume : IntrusiveList α)
  /-- `tbb::task::resume(waiter->value)` -/
  | resume (waiter : α) (waitersToResume : IntrusiveList α)
deriving DecidableEq, Repr

/-- Where a task stands in `resume_all`. -/
inductive ResumeAll (α : Type*)
  | lock
  /-- `waiters_to_resume.swap(m_waiters)` and the assertion after it -/
  | swap
  | unlock (waitersToResume : IntrusiveList α)
  | doResumeAll (d : DoResumeAll α)
deriving DecidableEq, Repr

/-- Where a task stands in `resume_n(n)`; `resumed` is the local counter. -/
inductive ResumeN (α : Type*)
  /-- `if (n == 0) return 0;` -/
  | enter (n : ℕ)
  | lock (n : ℕ)
  /-- `while (resumed < n)` with `m_waiters.pop_front()` -/
  | popFront (n resumed : ℕ) (waitersToResume : IntrusiveList α)
  /-- `waiters_to_resume.push_back(*waiter)` -/
  | pushBack (n resumed : ℕ) (waitersToResume : IntrusiveList α) (waiter : α)
  | unlock (resumed : ℕ) (waitersToResume : IntrusiveList α)
  | doResumeAll (resumed : ℕ) (d : DoResumeAll α)
deriving DecidableEq, Repr

/-- Where a task stands in the code of the queue. -/
inductive Pc (τ α : Type*)
  | idle
  | waitIf (w : WaitIf τ α)
  | resumeOne (r : ResumeOne α)
  | resumeAll (r : ResumeAll α)
  | resumeN (r : ResumeN α)
  | empty (e : Empty)
deriving DecidableEq, Repr

variable {τ α : Type*}

/-- `m_waiters_mutex.lock()`: possible only while the lock is free. -/
def Queue.acquire (s : Queue τ α) (t : τ) : Option (Queue τ α) :=
  if s.waitersMutex.isNone then some { s with waitersMutex := some t } else none

/-- `m_waiters_mutex.unlock()` -/
def Queue.release (s : Queue τ α) : Queue τ α := { s with waitersMutex := none }

/-- `tbb::task::resume` -/
def Queue.resume (s : Queue τ α) (sp : SuspendPoint τ) : Queue τ α :=
  { s with resumed := sp :: s.resumed }

/-- `empty` -/
def emptyStep (t : τ) (s : Queue τ α) : Empty → Option (Queue τ α × (Empty ⊕ Value))
  | .lock => (s.acquire t).map fun s => (s, .inl .read)
  | .read => (s.waiters.empty s.heap).map fun b => (s, .inl (.unlock b))
  | .unlock result => some (s.release, .inr (.bool result))

variable [DecidableEq τ] [DecidableEq α]

/-- `m_waiters.push_back(node)`, where the node has the value `sp` -/
def Queue.pushBack (s : Queue τ α) (node : α) (sp : SuspendPoint τ) : Option (Queue τ α) :=
  (s.waiters.pushBack s.heap node).map fun r =>
    { s with heap := r.1, waiters := r.2, queued := s.queued ++ [sp] }

/-- `m_waiters.pop_front()` -/
def Queue.popFront (s : Queue τ α) : Option (Queue τ α × Option α) :=
  (s.waiters.popFront s.heap).map fun r =>
    ({ s with
      heap := r.1
      waiters := r.2.1
      queued := (r.2.2.bind fun node => (s.heap node).value).elim s.queued s.queued.erase }, r.2.2)

/-- `wait_if`, where `pred` is what the predicate evaluates to if this step evaluates it,
and `address` where the node is if this step constructs it. -/
def WaitIf.step (t : τ) (pred : Bool) (address : α) (s : Queue τ α) :
    WaitIf τ α → Option (Queue τ α × (WaitIf τ α ⊕ Value))
  | .fastPath => some (s, if pred then .inl .construct else .inr .void)
  | .construct =>
    if (s.frame address).isNone then
      some ({ s with
        heap := Function.update s.heap address { value := none }
        frame := Function.update s.frame address (some t) }, .inl (.suspend address))
    else none
  | .suspend node =>
    some ({ s with suspends := Function.update s.suspends t (s.suspends t + 1) },
      .inl (.lock node ⟨t, s.suspends t⟩))
  | .lock node sp => (s.acquire t).map fun s => (s, .inl (.recheck node sp))
  | .recheck node sp => some (s, .inl (if pred then .setValue node sp else .unlockResume node sp))
  | .setValue node sp =>
    some ({ s with heap := Function.update s.heap node { s.heap node with value := some sp } },
      .inl (.pushBack node sp))
  | .pushBack node sp => (s.pushBack node sp).map fun s => (s, .inl (.unlockQueued node sp))
  | .unlockQueued node sp => some (s.release, .inl (.queued node sp))
  | .unlockResume node sp => some (s.release, .inl (.resume node sp))
  | .resume node sp => some (s.resume sp, .inl (.selfResumed node sp))
  | .queued node sp | .selfResumed node sp =>
    if sp ∈ s.resumed then
      some ({ s with frame := Function.update s.frame node none }, .inr .void)
    else none

/-- `resume_one` -/
def ResumeOne.step (t : τ) (s : Queue τ α) :
    ResumeOne α → Option (Queue τ α × (ResumeOne α ⊕ Value))
  | .lock => (s.acquire t).map fun s => (s, .inl .popFront)
  | .popFront => s.popFront.map fun r => (r.1, .inl (.unlock r.2))
  | .unlock (some waiter) => some (s.release, .inl (.resume waiter))
  | .unlock none => some (s.release, .inr (.bool false))
  | .resume waiter => (s.heap waiter).value.map fun sp => (s.resume sp, .inr (.bool true))

/-- `do_resume_all` -/
def DoResumeAll.step (s : Queue τ α) :
    DoResumeAll α → Option (Queue τ α × Option (DoResumeAll α))
  | .popFront l => (l.popFront s.heap).map fun r =>
      ({ s with heap := r.1 }, r.2.2.map fun waiter => .resume waiter r.2.1)
  | .resume waiter l => (s.heap waiter).value.map fun sp => (s.resume sp, some (.popFront l))

/-- `resume_all` -/
def ResumeAll.step (t : τ) (s : Queue τ α) :
    ResumeAll α → Option (Queue τ α × (ResumeAll α ⊕ Value))
  | .lock => (s.acquire t).map fun s => (s, .inl .swap)
  | .swap =>
    let r := IntrusiveList.swap {} s.waiters
    if r.2.empty s.heap = some true then
      some ({ s with waiters := r.2, queued := [] }, .inl (.unlock r.1))
    else none
  | .unlock l => some (s.release, .inl (.doResumeAll (.popFront l)))
  | .doResumeAll d => (d.step s).map fun r =>
      (r.1, r.2.elim (.inr .void) fun d => .inl (.doResumeAll d))

/-- `resume_n` -/
def ResumeN.step (t : τ) (s : Queue τ α) :
    ResumeN α → Option (Queue τ α × (ResumeN α ⊕ Value))
  | .enter n => some (s, if n = 0 then .inr (.count 0) else .inl (.lock n))
  | .lock n => (s.acquire t).map fun s => (s, .inl (.popFront n 0 {}))
  | .popFront n resumed l =>
    if resumed < n then s.popFront.map fun r =>
      (r.1, .inl (r.2.elim (.unlock resumed l) (.pushBack n resumed l)))
    else some (s, .inl (.unlock resumed l))
  | .pushBack n resumed l waiter => (l.pushBack s.heap waiter).map fun r =>
      ({ s with heap := r.1 }, .inl (.popFront n (resumed + 1) r.2))
  | .unlock resumed l => some (s.release, .inl (.doResumeAll resumed (.popFront l)))
  | .doResumeAll resumed d => (d.step s).map fun r =>
      (r.1, r.2.elim (.inr (.count resumed)) fun d => .inl (.doResumeAll resumed d))

/-- One step of a task inside the code. -/
def Pc.step (t : τ) (pred : Bool) (address : α) (s : Queue τ α) :
    Pc τ α → Option (Queue τ α × (Pc τ α ⊕ Value))
  | .idle => none
  | .waitIf w => (w.step t pred address s).map fun r => (r.1, r.2.map .waitIf id)
  | .resumeOne w => (w.step t s).map fun r => (r.1, r.2.map .resumeOne id)
  | .resumeAll w => (w.step t s).map fun r => (r.1, r.2.map .resumeAll id)
  | .resumeN w => (w.step t s).map fun r => (r.1, r.2.map .resumeN id)
  | .empty e => (emptyStep t s e).map fun r => (r.1, r.2.map .empty id)

/-! ### Any number of tasks on one queue -/

/-- The first place of a call. -/
def enter : Op → Pc τ α
  | .waitIf => .waitIf .fastPath
  | .resumeOne => .resumeOne .lock
  | .resumeAll => .resumeAll .lock
  | .resumeN n => .resumeN (.enter n)
  | .empty => .empty .lock

/-- What the next step finds queued if it enters the critical section of a resumer. -/
def Pc.snapshot (queued : List (SuspendPoint τ)) : Pc τ α → Option (List (SuspendPoint τ))
  | .resumeOne .lock | .resumeAll .lock | .resumeN (.lock _) => some queued
  | _ => none

/-- The node whose task the next step of a resumer resumes. -/
def Pc.resumes : Pc τ α → Option α
  | .resumeOne (.resume waiter) | .resumeAll (.doResumeAll (.resume waiter _))
  | .resumeN (.doResumeAll _ (.resume waiter _)) => some waiter
  | _ => none

/-- The scheduler's choice: a task outside the code makes a call or writes to an address
that is no node; a task inside steps. -/
inductive Act (τ α : Type*)
  | call (op : Op)
  | reuse (address : α) (content : Node α (Option (SuspendPoint τ)))
  | step (pred : Bool) (address : α)
deriving DecidableEq, Repr

/-- One step of one task. -/
def next : Next τ (Act τ α) (Queue τ α) (Noted τ (Pc τ α))
  | _, .call op, s, l => if l.pc = .idle then some (s, l.call op (enter op)) else none
  | _, .reuse address content, s, l =>
    if l.pc = .idle ∧ (s.frame address).isNone then
      some ({ s with heap := Function.update s.heap address content }, l)
    else none
  | t, .step pred address, s, l =>
    (l.pc.step t pred address s).map fun r =>
      (r.1, (l.note (l.pc.snapshot s.queued)
        (l.pc.resumes.bind fun waiter => (s.heap waiter).value)).goOn .idle r.2)

/-- Every task outside the code of a new queue, with anything in the storage. -/
def start (heap : Heap α (Option (SuspendPoint τ))) :
    Config τ (Queue τ α) (Noted τ (Pc τ α)) :=
  ⟨⟨none, {}, heap, fun _ => none, [], fun _ => 0, []⟩, fun _ => ⟨.idle, .empty, [], [], []⟩⟩

end Nodes
end WaitQueue
end CoopSync
