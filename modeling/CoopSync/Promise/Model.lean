/-
# Promises and packaged tasks

`include/coopsync_tbb/future.hpp`: the objects that provide the result of a future.
A `promise` and a `packaged_task` refer to a shared state through a `shared_ptr`,
`m_state`.  They are constructed, moved, swapped, reset and destroyed, and what they
refer to is satisfied or broken on the way.

One operation on an object is one step here.  The calls on the shared state
(`set_value`, `set_exception`, `break_promise`), whose own steps `Future.Model` has,
are functions on what they leave behind: the status, and the tasks suspended in
`wait`, all of which they resume.  A shared state exists as long as an object or a
future refers to it; for the futures that refer to it there is a count.  What a
callable or a constructor does is the scheduler's choice; the operations that a
callable performs on other objects come before its call in the run.

A moved-from object is alive and refers to no state.  The two move assignments
differ: that of `packaged_task` is written out and breaks the state it lets go, that
of `promise` is defaulted and assigns the `shared_ptr`.
-/

import CoopSync.Future.Model

namespace CoopSync
namespace Promise

open Future

/-- The two classes of providers. -/
inductive Provider
  | promise
  | packagedTask
deriving DecidableEq, Repr

/-- The kinds of result types. -/
inductive ResultType
  | value
  | reference
  | void
deriving DecidableEq, Repr

/-- A living `promise` or `packaged_task`. -/
structure Object where
  provider : Provider
  result : ResultType
  /-- `m_state` -/
  state : Option ℕ
deriving DecidableEq, Repr

/-- A shared state between two operations. -/
structure State (τ : Type*) where
  status : Status
  futureObtained : Bool
  /-- how many futures refer to it -/
  futures : ℕ
  /-- the tasks suspended in `wait` -/
  waiters : List τ

/-- All objects, all shared states that were ever allocated, and how many. -/
structure World (τ : Type*) where
  objects : ℕ → Option Object
  states : ℕ → State τ
  allocated : ℕ

/-- A task. -/
inductive Task
  | running
  /-- suspended in `wait` on a shared state -/
  | waiting (s : ℕ)
deriving DecidableEq, Repr

variable {τ : Type*}

/-! ### Calls on the shared state -/

namespace State

def init (τ : Type*) : State τ := ⟨.empty, false, 0, []⟩

/-- The exchange that each call begins with succeeds on an empty state only; then the
final status is stored and the waiters are resumed. -/
def satisfy (s : State τ) (status : Status) : Except FutureErrc (State τ) :=
  if s.status = .empty then .ok { s with status := status, waiters := [] }
  else .error .promiseAlreadySatisfied

/-- `set_value`; `throws` if constructing the value throws. -/
def setValue (s : State τ) (throws : Bool) : Except FutureErrc (State τ) :=
  s.satisfy (if throws then .exception else .value)

/-- `set_exception` -/
def setException (s : State τ) : Except FutureErrc (State τ) := s.satisfy .exception

/-- `break_promise` -/
def breakPromise (s : State τ) : State τ :=
  if s.status = .empty then { s with status := .broken, waiters := [] } else s

/-- `packaged_task::operator()` on the shared state: `invoke_and_set`, and
`set_exception` with what that threw.  `callable` if the callable throws, `throws` if
constructing the value does. -/
def invoke (callable throws : Bool) (s : State τ) : Except FutureErrc (State τ) :=
  if callable then s.setException
  else
    match s.setValue throws with
    | .ok s' => .ok s'
    | .error _ => s.setException

/-- `mark_future_obtained` and the future that `get_future` returns. -/
def getFuture (s : State τ) : Except FutureErrc (State τ) :=
  if s.futureObtained then .error .futureAlreadyRetrieved
  else .ok { s with futureObtained := true, futures := s.futures + 1 }

end State

/-! ### Operations on the objects -/

/-- `ensure_valid`, and `valid()` -/
def Object.ensureValid (x : Object) : Except FutureErrc ℕ :=
  match x.state with
  | some s => .ok s
  | none => .error .noState

namespace World

def setObject (w : World τ) (o : ℕ) (x : Option Object) : World τ :=
  { w with objects := Function.update w.objects o x }

def setState (w : World τ) (s : ℕ) (st : State τ) : World τ :=
  { w with states := Function.update w.states s st }

/-- `std::make_shared<shared_state<T>>()`; its reference is `w.allocated`. -/
def makeShared (w : World τ) : World τ :=
  { w with states := Function.update w.states w.allocated (.init τ), allocated := w.allocated + 1 }

/-- `if (m_state) m_state->break_promise();` -/
def breakPromise (w : World τ) : Option ℕ → World τ
  | some s => w.setState s (w.states s).breakPromise
  | none => w

/-- `promise()` and `packaged_task(f)` -/
def construct (w : World τ) (o : ℕ) (provider : Provider) (result : ResultType) : World τ :=
  w.makeShared.setObject o (some ⟨provider, result, some w.allocated⟩)

/-- `promise(promise&&)` and `packaged_task(packaged_task&&)` -/
def moveConstruct (w : World τ) (o src : ℕ) (y : Object) : World τ :=
  (w.setObject src (some { y with state := none })).setObject o (some y)

/-- `promise& operator=(promise&&) = default` -/
def promiseMoveAssign (w : World τ) (o src : ℕ) (x y : Object) : World τ :=
  (w.setObject src (some { y with state := none })).setObject o (some { x with state := y.state })

/-- `packaged_task& operator=(packaged_task&&)` -/
def taskMoveAssign (w : World τ) (o src : ℕ) (x y : Object) : World τ :=
  if o = src then w
  else ((w.breakPromise x.state).setObject src (some { y with state := none })).setObject o
    (some { x with state := y.state })

/-- `swap` -/
def swap (w : World τ) (a b : ℕ) (x y : Object) : World τ :=
  (w.setObject a (some { x with state := y.state })).setObject b (some { y with state := x.state })

/-- `~promise_base()` and `~packaged_task()` -/
def destroy (w : World τ) (o : ℕ) (x : Object) : World τ :=
  (w.breakPromise x.state).setObject o none

/-- `packaged_task::reset` -/
def reset (w : World τ) (o : ℕ) (x : Object) : Except FutureErrc (World τ) :=
  match x.ensureValid with
  | .ok s =>
    .ok ((w.makeShared.breakPromise (some s)).setObject o
      (some { x with state := some w.allocated }))
  | .error errc => .error errc

/-- A call on the shared state of an object. -/
def onState (w : World τ) (x : Object) (f : State τ → Except FutureErrc (State τ)) :
    Except FutureErrc (World τ) :=
  match x.ensureValid with
  | .ok s => (f (w.states s)).map (w.setState s)
  | .error errc => .error errc

end World

/-- The operations.  Objects and states are named by numbers. -/
inductive Op
  | construct (o : ℕ) (provider : Provider) (result : ResultType)
  /-- `packaged_task()` -/
  | constructInvalid (o : ℕ) (result : ResultType)
  | moveConstruct (o src : ℕ)
  | moveAssign (o src : ℕ)
  | swap (a b : ℕ)
  | getFuture (o : ℕ)
  | setValue (o : ℕ) (throws : Bool)
  | setException (o : ℕ)
  /-- `operator()` -/
  | invoke (o : ℕ) (callable throws : Bool)
  | reset (o : ℕ)
  | destroy (o : ℕ)
  /-- a future is copied -/
  | copyFuture (s : ℕ)
  /-- a future that nobody waits on is destroyed, reset or assigned to -/
  | dropFuture (s : ℕ)
  /-- a future is waited on -/
  | wait (s : ℕ)
  /-- the suspended task continues -/
  | continue
deriving DecidableEq, Repr

variable [DecidableEq τ]

/-- An operation of a running task: `none` if the program cannot perform it (the object
is not alive or not of the right type), an error if the operation throws. -/
def Op.run (w : World τ) : Op → Option (Except FutureErrc (World τ))
  | .construct o provider result =>
    if w.objects o = none then some (.ok (w.construct o provider result)) else none
  | .constructInvalid o result =>
    if w.objects o = none then some (.ok (w.setObject o (some ⟨.packagedTask, result, none⟩)))
    else none
  | .moveConstruct o src =>
    match w.objects o, w.objects src with
    | none, some y => some (.ok (w.moveConstruct o src y))
    | _, _ => none
  | .moveAssign o src =>
    match w.objects o, w.objects src with
    | some x, some y =>
      if x.provider = y.provider ∧ x.result = y.result then
        match x.provider with
        | .promise => some (.ok (w.promiseMoveAssign o src x y))
        | .packagedTask => some (.ok (w.taskMoveAssign o src x y))
      else none
    | _, _ => none
  | .swap a b =>
    match w.objects a, w.objects b with
    | some x, some y =>
      if x.provider = y.provider ∧ x.result = y.result then some (.ok (w.swap a b x y)) else none
    | _, _ => none
  | .getFuture o => (w.objects o).map fun x => w.onState x State.getFuture
  | .setValue o throws =>
    match w.objects o with
    | some x =>
      if x.provider = .promise ∧ (throws = true → x.result = .value) then
        some (w.onState x fun s => s.setValue throws)
      else none
    | none => none
  | .setException o =>
    match w.objects o with
    | some x => if x.provider = .promise then some (w.onState x State.setException) else none
    | none => none
  | .invoke o callable throws =>
    match w.objects o with
    | some x =>
      if x.provider = .packagedTask ∧ (throws = true → x.result = .value) then
        some (w.onState x (State.invoke callable throws))
      else none
    | none => none
  | .reset o =>
    match w.objects o with
    | some x => if x.provider = .packagedTask then some (w.reset o x) else none
    | none => none
  | .destroy o => (w.objects o).map fun x => .ok (w.destroy o x)
  | .copyFuture s =>
    let st := w.states s
    if 0 < st.futures then some (.ok (w.setState s { st with futures := st.futures + 1 })) else none
  | .dropFuture s =>
    let st := w.states s
    if 0 < st.futures ∧ (st.futures = 1 → st.waiters = []) then
      some (.ok (w.setState s { st with futures := st.futures - 1 }))
    else none
  | .wait _ | .continue => none

/-- One step of one task.  An operation that throws leaves everything as it was. -/
def next : Next τ Op (World τ) Task
  | t, .wait s, w, .running =>
    if 0 < (w.states s).futures then
      if (w.states s).status.ready then some (w, .running)
      else
        some (w.setState s { w.states s with waiters := (w.states s).waiters ++ [t] }, .waiting s)
    else none
  | t, .continue, w, .waiting s => if t ∈ (w.states s).waiters then none else some (w, .running)
  | _, op, w, .running =>
    (op.run w).map fun r =>
      match r with
      | .ok w' => (w', .running)
      | .error _ => (w, .running)
  | _, _, _, _ => none

/-- No object, no shared state, and every task running. -/
def start (τ : Type*) : Config τ (World τ) Task :=
  ⟨⟨fun _ => none, fun _ => .init τ, 0⟩, fun _ => .running⟩

end Promise
end CoopSync
