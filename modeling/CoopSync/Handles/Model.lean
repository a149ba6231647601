/-
# Handles on shared states

`include/coopsync_tbb/future.hpp`: the four classes that refer to a shared state.
`promise` and `packaged_task` provide its result, `future` and `shared_future` consume
it.  They are constructed, moved, swapped, copied, converted and destroyed, and what they
refer to is satisfied, waited for and read on the way.

All handles are of one result type, which a `Future.Variant` describes.  One operation is
one step, but for those in which something else may happen meanwhile: `wait` and `get`
wait until the state is ready, `future::get` resets the handle after it has read the slot,
and `operator()` runs the callable.  Calls on one handle are not concurrent, so an
operation needs handles with no call running on them; operations on other handles come in
between, those of the callable included.  The calls on the shared state (`set_value`,
`set_exception`, `break_promise`), whose own steps `Future.Model` has, are functions on
what they leave behind.

Whether the construction of a `T` throws, and what a callable does, is the scheduler's
choice; moving a `T` out of the slot does not throw.
-/

import CoopSync.Future.Model

namespace CoopSync
namespace Handles

open Future

/-- The four class templates. -/
inductive Kind
  | promise
  | packagedTask
  | future
  | sharedFuture
deriving DecidableEq, Repr

/-- `promise` and `packaged_task` -/
def Kind.provides : Kind → Bool
  | .promise | .packagedTask => true
  | .future | .sharedFuture => false

/-- `future` and `shared_future` -/
def Kind.consumes (k : Kind) : Bool := !k.provides

/-- The place of a call that takes more than one step. -/
inductive Running
  /-- `m_state->wait()` in `wait()` -/
  | wait
  /-- `m_state->wait()` in `get()` -/
  | get
  /-- `this->reset()` in `future::get()` -/
  | reset
  /-- the callable in `operator()` -/
  | callable
deriving DecidableEq, Repr

/-- What is thrown, and stored. -/
inductive Exception (ε : Type*)
  /-- by a callable or a constructor -/
  | user (e : ε)
  | futureError (errc : FutureErrc)
  /-- `std::bad_function_call` -/
  | badFunctionCall
deriving DecidableEq, Repr

/-- A living handle, the call running on it, and whether a `get` on it has ended since a
state was last moved in. -/
structure Object (κ : Type*) where
  kind : Kind
  /-- `m_state` -/
  state : Option ℕ
  /-- `m_function` of a `packaged_task` -/
  function : Option κ
  running : Option Running
  spent : Bool
deriving DecidableEq, Repr

/-- `shared_state` between two calls, with its outcome once it has one, whether a
`future::get` has moved the value out, how often a callable was run for it, and how many
calls of `future::get` on it have ended. -/
structure State (ν σ ε : Type*) where
  /-- `state` -/
  status : Status
  futureObtained : Bool
  value : σ
  exception : Option (Exception ε)
  outcome : Option (Outcome ν (Exception ε))
  taken : Bool
  runs : ℕ
  delivered : ℕ

/-- What a `get` on a shared state has reported; `none` if it has read a slot without a
value or a null exception. -/
structure Report (ν ε : Type*) where
  kind : Kind
  state : ℕ
  outcome : Option (Outcome ν (Exception ε))
deriving DecidableEq, Repr

/-- What a callable does: it returns a value, whose construction in the slot may throw, or
it throws. -/
inductive Result (ν ε : Type*)
  | returns (v : ν) (throws : Option ε)
  | throws (e : ε)
deriving DecidableEq, Repr

/-- Constructing the value that the callable returned throws. -/
def Result.interrupted {ν ε : Type*} : Result ν ε → Bool
  | .returns _ thrown => thrown.isSome
  | .throws _ => false

/-- All handles, all shared states that were ever allocated and how many, and what every
`get` has reported. -/
structure World (κ ν σ ε : Type*) where
  objects : ℕ → Option (Object κ)
  states : ℕ → State ν σ ε
  allocated : ℕ
  reports : List (Report ν ε)

variable {κ ν σ ε : Type*} (V : Variant ν σ)

/-! ### Calls on the shared state -/

namespace State

def init : State ν σ ε := ⟨.empty, false, V.init, none, none, false, 0, 0⟩

/-- The slot once a value has been constructed in it. -/
def emplace (v : ν) (s : State ν σ ε) : σ := V.mark.getD id (V.construct v s.value)

variable {V}

/-- `set_exception` -/
def setException (e : Exception ε) (s : State ν σ ε) : Except FutureErrc (State ν σ ε) :=
  if s.status = .empty then
    .ok { s with status := .exception, exception := some e, outcome := some (.exception e) }
  else .error .promiseAlreadySatisfied

variable (V) in
/-- `set_value`; `throws` if constructing the value throws, which is stored. -/
def setValue (v : ν) (throws : Option ε) (s : State ν σ ε) : Except FutureErrc (State ν σ ε) :=
  match throws with
  | some e => s.setException (.user e)
  | none =>
    if s.status = .empty then
      .ok { s with status := .value, value := s.emplace V v, outcome := some (.value v) }
    else .error .promiseAlreadySatisfied

/-- `break_promise` -/
def breakPromise (s : State ν σ ε) : State ν σ ε :=
  if s.status = .empty then { s with status := .broken, outcome := some .broken } else s

variable (V) in
/-- `operator()` after the callable: `invoke_and_set`, and `set_exception` with what that
threw. -/
def finish (r : Result ν ε) (s : State ν σ ε) : Except FutureErrc (State ν σ ε) :=
  match r with
  | .throws e => s.setException (.user e)
  | .returns v throws =>
    match s.setValue V v throws with
    | .ok s' => .ok s'
    | .error errc => s.setException (.futureError errc)

/-- `mark_future_obtained`, and the same exchange in `packaged_task::get_future` -/
def markFutureObtained (s : State ν σ ε) : Except FutureErrc (State ν σ ε) :=
  if s.futureObtained then .error .futureAlreadyRetrieved
  else .ok { s with futureObtained := true }

variable (V) in
/-- `throw_if_exception_or_broken` and the read of the slot, in a ready state. -/
def report (s : State ν σ ε) : Option (Outcome ν (Exception ε)) :=
  match s.status with
  | .exception => s.exception.map .exception
  | .broken => some .broken
  | _ => (V.read s.value).map .value

end State

/-! ### Operations on the handles -/

namespace World

def setObject (w : World κ ν σ ε) (o : ℕ) (x : Option (Object κ)) : World κ ν σ ε :=
  { w with objects := Function.update w.objects o x }

def setState (w : World κ ν σ ε) (s : ℕ) (st : State ν σ ε) : World κ ν σ ε :=
  { w with states := Function.update w.states s st }

/-- `std::make_shared<shared_state<T>>()`; its reference is `w.allocated`. -/
def makeShared (w : World κ ν σ ε) : World κ ν σ ε :=
  { w with
    states := Function.update w.states w.allocated (.init V)
    allocated := w.allocated + 1 }

/-- `if (m_state) m_state->break_promise();` -/
def breakPromise (w : World κ ν σ ε) : Option ℕ → World κ ν σ ε
  | some s => w.setState s (w.states s).breakPromise
  | none => w

/-- A handle with no call running on it. -/
def idle (w : World κ ν σ ε) (o : ℕ) : Option (Object κ) :=
  (w.objects o).filter fun x => x.running = none

/-- `promise()`, and `packaged_task(f)` with a callable -/
def construct (w : World κ ν σ ε) (o : ℕ) (k : Kind) (f : Option κ) : World κ ν σ ε :=
  (w.makeShared V).setObject o (some ⟨k, some w.allocated, f, none, false⟩)

/-- The move constructors. -/
def moveConstruct (w : World κ ν σ ε) (o src : ℕ) (y : Object κ) : World κ ν σ ε :=
  (w.setObject src (some { y with state := none, function := none })).setObject o
    (some { y with spent := false })

/-- The move assignments; that of `packaged_task` breaks the state it lets go, the others
are defaulted. -/
def moveAssign (w : World κ ν σ ε) (o src : ℕ) (x y : Object κ) : World κ ν σ ε :=
  if o = src then w
  else
    let w := if x.kind = .packagedTask then w.breakPromise x.state else w
    (w.setObject src (some { y with state := none, function := none })).setObject o
      (some { x with state := y.state, function := y.function, spent := x.spent && y.state.isNone })

/-- `shared_future(const shared_future&)` -/
def copyConstruct (w : World κ ν σ ε) (o : ℕ) (y : Object κ) : World κ ν σ ε :=
  w.setObject o (some y)

/-- `shared_future& operator=(const shared_future&)` -/
def copyAssign (w : World κ ν σ ε) (o : ℕ) (x y : Object κ) : World κ ν σ ε :=
  w.setObject o (some { x with state := y.state })

/-- `swap` -/
def swap (w : World κ ν σ ε) (a b : ℕ) (x y : Object κ) : World κ ν σ ε :=
  (w.setObject a (some { x with state := y.state, function := y.function })).setObject b
    (some { y with state := x.state, function := x.function })

/-- `get_future`: the future is `dst`. -/
def getFuture (w : World κ ν σ ε) (dst s : ℕ) (st : State ν σ ε) : World κ ν σ ε :=
  (w.setState s st).setObject dst (some ⟨.future, some s, none, none, false⟩)

/-- `future::share`: the `shared_future` is `dst`. -/
def share (w : World κ ν σ ε) (o dst : ℕ) (x : Object κ) : World κ ν σ ε :=
  (w.setObject o (some { x with state := none })).setObject dst
    (some ⟨.sharedFuture, x.state, none, none, false⟩)

/-- `packaged_task::reset` -/
def reset (w : World κ ν σ ε) (o : ℕ) (x : Object κ) : World κ ν σ ε :=
  ((w.makeShared V).breakPromise x.state).setObject o (some { x with state := some w.allocated })

/-- The destructors; those of `promise_base` and `packaged_task` break the promise. -/
def destroy (w : World κ ν σ ε) (o : ℕ) (x : Object κ) : World κ ν σ ε :=
  (if x.kind.provides then w.breakPromise x.state else w).setObject o none

/-- A call on a handle goes on to `r`. -/
def run (w : World κ ν σ ε) (o : ℕ) (x : Object κ) (r : Option Running) : World κ ν σ ε :=
  w.setObject o (some { x with running := r })

/-- `operator()` calls the callable. -/
def invoke (w : World κ ν σ ε) (o s : ℕ) (x : Object κ) : World κ ν σ ε :=
  (w.setState s { w.states s with runs := (w.states s).runs + 1 }).run o x (some .callable)

/-- A `get` reports. -/
def report (w : World κ ν σ ε) (x : Object κ) (s : ℕ) : World κ ν σ ε :=
  { w with reports := w.reports ++ [⟨x.kind, s, (w.states s).report V⟩] }

/-- `shared_future::get` returns, or throws. -/
def endShared (w : World κ ν σ ε) (o s : ℕ) (x : Object κ) : World κ ν σ ε :=
  (w.report V x s).run o x none

/-- `future::get` ends, and leaves the handle with `state`. -/
def endGet (w : World κ ν σ ε) (o s : ℕ) (x : Object κ) (state : Option ℕ) : World κ ν σ ε :=
  (w.setState s { w.states s with delivered := (w.states s).delivered + 1 }).setObject o
    (some { x with state := state, running := none, spent := true })

/-- `future::get` throws what is stored, or `broken_promise`. -/
def throwStored (w : World κ ν σ ε) (o s : ℕ) (x : Object κ) : World κ ν σ ε :=
  (w.report V x s).endGet o s x x.state

/-- `future::get` moves the value out. -/
def take (w : World κ ν σ ε) (o s : ℕ) (x : Object κ) : World κ ν σ ε :=
  ((w.report V x s).setState s
    { w.states s with value := V.take (w.states s).value, taken := true }).run o x (some .reset)

/-- A call on the shared state of a provider ends. -/
def endCall (w : World κ ν σ ε) (o s : ℕ) (x : Object κ) (r : Except FutureErrc (State ν σ ε)) :
    World κ ν σ ε × Option FutureErrc :=
  match r with
  | .ok st => ((w.setState s st).run o x none, none)
  | .error errc => (w.run o x none, some errc)

end World

/-- The operations.  Handles are named by numbers. -/
inductive Op (κ ν ε : Type*)
  /-- `promise()` -/
  | promise (o : ℕ)
  /-- `packaged_task(f)` -/
  | packagedTask (o : ℕ) (f : κ)
  /-- `packaged_task()`, `future()`, `shared_future()` -/
  | constructInvalid (o : ℕ) (k : Kind)
  | moveConstruct (o src : ℕ)
  | moveAssign (o src : ℕ)
  | copyConstruct (o src : ℕ)
  | copyAssign (o src : ℕ)
  | swap (a b : ℕ)
  | getFuture (o dst : ℕ)
  | setValue (o : ℕ) (v : ν) (throws : Option ε)
  | setException (o : ℕ) (e : ε)
  /-- `operator()` -/
  | invoke (o : ℕ)
  /-- the callable that `o` runs returns or throws -/
  | finish (o : ℕ) (r : Result ν ε)
  | reset (o : ℕ)
  | share (o dst : ℕ)
  | tryWait (o : ℕ)
  | wait (o : ℕ)
  | get (o : ℕ)
  /-- the `wait` or `get` running on `o` continues -/
  | continue (o : ℕ)
  | destroy (o : ℕ)
deriving DecidableEq, Repr

/-- An operation, with what it throws; `none` if the program cannot perform it (a handle
is not alive, not of the right class, or has a call running on it). -/
def Op.run (w : World κ ν σ ε) : Op κ ν ε → Option (World κ ν σ ε × Option FutureErrc)
  | .promise o =>
    if w.objects o = none then some (w.construct V o .promise none, none) else none
  | .packagedTask o f =>
    if w.objects o = none then some (w.construct V o .packagedTask (some f), none) else none
  | .constructInvalid o k =>
    if w.objects o = none ∧ k ≠ .promise then
      some (w.setObject o (some ⟨k, none, none, none, false⟩), none)
    else none
  | .moveConstruct o src =>
    match w.objects o, w.idle src with
    | none, some y => some (w.moveConstruct o src y, none)
    | _, _ => none
  | .moveAssign o src =>
    match w.idle o, w.idle src with
    | some x, some y => if x.kind = y.kind then some (w.moveAssign o src x y, none) else none
    | _, _ => none
  | .copyConstruct o src =>
    match w.objects o, w.idle src with
    | none, some y =>
      if y.kind = .sharedFuture then some (w.copyConstruct o y, none) else none
    | _, _ => none
  | .copyAssign o src =>
    match w.idle o, w.idle src with
    | some x, some y =>
      if x.kind = .sharedFuture ∧ y.kind = .sharedFuture then some (w.copyAssign o x y, none)
      else none
    | _, _ => none
  | .swap a b =>
    match w.idle a, w.idle b with
    | some x, some y =>
      if x.kind = y.kind ∧ x.kind.provides then some (w.swap a b x y, none) else none
    | _, _ => none
  | .getFuture o dst =>
    match w.idle o, w.objects dst with
    | some x, none =>
      if x.kind.provides then
        match x.state with
        | none => some (w, some .noState)
        | some s =>
          match (w.states s).markFutureObtained with
          | .ok st => some (w.getFuture dst s st, none)
          | .error errc => some (w, some errc)
      else none
    | _, _ => none
  | .setValue o v throws =>
    match w.idle o with
    | some x =>
      if x.kind = .promise ∧ (throws.isSome → V.throws) then
        match x.state with
        | none => some (w, some .noState)
        | some s => some (w.endCall o s x ((w.states s).setValue V v throws))
      else none
    | none => none
  | .setException o e =>
    match w.idle o with
    | some x =>
      if x.kind = .promise then
        match x.state with
        | none => some (w, some .noState)
        | some s => some (w.endCall o s x ((w.states s).setException (.user e)))
      else none
    | none => none
  | .invoke o =>
    match w.idle o with
    | some x =>
      if x.kind = .packagedTask then
        match x.state, x.function with
        | none, _ => some (w, some .noState)
        | some s, none => some (w.endCall o s x ((w.states s).setException .badFunctionCall))
        | some s, some _ => some (w.invoke o s x, none)
      else none
    | none => none
  | .finish o r =>
    match w.objects o with
    | some x =>
      match x.running, x.state with
      | some .callable, some s =>
        if r.interrupted → V.throws then some (w.endCall o s x ((w.states s).finish V r))
        else none
      | _, _ => none
    | none => none
  | .reset o =>
    match w.idle o with
    | some x =>
      if x.kind = .packagedTask then
        match x.state with
        | none => some (w, some .noState)
        | some _ => some (w.reset V o x, none)
      else none
    | none => none
  | .share o dst =>
    match w.idle o, w.objects dst with
    | some x, none =>
      if x.kind = .future then
        match x.state with
        | none => some (w, some .noState)
        | some _ => some (w.share o dst x, none)
      else none
    | _, _ => none
  | .tryWait o =>
    match w.idle o with
    | some x =>
      if x.kind.consumes then
        match x.state with
        | none => some (w, some .noState)
        | some _ => some (w, none)
      else none
    | none => none
  | .wait o =>
    match w.idle o with
    | some x =>
      if x.kind.consumes then
        match x.state with
        | none => some (w, some .noState)
        | some _ => some (w.run o x (some .wait), none)
      else none
    | none => none
  | .get o =>
    match w.idle o with
    | some x =>
      if x.kind.consumes then
        match x.state with
        | none => some (w, some .noState)
        | some _ => some (w.run o x (some .get), none)
      else none
    | none => none
  | .continue o =>
    match w.objects o with
    | some x =>
      match x.running, x.state with
      | some .wait, some s =>
        if (w.states s).status.ready then some (w.run o x none, none) else none
      | some .get, some s =>
        if (w.states s).status.ready then
          if x.kind = .future then
            if (w.states s).status = .value then some (w.take V o s x, none)
            else some (w.throwStored V o s x, none)
          else some (w.endShared V o s x, none)
        else none
      | some .reset, some s => some (w.endGet o s x none, none)
      | _, _ => none
    | none => none
  | .destroy o => (w.idle o).map fun x => (w.destroy o x, none)

/-- One operation of one task. -/
def next {τ : Type*} : Next τ (Op κ ν ε) (World κ ν σ ε) Unit
  | _, op, w, () => (op.run V w).map fun r => (r.1, ())

/-- No handle and no shared state. -/
def start (τ κ ε : Type*) : Config τ (World κ ν σ ε) Unit :=
  ⟨⟨fun _ => none, fun _ => .init V, 0, []⟩, fun _ => ()⟩

end Handles
end CoopSync
