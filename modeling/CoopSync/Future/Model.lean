/-
# The shared state of futures and promises

`include/coopsync_tbb/future.hpp`: `detail::future::shared_state_base`, its three
variants `shared_state<T>`, `shared_state<T&>` and `shared_state<void>`, and the
`get` of `future` and `shared_future`.

`set_value`, `set_exception` and `break_promise` exchange `status::empty` for
another status and go on only if the exchange succeeds.  `set_exception` and the
`set_value` of `T` and `T&` exchange it for `status::transition`, write the slot or
the exception and store the final status; `set_value` of `void` and `break_promise`
have nothing to write and exchange it for the final status.  All of them then call
`waiters.resume_all()`.  `get` waits until the status is final, reads it, and reads
what it says was written.

Every access to shared memory is one step here, the construction of a `T` and the
flag that says it was constructed included.  Whether the construction throws is the
scheduler's choice.  Moving a `T` out of the slot is taken not to throw.

What differs between the variants is a `Variant`: the slot, the status that
`set_value` exchanges, the writes, and the laws that make reading the slot
meaningful.  `World.history` is a record of the calls that took effect, of those
that did not, and of what `get` reported; no step reads it.
-/

import CoopSync.WaitQueue.Model

namespace CoopSync
namespace Future

open WaitQueue

/-- `detail::future::status` -/
inductive Status
  | empty
  | value
  | exception
  | broken
  | transition
deriving DecidableEq, Repr

/-- The codes of `std::future_errc` that the library throws. -/
inductive FutureErrc
  | noState
  | futureAlreadyRetrieved
  | promiseAlreadySatisfied
  | brokenPromise
deriving DecidableEq, Repr

/-! ### The variants of the shared state -/

/-- What a variant of the shared state says about the slot for the value, of type
`σ`, and about `set_value`, which takes a `ν`. -/
structure Variant (ν σ : Type*) where
  /-- the slot of a new shared state -/
  init : σ
  /-- what `set_value` exchanges `status::empty` for -/
  desired : Status
  /-- the write of the value itself -/
  construct : ν → σ → σ
  /-- whether that write can throw -/
  throws : Bool
  /-- the write that marks the value as constructed, if there is one -/
  mark : Option (σ → σ)
  /-- what a `get` finds in the slot, `none` where there is no value -/
  read : σ → Option ν
  /-- what `future::get` leaves in the slot -/
  take : σ → σ
  read_construct : ∀ v, read (mark.getD id (construct v init)) = some v
  /-- The status is final at once only where there is nothing to write, or to throw. -/
  desired_eq : desired = .transition ∨
    desired = .value ∧ throws = false ∧ ∀ v, read init = some v

/-- The storage of `optional_storage`. -/
inductive Storage (ν : Type*)
  /-- no object has been constructed -/
  | raw
  | value (v : ν)
  /-- a value that was moved from -/
  | movedFrom
deriving DecidableEq, Repr

/-- `shared_state<T>::optional_storage` -/
structure OptionalStorage (ν : Type*) where
  /-- `m_storage` -/
  storage : Storage ν
  /-- `m_has_value` -/
  hasValue : Bool
deriving DecidableEq, Repr

namespace OptionalStorage

variable {ν : Type*}

def destroy (_ : OptionalStorage ν) : OptionalStorage ν := ⟨.raw, false⟩

/-- `emplace` up to the placement new. -/
def construct (v : ν) (s : OptionalStorage ν) : OptionalStorage ν :=
  { (if s.hasValue then s.destroy else s) with storage := .value v }

/-- `m_has_value = true` -/
def setHasValue (s : OptionalStorage ν) : OptionalStorage ν := { s with hasValue := true }

/-- `assert(value.has_value())` and `*value` -/
def get (s : OptionalStorage ν) : Option ν :=
  match s.hasValue, s.storage with
  | true, .value v => some v
  | _, _ => none

end OptionalStorage

/-- `shared_state<T>` -/
def sharedState (ν : Type*) : Variant ν (OptionalStorage ν) where
  init := ⟨.raw, false⟩
  desired := .transition
  construct := OptionalStorage.construct
  throws := true
  mark := some OptionalStorage.setHasValue
  read := OptionalStorage.get
  take s := { s with storage := .movedFrom }
  read_construct _ := rfl
  desired_eq := .inl rfl

/-- `shared_state<T&>`: the slot is a pointer, null at first; taking an address does
not throw. -/
def sharedStateRef (ν : Type*) : Variant ν (Option ν) where
  init := none
  desired := .transition
  construct v _ := some v
  throws := false
  mark := none
  read := id
  take := id
  read_construct _ := rfl
  desired_eq := .inl rfl

/-- `shared_state<void>`: no slot. -/
def sharedStateVoid : Variant Unit Unit where
  init := ()
  desired := .value
  construct _ _ := ()
  throws := false
  mark := none
  read := some
  take := id
  read_construct _ := rfl
  desired_eq := .inr ⟨rfl, rfl, fun _ => rfl⟩

/-! ### The shared state and its users -/

/-- `shared_state_base` with the slot of a variant. -/
structure SharedState (τ σ ε : Type*) where
  waiters : Queue τ
  /-- `state` -/
  status : Status
  futureObtained : Bool
  value : σ
  /-- `exception`, null at first -/
  exception : Option ε

/-- `ready` -/
def Status.ready : Status → Bool
  | .value | .exception | .broken => true
  | .empty | .transition => false

/-- The calls that satisfy or break a promise. -/
inductive Call (ν ε : Type*)
  | setValue (v : ν)
  | setException (p : ε)
  | breakPromise
deriving DecidableEq, Repr

/-- What a call makes of the promise, and what a `get` reports. -/
inductive Outcome (ν ε : Type*)
  /-- `get` returns the value -/
  | value (v : ν)
  /-- `get` rethrows the exception -/
  | exception (e : ε)
  /-- `get` throws `broken_promise` -/
  | broken
deriving DecidableEq, Repr

/-- What a call throws when the status is not empty any more. -/
def Call.rejection {ν ε : Type*} : Call ν ε → Option FutureErrc
  | .setValue _ | .setException _ => some .promiseAlreadySatisfied
  | .breakPromise => none

/-- The record of a run. -/
inductive Event (τ ν ε : Type*)
  /-- the call of `t` took effect -/
  | effective (t : τ) (call : Call ν ε) (outcome : Outcome ν ε)
  /-- the call of `t` did not, and threw -/
  | rejected (t : τ) (call : Call ν ε) (thrown : Option FutureErrc)
  /-- a `get` of `t` reported; `none` if it read a slot without a value or a null
  exception -/
  | got (t : τ) (report : Option (Outcome ν ε))
  /-- `get_future` of `t` threw -/
  | threw (t : τ) (errc : FutureErrc)
deriving DecidableEq, Repr

/-- The future of the promise. -/
inductive Handle
  /-- not obtained -/
  | none
  /-- a `future` that nobody uses at the moment -/
  | future
  /-- a `future` whose `get` is running -/
  | inGet
  /-- `shared_future`s, after `share` -/
  | shared
  /-- reset by a `get` that returned -/
  | released
deriving DecidableEq, Repr

/-- The shared state, its future, and what has happened. -/
structure World (τ ν σ ε : Type*) where
  state : SharedState τ σ ε
  handle : Handle
  history : List (Event τ ν ε)

/-- Where a task stands in `set_value`, `set_exception` or `break_promise`. -/
inductive Setter (τ ν ε : Type*)
  /-- `state.compare_exchange_strong` -/
  | exchange (call : Call ν ε)
  /-- the write of the value -/
  | construct (v : ν)
  /-- the write that marks it as constructed -/
  | mark (v : ν)
  /-- `state.store(status::value)` -/
  | storeValue (v : ν)
  /-- `exception = ...`, for `set_exception` or in the `catch` of `set_value` -/
  | writeException (call : Call ν ε) (e : ε)
  /-- `state.store(status::exception)` -/
  | storeException (call : Call ν ε) (e : ε)
  | resumeAll (r : ResumeAll τ)
deriving DecidableEq, Repr

/-- Where a task stands in `get`. -/
inductive Get (τ : Type*)
  /-- `m_state->wait()` -/
  | wait (w : WaitIf τ)
  /-- `state.load()` of `throw_if_exception_or_broken` -/
  | loadState
  /-- `std::rethrow_exception(m_state->exception)` -/
  | readException
  /-- the read of the slot -/
  | readValue
deriving DecidableEq, Repr

/-- Whose `get`. -/
inductive FutureKind
  | future
  | sharedFuture
deriving DecidableEq, Repr

/-- Where a task stands. -/
inductive Local (τ ν ε : Type*)
  | idle
  | setter (s : Setter τ ν ε)
  | getter (kind : FutureKind) (g : Get τ)
deriving DecidableEq, Repr

/-- The calls a task can make. -/
inductive Op (ν ε : Type*)
  | set (call : Call ν ε)
  | getFuture
  | share
  | get (kind : FutureKind)
deriving DecidableEq, Repr

/-- The scheduler's choice: a task outside the code makes a call; a task inside
steps, and what it constructs throws `thrown` if the step constructs a value. -/
inductive Act (ν ε : Type*)
  | call (op : Op ν ε)
  | step (thrown : Option ε)
deriving DecidableEq, Repr

variable {τ ν σ ε : Type*} [DecidableEq τ]

/-- `set_value`, `set_exception` and `break_promise`.  `none` as the new place means
that the call has ended. -/
def Setter.step (V : Variant ν σ) (t : τ) (thrown : Option ε) (s : SharedState τ σ ε) :
    Setter τ ν ε → Option (SharedState τ σ ε × Option (Setter τ ν ε) × Option (Event τ ν ε))
  | .exchange call =>
    if s.status = .empty then
      match call with
      | .setValue v =>
        if V.desired = .value then
          some ({ s with status := .value }, some (.resumeAll .lock),
            some (.effective t (.setValue v) (.value v)))
        else some ({ s with status := V.desired }, some (.construct v), none)
      | .setException p =>
        some ({ s with status := .transition }, some (.writeException (.setException p) p), none)
      | .breakPromise =>
        some ({ s with status := .broken }, some (.resumeAll .lock),
          some (.effective t .breakPromise .broken))
    else some (s, none, some (.rejected t call call.rejection))
  | .construct v =>
    match V.throws, thrown with
    | true, some e => some (s, some (.writeException (.setValue v) e), none)
    | _, _ =>
      some ({ s with value := V.construct v s.value },
        some (if V.mark.isSome then .mark v else .storeValue v), none)
  | .mark v => some ({ s with value := V.mark.getD id s.value }, some (.storeValue v), none)
  | .storeValue v =>
    some ({ s with status := .value }, some (.resumeAll .lock),
      some (.effective t (.setValue v) (.value v)))
  | .writeException call e =>
    some ({ s with exception := some e }, some (.storeException call e), none)
  | .storeException call e =>
    some ({ s with status := .exception }, some (.resumeAll .lock),
      some (.effective t call (.exception e)))
  | .resumeAll r =>
    (r.step t s.waiters).map fun o => ({ s with waiters := o.1 }, o.2.map .resumeAll, none)

/-- The predicate of `wait`. -/
def notReady (s : SharedState τ σ ε) : Bool × SharedState τ σ ε := (!s.status.ready, s)

/-- The future after a `get` that threw. -/
def FutureKind.restore : FutureKind → Handle → Handle
  | .future, _ => .future
  | .sharedFuture, h => h

/-- `get` of a `future` or a `shared_future`.  `future::get` takes the value and
resets the future; a `get` that throws leaves it valid. -/
def Get.step (V : Variant ν σ) (t : τ) (kind : FutureKind) (w : World τ ν σ ε) :
    Get τ → Option (World τ ν σ ε × Option (Get τ))
  | .wait p =>
    (p.stepWith notReady t w.state w.state.waiters).map fun r =>
      ({ w with state := { w.state with waiters := r.2.1 } },
        some (r.2.2.elim .loadState .wait))
  | .loadState =>
    match w.state.status with
    | .exception => some (w, some .readException)
    | .broken =>
      some ({ w with
        handle := kind.restore w.handle, history := .got t (some .broken) :: w.history }, none)
    | _ => some (w, some .readValue)
  | .readException =>
    some ({ w with
      handle := kind.restore w.handle
      history := .got t (w.state.exception.map .exception) :: w.history }, none)
  | .readValue =>
    let history := .got t ((V.read w.state.value).map .value) :: w.history
    match kind with
    | .future =>
      some (⟨{ w.state with value := V.take w.state.value }, .released, history⟩, none)
    | .sharedFuture => some ({ w with history := history }, none)

/-- `mark_future_obtained` -/
def SharedState.markFutureObtained (s : SharedState τ σ ε) :
    Except FutureErrc (SharedState τ σ ε) :=
  if s.futureObtained then .error .futureAlreadyRetrieved
  else .ok { s with futureObtained := true }

/-- The call `op` of a task outside the code.  A `future` is used by one task at a
time, and a `shared_future` only after `share`. -/
def Op.enter (t : τ) (w : World τ ν σ ε) : Op ν ε → Option (World τ ν σ ε × Local τ ν ε)
  | .set call => some (w, .setter (.exchange call))
  | .getFuture =>
    match w.state.markFutureObtained with
    | .ok s => some ({ w with state := s, handle := .future }, .idle)
    | .error errc => some ({ w with history := .threw t errc :: w.history }, .idle)
  | .share => if w.handle = .future then some ({ w with handle := .shared }, .idle) else none
  | .get .future =>
    if w.handle = .future then
      some ({ w with handle := .inGet }, .getter .future (.wait .fastPath))
    else none
  | .get .sharedFuture =>
    if w.handle = .shared then some (w, .getter .sharedFuture (.wait .fastPath)) else none

/-- One step of one task on the shared state. -/
def next (V : Variant ν σ) : Next τ (Act ν ε) (World τ ν σ ε) (Local τ ν ε)
  | t, .call op, w, .idle => op.enter t w
  | t, .step thrown, w, .setter s =>
    (s.step V t thrown w.state).map fun r =>
      ({ w with state := r.1, history := r.2.2.toList ++ w.history }, r.2.1.elim .idle .setter)
  | t, .step _, w, .getter kind g =>
    (g.step V t kind w).map fun r => (r.1, r.2.elim .idle (.getter kind))
  | _, _, _, _ => none

/-- A new shared state, and every task outside the code. -/
def start (V : Variant ν σ) (τ ε : Type*) : Config τ (World τ ν σ ε) (Local τ ν ε) :=
  ⟨⟨⟨Queue.init τ, .empty, false, V.init, none⟩, .none, []⟩, fun _ => .idle⟩

end Future
end CoopSync
