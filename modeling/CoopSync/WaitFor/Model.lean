/-
# `wait_for_all` and `wait_for_range`

`include/coopsync_tbb/cuda/wait_for.hpp` and `include/coopsync_tbb/hip/wait_for.hpp`.
The calling task is suspended; the callback given to `tbb::task::suspend` registers one
host callback with every stream.  A host callback, and the registration loop itself where
a registration fails, writes the error slot of its stream and takes one off `pending`;
whoever takes the last one resumes the task, which then copies the error slots.

The suspended task, the registration loop and the host callbacks are tasks of their own.
The GPU runtime (`Runtime`) is not part of the repository: what its calls return and what
status it delivers are parameters, and it runs the callback of a successful registration
once, at any time from the registration on, and that of a failed one never.
-/

import Mathlib.Tactic.DeriveFintype
import CoopSync.Interleave

namespace CoopSync
namespace WaitFor

/-- The GPU runtime in one call of `wait_for_all` or `wait_for_range`: what the `i`-th
registration returns, and the status of the stream when its callback runs. -/
structure Runtime (σ ε : Type*) where
  /-- `cudaSuccess`, `hipSuccess` -/
  success : ε
  /-- `cudaLaunchHostFunc_v2(stream, ..., sync_mode)` -/
  launchHostFunc_v2 : ℕ → σ → UInt32 → ε
  /-- `cudaLaunchHostFunc(stream, ...)`, `hipLaunchHostFunc(stream, ...)` -/
  launchHostFunc : ℕ → σ → ε
  /-- `cudaStreamAddCallback(stream, ...)`, `hipStreamAddCallback(stream, ...)` -/
  streamAddCallback : ℕ → σ → ε
  status : ℕ → σ → ε

/-- `COOPSYNC_TBB_CUDA_HAS_HOST_FUNC_` and `COOPSYNC_TBB_HIP_HAS_HOST_FUNC_`: the runtime
call that `register_callback` is compiled to. -/
inductive Api
  | launchHostFunc_v2 (syncMode : UInt32)
  | launchHostFunc
  | streamAddCallback
deriving DecidableEq

/-- How an overload holds the bounds of its loop. -/
inductive Bound
  /-- `it != last` in `wait_for_range` -/
  | last
  /-- `i < N` in `wait_for_all` -/
  | size
deriving DecidableEq

/-- A call with `n` streams. -/
structure Call (n : ℕ) (σ ε : Type*) where
  api : Api
  bound : Bound
  runtime : Runtime σ ε
  stream : Fin n → σ

section Members

variable {n : ℕ} {σ ε : Type*}

/-- `COOPSYNC_TBB_CUDA_HAS_HOST_FUNC_` as `CUDART_VERSION` sets it. -/
def cudaApi (version : ℕ) (syncMode : UInt32) : Api :=
  if version ≥ 13020 then .launchHostFunc_v2 syncMode
  else if version ≥ 10000 then .launchHostFunc
  else .streamAddCallback

/-- `cuda::wait_for_all` -/
def cudaWaitForAll (version : ℕ) (runtime : Runtime σ ε) (syncMode : UInt32)
    (stream : Fin n → σ) : Call n σ ε :=
  ⟨cudaApi version syncMode, .size, runtime, stream⟩

/-- `cuda::wait_for_range` -/
def cudaWaitForRange (version : ℕ) (runtime : Runtime σ ε) (syncMode : UInt32)
    (stream : Fin n → σ) : Call n σ ε :=
  ⟨cudaApi version syncMode, .last, runtime, stream⟩

/-- `COOPSYNC_TBB_HIP_HAS_HOST_FUNC_` as `HIP_VERSION` sets it. -/
def hipApi (version : ℕ) : Api :=
  if version ≥ 50200000 then .launchHostFunc else .streamAddCallback

/-- `hip::wait_for_all` -/
def hipWaitForAll (version : ℕ) (runtime : Runtime σ ε) (stream : Fin n → σ) : Call n σ ε :=
  ⟨hipApi version, .size, runtime, stream⟩

/-- `hip::wait_for_range` -/
def hipWaitForRange (version : ℕ) (runtime : Runtime σ ε) (stream : Fin n → σ) : Call n σ ε :=
  ⟨hipApi version, .last, runtime, stream⟩

/-- `register_callback`: what the runtime returns for item `i`. -/
def Call.launch (w : Call n σ ε) (i : Fin n) : ε :=
  match w.api with
  | .launchHostFunc_v2 syncMode => w.runtime.launchHostFunc_v2 i (w.stream i) syncMode
  | .launchHostFunc => w.runtime.launchHostFunc i (w.stream i)
  | .streamAddCallback => w.runtime.streamAddCallback i (w.stream i)

/-- What the callback of item `i` gives to `notify`: `resumption_host_func` gives success,
`resumption_callback` the status it is called with. -/
def Call.delivered (w : Call n σ ε) (i : Fin n) : ε :=
  match w.api with
  | .launchHostFunc_v2 _ | .launchHostFunc => w.runtime.success
  | .streamAddCallback => w.runtime.status i (w.stream i)

/-- The test of the loop before its `i`-th round. -/
def Call.more (w : Call n σ ε) (i : ℕ) : Bool :=
  match w.bound with
  | .last => i != n
  | .size => i < n

end Members

/-- The frame of the suspended task, and what has happened: the items whose callback is
in a stream, the registration calls, the items whose slot has been written, those that
have been taken off `pending`, and the calls of `tbb::task::resume`. -/
structure Shared (n : ℕ) (ε : Type*) where
  /-- `context.suspend_point` has been set -/
  suspendPoint : Bool
  /-- `context.pending` -/
  pending : ℤ
  /-- `items[i].out`, as an index into `errs`; `none` for the null pointer -/
  items : Fin n → Option (Fin n)
  errs : Fin n → ε
  enqueued : Finset (Fin n)
  calls : ℕ
  written : Finset (Fin n)
  taken : Finset (Fin n)
  resumes : ℕ

/-- Where a task stands in `multi_stream_item::notify(status)`. -/
inductive Notify (ε : Type*)
  /-- `*out = status` -/
  | write (status : ε)
  /-- `if (pending.fetch_sub(1) == 1)` -/
  | fetchSub
  /-- `tbb::task::resume(suspend_point)` -/
  | resume
deriving DecidableEq

/-- Who takes part in a call with `n` streams. -/
inductive Party (n : ℕ)
  /-- the task that is suspended -/
  | task
  /-- the callback given to `tbb::task::suspend` -/
  | loop
  /-- the host callback of item `i` -/
  | callback (i : Fin n)
deriving DecidableEq, Fintype

/-- Where a party stands. -/
inductive Pc (n : ℕ) (ε : Type*)
  /-- `context.suspend_point = tag` -/
  | setTag
  /-- the test of the loop -/
  | test (i : ℕ)
  /-- `items[i] = {&context, &errs[i]}` -/
  | setItem (i : Fin n)
  /-- the runtime call in `register_callback` -/
  | register (i : Fin n)
  /-- `if (err != success)` in `register_callback` -/
  | check (i : Fin n) (err : ε)
  /-- `context.notify(err)` in `register_callback` -/
  | failed (i : Fin n) (m : Notify ε)
  /-- the loop has ended -/
  | left
  /-- a host callback that has not been run -/
  | idle
  /-- `notify(status)` in a host callback -/
  | callback (m : Notify ε)
  /-- the host callback has returned -/
  | ended
  | suspended
  /-- resumed, with the error slots copied so far -/
  | copy (out : List ε)
  | returned (out : List ε)
deriving DecidableEq

variable {n : ℕ} {σ ε : Type*}

/-- One step of `notify` for item `i`.  A null pointer is not written through, and nobody
is resumed through a suspend point that has not been set. -/
def Notify.step (i : Fin n) (s : Shared n ε) :
    Notify ε → Option (Shared n ε × Option (Notify ε))
  | .write status =>
    (s.items i).map fun out =>
      ({ s with errs := Function.update s.errs out status, written := insert out s.written },
        some .fetchSub)
  | .fetchSub =>
    some ({ s with pending := s.pending - 1, taken := insert i s.taken },
      if s.pending = 1 then some .resume else none)
  | .resume => if s.suspendPoint then some ({ s with resumes := s.resumes + 1 }, none) else none

variable [DecidableEq ε]

/-- One step of one party.  A loop that ran past the end would have no step. -/
def next (w : Call n σ ε) : Next (Party n) Unit (Shared n ε) (Pc n ε)
  | .loop, (), s, .setTag => some ({ s with suspendPoint := true }, .test 0)
  | .loop, (), s, .test i =>
    if w.more i then if h : i < n then some (s, .setItem ⟨i, h⟩) else none
    else some (s, .left)
  | .loop, (), s, .setItem i =>
    some ({ s with items := Function.update s.items i (some i) }, .register i)
  | .loop, (), s, .register i =>
    some ({ s with
        calls := s.calls + 1
        enqueued := if w.launch i = w.runtime.success then insert i s.enqueued else s.enqueued },
      .check i (w.launch i))
  | .loop, (), s, .check i err =>
    some (s, if err ≠ w.runtime.success then .failed i (.write err) else .test (i + 1))
  | .loop, (), s, .failed i m =>
    (m.step i s).map fun r => (r.1, r.2.elim (.test (i + 1)) (.failed i))
  | .callback i, (), s, .idle =>
    if i ∈ s.enqueued then some (s, .callback (.write (w.delivered i))) else none
  | .callback i, (), s, .callback m => (m.step i s).map fun r => (r.1, r.2.elim .ended .callback)
  | .task, (), s, .suspended => if 0 < s.resumes then some (s, .copy []) else none
  | .task, (), s, .copy out =>
    some (s, if h : out.length < n then .copy (out ++ [s.errs ⟨out.length, h⟩]) else .returned out)
  | _, _, _, _ => none

/-- Where a party stands when the task has been suspended. -/
def Party.entry : Party n → Pc n ε
  | .task => .suspended
  | .loop => .setTag
  | .callback _ => .idle

/-- The task suspended in the call `w`, with all slots set to success. -/
def start (w : Call n σ ε) : Config (Party n) (Shared n ε) (Pc n ε) :=
  ⟨⟨false, n, fun _ => none, fun _ => w.runtime.success, ∅, 0, ∅, ∅, 0⟩, Party.entry⟩

end WaitFor
end CoopSync
