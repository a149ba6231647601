/-
# `wait_for`

`include/coopsync_tbb/cuda/wait_for.hpp`, `hip/wait_for.hpp`, `onnx/wait_for.hpp` and
`alpaka/wait_for.hpp`.  The calling task is suspended until one piece of work is done
elsewhere.  The callback given to `tbb::task::suspend` submits a callback of its own to the
runtime, and that one resumes the task.  The overloads differ in what they do with errors
and in what the submitted callback holds:

| overload | a refused submission | the submitted callback | returns |
| --- | --- | --- | --- |
| `cuda`, `hip` | `notify(err)` | `notify(status)` | `err` |
| `onnx`, C API | `resumption_callback(..., submit_status)` | the same with `status` | `status` |
| `onnx`, C++ API | `RunAsync` throws | the same with `status` | `ThrowOnError(status)` |
| `alpaka` | `enqueue` throws | resumes a copy of the suspend point | nothing |

So a refused submission resumes the task in the first two and does not in the others
(`wait_for_comes_to_rest`), and nobody uses the frame of the task once it has been resumed
(`wait_for_keeps_off_frame`).

As in `wait_for_all` the runtime is not part of the repository: it runs the callback of an
accepted submission once, at any time from then on, and that of a refused one never.  What
`tbb::task::suspend` does with an exception is not modelled.
-/

import CoopSync.Rest
import CoopSync.WaitFor.Model

namespace CoopSync
namespace WaitFor
namespace Single

/-- How an error is reported. -/
inductive Report
  | status
  | exception
deriving DecidableEq, Repr

/-- One call, with what the runtime does in it. -/
structure Request (ε : Type*) where
  success : ε
  /-- what the submission gives -/
  launch : ε
  /-- what the submitted callback passes on, `none` where it only resumes -/
  delivered : Option ε
  /-- how the submission is refused -/
  submission : Report
  /-- how `wait_for` reports what it finds in the context -/
  outcome : Report
deriving DecidableEq, Repr

section Members

variable {σ ε : Type*}

/-- `register_callback` with a `single_stream_context`. -/
def registerCallback (api : Api) (runtime : Runtime σ ε) (stream : σ) : Request ε :=
  let w : Call 1 σ ε := ⟨api, .size, runtime, fun _ => stream⟩
  ⟨runtime.success, w.launch 0, some (w.delivered 0), .status, .status⟩

/-- `cuda::wait_for` -/
def cudaWaitFor (version : ℕ) (runtime : Runtime σ ε) (stream : σ) (syncMode : UInt32) :
    Request ε :=
  registerCallback (cudaApi version syncMode) runtime stream

/-- `hip::wait_for` -/
def hipWaitFor (version : ℕ) (runtime : Runtime σ ε) (stream : σ) : Request ε :=
  registerCallback (hipApi version) runtime stream

/-- `onnx::wait_for` of the C API: what `api->RunAsync` returns, and the status ORT gives
to the callback; the null pointer is success. -/
def onnxWaitFor (submitStatus status : Option ε) : Request (Option ε) :=
  ⟨none, submitStatus, some status, .status, .status⟩

/-- `onnx::wait_for` of the C++ API: what `session.RunAsync` throws, and the status ORT
gives to the callback. -/
def onnxWaitForSession (thrown status : Option ε) : Request (Option ε) :=
  ⟨none, thrown, some status, .exception, .exception⟩

/-- `alpaka::wait_for`: what `alpaka::enqueue` throws. -/
def alpakaWaitFor (thrown : Option ε) : Request (Option ε) :=
  ⟨none, thrown, none, .exception, .status⟩

end Members

/-- The context of the suspended task, and what has happened: whether the runtime has the
callback, and the calls of `tbb::task::resume`. -/
structure Shared (ε : Type*) where
  /-- `context.suspend_point` has been set -/
  suspendPoint : Bool
  /-- `context.err`, `ctx.status` -/
  status : ε
  enqueued : Bool
  resumes : ℕ

/-- Where a task stands in `single_stream_context::notify(status)` or in
`resumption_callback`. -/
inductive Notify (ε : Type*)
  /-- `err = status`, `ctx->status = status` -/
  | write (status : ε)
  /-- `tbb::task::resume(suspend_point)` -/
  | resume
deriving DecidableEq, Repr

/-- Who takes part in a call. -/
inductive Party
  /-- the task that is suspended -/
  | task
  /-- the callback given to `tbb::task::suspend` -/
  | submitter
  /-- the callback given to the runtime -/
  | callback
deriving DecidableEq

instance : Fintype Party := ⟨{.task, .submitter, .callback}, fun p => by cases p <;> simp⟩

/-- Where a party stands. -/
inductive Pc (ε : Type*)
  /-- `context.suspend_point = tag` -/
  | setTag
  /-- the runtime call -/
  | submit
  /-- `if (err != success)`, `if (submit_status != nullptr)` -/
  | check (err : ε)
  /-- the notification of a refused submission -/
  | refused (m : Notify ε)
  /-- the submitter has returned -/
  | left
  /-- the submitter has been left by an exception -/
  | threw (err : ε)
  /-- a callback that has not been run -/
  | idle
  /-- the notification in the callback -/
  | callback (m : Notify ε)
  /-- the callback has returned -/
  | ended
  | suspended
  | returned (status : ε)
  | thrown (status : ε)
deriving DecidableEq, Repr

variable {ε : Type*}

/-- One step of a notification.  Nobody is resumed through a suspend point that has been
neither set nor copied. -/
def Notify.step (r : Request ε) (s : Shared ε) : Notify ε → Option (Shared ε × Option (Notify ε))
  | .write status => some ({ s with status := status }, some .resume)
  | .resume =>
    if s.suspendPoint ∨ r.delivered = none then some ({ s with resumes := s.resumes + 1 }, none)
    else none

/-- The notification in the submitted callback. -/
def Request.notify (r : Request ε) : Notify ε := r.delivered.elim .resume .write

variable [DecidableEq ε]

/-- The submitter after the runtime call. -/
def Request.submitted (r : Request ε) : Pc ε :=
  match r.submission with
  | .status => .check r.launch
  | .exception => if r.launch = r.success then .left else .threw r.launch

/-- `return context.err`, `return ctx.status` or `Ort::ThrowOnError(ctx.status)`. -/
def Request.finish (r : Request ε) (status : ε) : Pc ε :=
  match r.outcome with
  | .status => .returned status
  | .exception => if status = r.success then .returned status else .thrown status

/-- One step of one party. -/
def next (r : Request ε) : Next Party Unit (Shared ε) (Pc ε)
  | .submitter, (), s, .setTag => some ({ s with suspendPoint := true }, .submit)
  | .submitter, (), s, .submit => some ({ s with enqueued := r.launch = r.success }, r.submitted)
  | .submitter, (), s, .check err =>
    some (s, if err ≠ r.success then .refused (.write err) else .left)
  | .submitter, (), s, .refused m => (m.step r s).map fun o => (o.1, o.2.elim .left .refused)
  | .callback, (), s, .idle => if s.enqueued then some (s, .callback r.notify) else none
  | .callback, (), s, .callback m => (m.step r s).map fun o => (o.1, o.2.elim .ended .callback)
  | .task, (), s, .suspended => if 0 < s.resumes then some (s, r.finish s.status) else none
  | _, _, _, _ => none

/-- Where a party stands when the task has been suspended; `alpaka::wait_for` has no
context. -/
def Request.entry (r : Request ε) : Party → Pc ε
  | .task => .suspended
  | .submitter => if r.delivered = none then .submit else .setTag
  | .callback => .idle

/-- The task suspended in the call `r`. -/
def start (r : Request ε) : Config Party (Shared ε) (Pc ε) :=
  ⟨⟨false, r.success, false, 0⟩, r.entry⟩

/-! ### The steps -/

/-- The steps a notification can still take. -/
def Notify.work : Option (Notify ε) → ℕ
  | some (.write _) => 2
  | some .resume => 1
  | none => 0

/-- The steps a party can still take. -/
def Pc.work : Pc ε → ℕ
  | .setTag => 5
  | .submit => 4
  | .check _ | .idle => 3
  | .refused m | .callback m => Notify.work (some m)
  | .suspended => 1
  | .left | .threw _ | .ended | .returned _ | .thrown _ => 0

/-- The result of the call: the error of the submission, or the status its callback
delivers. -/
def Request.result (r : Request ε) : ε :=
  if r.launch = r.success then r.delivered.getD r.success else r.launch

/-- The steps of a party. -/
inductive Step (r : Request ε) (s : Shared ε) : Party → Pc ε → Shared ε → Pc ε → Prop
  | setTag : Step r s .submitter .setTag { s with suspendPoint := true } .submit
  | submit :
      Step r s .submitter .submit { s with enqueued := r.launch = r.success } r.submitted
  | fails {err} (he : err ≠ r.success) : Step r s .submitter (.check err) s (.refused (.write err))
  | succeeds : Step r s .submitter (.check r.success) s .left
  | refused {m s' o} (hm : m.step r s = some (s', o)) :
      Step r s .submitter (.refused m) s' (o.elim .left .refused)
  | run (hs : s.enqueued = true) : Step r s .callback .idle s (.callback r.notify)
  | callback {m s' o} (hm : m.step r s = some (s', o)) :
      Step r s .callback (.callback m) s' (o.elim .ended .callback)
  | resumed (hs : 0 < s.resumes) : Step r s .task .suspended s (r.finish s.status)

variable {r : Request ε} {s s' : Shared ε} {l l' : Pc ε} {m : Notify ε} {o : Option (Notify ε)}

/-- Every step is one of these. -/
theorem step_of_next {p : Party} {a : Unit} (hn : next r p a s l = some (s', l')) :
    Step r s p l s' l' := by
  cases p with
  | task =>
    cases l with
    | suspended =>
      obtain ⟨hs, rfl, rfl⟩ := by simpa [next] using hn
      exact .resumed hs
    | _ => simp [next] at hn
  | submitter =>
    cases l with
    | setTag | submit =>
      obtain ⟨rfl, rfl⟩ := by simpa [next] using hn
      constructor
    | check err =>
      obtain ⟨rfl, rfl⟩ := by simpa [next] using hn
      split_ifs with he
      · obtain rfl := he
        exact .succeeds
      · exact .fails he
    | refused m =>
      obtain ⟨⟨s₁, o⟩, hm, he⟩ := Option.map_eq_some_iff.1 hn
      obtain ⟨rfl, rfl⟩ := by simpa using he
      exact .refused hm
    | _ => simp [next] at hn
  | callback =>
    cases l with
    | idle =>
      obtain ⟨hs, rfl, rfl⟩ := by simpa [next] using hn
      exact .run hs
    | callback m =>
      obtain ⟨⟨s₁, o⟩, hm, he⟩ := Option.map_eq_some_iff.1 hn
      obtain ⟨rfl, rfl⟩ := by simpa using he
      exact .callback hm
    | _ => simp [next] at hn

omit [DecidableEq ε] in
/-- Every step of `notify` leaves less to do. -/
theorem Notify.work_step (hm : m.step r s = some (s', o)) :
    Notify.work o < Notify.work (some m) := by
  cases m with
  | write status =>
    obtain ⟨-, rfl⟩ := by simpa [Notify.step] using hm
    exact Nat.one_lt_two
  | resume =>
    obtain ⟨-, -, rfl⟩ := by simpa [Notify.step] using hm
    exact Nat.zero_lt_one

/-- Every step uses up some of the work of its party. -/
theorem Step.work {p : Party} (hs : Step r s p l s' l') : l'.work < l.work := by
  cases hs with
  | setTag => exact Nat.lt_succ_self 4
  | submit =>
    unfold Request.submitted
    split
    · exact Nat.lt_succ_self 3
    · split_ifs <;> exact Nat.succ_pos 3
  | fails | succeeds => simp [Pc.work, Notify.work]
  | @refused m s' o hm | @callback m s' o hm =>
    have := Notify.work_step hm
    cases o <;> exact this
  | run =>
    have hle : Notify.work (some r.notify) ≤ 2 := by
      unfold Request.notify
      cases r.delivered <;> simp [Notify.work]
    exact Nat.lt_succ_of_le hle
  | resumed =>
    unfold Request.finish
    split
    · exact Nat.zero_lt_one
    · split_ifs <;> exact Nat.zero_lt_one

/-! ### The invariant -/

/-- How far the notification has got: before a step of `m`, or over. -/
def Notified (r : Request ε) (s : Shared ε) : Option (Notify ε) → Prop
  | some (.write status) => status = r.result ∧ s.resumes = 0
  | some .resume => s.status = r.result ∧ s.resumes = 0
  | none => s.status = r.result ∧ s.resumes = 1

/-- Who is still in `notify` has resumed nobody. -/
theorem Notified.resumes (h : Notified r s (some m)) : s.resumes = 0 := by
  cases m <;> exact h.2

/-- A step of `notify` keeps what holds of the call. -/
theorem Notified.step (h : Notified r s (some m)) (hm : m.step r s = some (s', o)) :
    Notified r s' o := by
  cases m with
  | write status =>
    obtain ⟨rfl, rfl⟩ := by simpa [Notify.step] using hm
    exact h
  | resume =>
    obtain ⟨-, rfl, rfl⟩ := by simpa [Notify.step] using hm
    exact ⟨h.1, congrArg (· + 1) h.2⟩

omit [DecidableEq ε] in
/-- A notification does not touch the queue of the runtime. -/
theorem Notify.step_enqueued (hm : m.step r s = some (s', o)) :
    s'.enqueued = s.enqueued ∧ s'.suspendPoint = s.suspendPoint := by
  cases m with
  | write status =>
    obtain ⟨rfl, -⟩ := by simpa [Notify.step] using hm
    exact ⟨rfl, rfl⟩
  | resume =>
    obtain ⟨-, rfl, -⟩ := by simpa [Notify.step] using hm
    exact ⟨rfl, rfl⟩

/-- Nobody has been notified. -/
def Request.Fresh (r : Request ε) (s : Shared ε) : Prop :=
  s.status = r.success ∧ s.resumes = 0

/-- What holds of a party where it stands. -/
def Request.Fits (r : Request ε) (s : Shared ε) : Party → Pc ε → Prop
  | .submitter, .setTag => s.enqueued = false ∧ r.Fresh s
  | .submitter, .submit => s.enqueued = false ∧ r.Fresh s
  | .submitter, .check err =>
    s.enqueued = decide (r.launch = r.success) ∧ r.submission = .status ∧ err = r.launch ∧
      (r.launch ≠ r.success → r.Fresh s)
  | .submitter, .refused m =>
    s.enqueued = false ∧ r.launch ≠ r.success ∧ r.submission = .status ∧ Notified r s (some m)
  | .submitter, .left =>
    s.enqueued = decide (r.launch = r.success) ∧
      (r.launch ≠ r.success → r.submission = .status ∧ Notified r s none)
  | .submitter, .threw err =>
    s.enqueued = false ∧ err = r.launch ∧ r.launch ≠ r.success ∧ r.submission = .exception ∧
      r.Fresh s
  | .callback, .idle => s.enqueued = true → r.Fresh s
  | .callback, .callback m => s.enqueued = true ∧ Notified r s (some m)
  | .callback, .ended => s.enqueued = true ∧ Notified r s none
  | .task, .suspended => True
  | .task, l => 0 < s.resumes ∧ l = r.finish s.status
  | _, _ => False

structure Inv (r : Request ε) (c : Config Party (Shared ε) (Pc ε)) : Prop where
  tag : c.loc .submitter = .setTag ∨ c.shared.suspendPoint = true ∨ r.delivered = none
  accepted : c.shared.enqueued = true → r.launch = r.success
  fits : ∀ p, r.Fits c.shared p (c.loc p)

variable {c : Config Party (Shared ε) (Pc ε)}

/-- The invariant holds where the task has been suspended. -/
theorem inv_start : Inv r (start r) where
  tag := by
    simp only [start, Request.entry]
    split_ifs with hd
    · exact .inr (.inr hd)
    · exact .inl rfl
  accepted := nofun
  fits p := by
    cases p with
    | task => trivial
    | submitter =>
      simp only [start, Request.entry]
      split_ifs <;> exact ⟨rfl, rfl, rfl⟩
    | callback => exact nofun

/-- The party that steps fits afterwards, and the others as before. -/
theorem Inv.of_fits {p : Party} (h : Inv r c)
    (htag : p = .submitter → s'.suspendPoint = true ∨ r.delivered = none)
    (hs : c.shared.suspendPoint = true → s'.suspendPoint = true)
    (hacc : s'.enqueued = true → r.launch = r.success) (hfit : r.Fits s' p l)
    (hothers : ∀ q, q ≠ p → r.Fits s' q (c.loc q)) :
    Inv r ⟨s', Function.update c.loc p l⟩ where
  tag := by
    by_cases hp : Party.submitter = p
    · exact .inr (htag hp.symm)
    · simpa [Function.update_of_ne hp] using h.tag.imp_right (Or.imp_left hs)
  accepted := hacc
  fits q := by
    by_cases hq : q = p
    · obtain rfl := hq
      simpa using hfit
    · simpa [Function.update_of_ne hq] using hothers q hq

/-- The resumed task returns or throws what was delivered. -/
theorem Request.Fits.finish (hs : 0 < s.resumes) : r.Fits s .task (r.finish s.status) := by
  generalize hl : r.finish s.status = l
  have hne : l ≠ .suspended := by
    rintro rfl
    unfold Request.finish at hl
    split at hl
    · cases hl
    · split_ifs at hl
  cases l <;> first | exact ⟨hs, hl.symm⟩ | exact absurd rfl hne

/-- A task that nobody has resumed is suspended. -/
theorem Inv.suspended (h : Inv r c) (hs : c.shared.resumes = 0) : c.loc .task = .suspended := by
  have hfit := h.fits .task
  generalize c.loc .task = l at hfit
  cases l with
  | suspended => rfl
  | _ => exact absurd hfit.1 (by omega)

/-- A callback the runtime does not have has not been run. -/
theorem Inv.idle (h : Inv r c) (hs : c.shared.enqueued = false) : c.loc .callback = .idle := by
  have hfit := h.fits .callback
  generalize c.loc .callback = l at hfit
  cases l with
  | idle => rfl
  | callback | ended => exact absurd hfit.1 (by simp [hs])
  | _ => exact hfit.elim

/-- Where the submission has been accepted, the submitter does no more than leave. -/
theorem Inv.submitter_fits (h : Inv r c) (hs : c.shared.enqueued = true)
    (he : s'.enqueued = c.shared.enqueued) : r.Fits s' .submitter (c.loc .submitter) := by
  have hacc := h.accepted hs
  have hfit := h.fits .submitter
  generalize c.loc .submitter = l at hfit
  cases l with
  | check err => exact ⟨he.trans hfit.1, hfit.2.1, hfit.2.2.1, absurd hacc⟩
  | left => exact ⟨he.trans hfit.1, absurd hacc⟩
  | setTag | submit | refused | threw => simp [hs, Request.Fits] at hfit
  | _ => exact hfit.elim

/-- Every step keeps the invariant. -/
theorem inv_step {p : Party} {a : Unit} (h : Inv r c)
    (hn : next r p a c.shared (c.loc p) = some (s', l')) :
    Inv r ⟨s', Function.update c.loc p l'⟩ := by
  have hs := step_of_next hn
  have hfit := h.fits p
  have htag (hp : p = .submitter) (hne : c.loc p ≠ .setTag) :
      c.shared.suspendPoint = true ∨ r.delivered = none := by
    obtain rfl := hp
    exact h.tag.resolve_left hne
  generalize hl : c.loc p = l at hs hfit htag
  cases hs with
  | setTag =>
    refine h.of_fits (fun _ => .inl rfl) (fun _ => rfl) h.accepted hfit fun q _ => ?_
    have := h.fits q
    generalize c.loc q = l at this
    cases q <;> cases l <;> exact this
  | submit =>
    obtain ⟨henq, hfresh⟩ := hfit
    refine h.of_fits (fun hp => htag hp nofun) id of_decide_eq_true ?_ fun q hq => ?_
    · unfold Request.submitted
      split
      · rename_i hsub
        exact ⟨rfl, hsub, rfl, fun _ => hfresh⟩
      · rename_i hsub
        split_ifs with hacc
        · exact ⟨rfl, absurd hacc⟩
        · exact ⟨by simpa using hacc, rfl, hacc, hsub, hfresh⟩
    · cases q with
      | task =>
        rw [h.suspended hfresh.2]
        trivial
      | submitter => exact absurd rfl hq
      | callback =>
        rw [h.idle henq]
        exact fun _ => hfresh
  | fails he =>
    obtain ⟨henq, hsub, rfl, hfresh⟩ := hfit
    refine h.of_fits (fun hp => htag hp nofun) id h.accepted ?_ fun q _ => h.fits q
    exact ⟨henq.trans (by simpa using he), he, hsub, (if_neg he).symm, (hfresh he).2⟩
  | succeeds =>
    obtain ⟨henq, hsub, hsucc, hfresh⟩ := hfit
    exact h.of_fits (fun hp => htag hp nofun) id h.accepted ⟨henq, absurd hsucc.symm⟩
      fun q _ => h.fits q
  | @refused m s' o hm =>
    obtain ⟨henq, hne, hsub, hnot⟩ := hfit
    obtain ⟨he, ht⟩ := Notify.step_enqueued hm
    have hnot' := hnot.step hm
    refine h.of_fits (fun hp => (htag hp nofun).imp_left ht.trans) ht.trans
      (fun ht => h.accepted (he ▸ ht)) ?_ fun q hq => ?_
    · cases o with
      | none => exact ⟨he.trans (henq.trans (by simpa using hne)), fun _ => ⟨hsub, hnot'⟩⟩
      | some m' => exact ⟨he.trans henq, hne, hsub, hnot'⟩
    · cases q with
      | task =>
        rw [h.suspended hnot.resumes]
        trivial
      | submitter => exact absurd rfl hq
      | callback =>
        rw [h.idle henq]
        intro ht
        rw [he, henq] at ht
        cases ht
  | run hs =>
    have hfresh := hfit hs
    refine h.of_fits nofun id h.accepted ⟨hs, ?_⟩ fun q _ => h.fits q
    have hresult : r.result = r.delivered.getD r.success := if_pos (h.accepted hs)
    unfold Request.notify
    cases hd : r.delivered with
    | none => exact ⟨hfresh.1.trans (by simp [hresult, hd]), hfresh.2⟩
    | some status => exact ⟨by simp [hresult, hd], hfresh.2⟩
  | @callback m s' o hm =>
    obtain ⟨henq, hnot⟩ := hfit
    obtain ⟨he, ht⟩ := Notify.step_enqueued hm
    have hnot' := hnot.step hm
    refine h.of_fits nofun ht.trans (fun ht => h.accepted (he ▸ ht)) ?_ fun q hq => ?_
    · cases o <;> exact ⟨he.trans henq, hnot'⟩
    · cases q with
      | task =>
        rw [h.suspended hnot.resumes]
        trivial
      | submitter => exact h.submitter_fits henq he
      | callback => exact absurd rfl hq
  | resumed hs =>
    exact h.of_fits nofun id h.accepted (Request.Fits.finish hs) fun q _ => h.fits q

/-- The invariant holds in every run. -/
theorem inv_of_reachable (h : Reachable (next r) (start r) c) : Inv r c :=
  h.invariant inv_start fun _ _ _ _ _ _ hI _ hn => inv_step hI hn

/-! ### Where it ends -/

/-- Every step of every party is admitted. -/
def Anyone (_ : Config Party (Shared ε) (Pc ε)) (_ : Party) (_ : Unit) : Prop := True

/-- Nothing is left to do. -/
structure AtRest (r : Request ε) (c : Config Party (Shared ε) (Pc ε)) : Prop where
  /-- Unless the submission was refused by an exception, the task has been resumed once
  and has got the result. -/
  reported : r.launch = r.success ∨ r.submission = .status →
    c.shared.resumes = 1 ∧ c.loc .task = r.finish r.result
  /-- Where it was, the submitter has not resumed the task, and nobody else does. -/
  abandoned : r.launch ≠ r.success → r.submission = .exception →
    c.shared.resumes = 0 ∧ c.loc .task = .suspended ∧ c.loc .submitter = .threw r.launch

omit [DecidableEq ε] in
/-- `notify` is never stuck once the suspend point is set. -/
theorem Notify.step_isSome (ht : s.suspendPoint = true ∨ r.delivered = none) (m : Notify ε) :
    (m.step r s).isSome := by
  cases m with
  | write => rfl
  | resume => simp [Notify.step, ht]

/-- Where no step is left, the submitter has returned or been left by an exception. -/
theorem Inv.submitter_at_rest (h : Inv r c)
    (hn : next r .submitter () c.shared (c.loc .submitter) = none) :
    c.loc .submitter = .left ∨ ∃ err, c.loc .submitter = .threw err := by
  have htag := h.tag
  have hfit := h.fits .submitter
  generalize c.loc .submitter = l at hn htag hfit
  cases l with
  | left => exact .inl rfl
  | threw err => exact .inr ⟨err, rfl⟩
  | setTag | submit | check => simp [next] at hn
  | refused m =>
    have := Notify.step_isSome (htag.resolve_left nofun) m
    simp [Option.map_eq_none_iff.1 hn] at this
  | _ => exact hfit.elim

/-- Where no step is left, a callback that the runtime has is over. -/
theorem Inv.callback_at_rest (h : Inv r c) (hn : next r .callback () c.shared
    (c.loc .callback) = none) (hs : c.shared.enqueued = true) (ht : c.loc .submitter ≠ .setTag) :
    c.loc .callback = .ended := by
  have hfit := h.fits .callback
  generalize c.loc .callback = l at hn hfit
  cases l with
  | ended => rfl
  | idle => simp [next, hs] at hn
  | callback m =>
    have := Notify.step_isSome (h.tag.resolve_left ht) m
    simp [Option.map_eq_none_iff.1 hn] at this
  | _ => exact hfit.elim

/-- Where no step is left, a task that has been resumed has returned. -/
theorem Inv.task_at_rest (h : Inv r c) (hn : next r .task () c.shared (c.loc .task) = none)
    (hr : Notified r c.shared none) :
    c.shared.resumes = 1 ∧ c.loc .task = r.finish r.result := by
  obtain ⟨hstatus, hres⟩ := hr
  have hfit := h.fits .task
  generalize c.loc .task = l at hn hfit
  cases l with
  | suspended => simp [next, hres] at hn
  | _ => exact ⟨hres, hfit.2.trans (congrArg r.finish hstatus)⟩

/-- Where nobody can step, the call is at rest. -/
theorem Inv.atRest (h : Inv r c)
    (hrest : ∀ p a, Anyone c p a → c.step (next r) p a = none) : AtRest r c := by
  have hnone (p : Party) : next r p () c.shared (c.loc p) = none :=
    Option.map_eq_none_iff.1 (hrest p () trivial)
  have hfit := h.fits .submitter
  constructor
  · intro hor
    refine h.task_at_rest (hnone .task) ?_
    rcases h.submitter_at_rest (hnone .submitter) with hl | ⟨err, hl⟩
    · rw [hl] at hfit
      obtain ⟨henq, hrefused⟩ := hfit
      by_cases hacc : r.launch = r.success
      · have hs : c.shared.enqueued = true := henq.trans (decide_eq_true hacc)
        have hended := h.fits .callback
        rw [h.callback_at_rest (hnone .callback) hs (by simp [hl])] at hended
        exact hended.2
      · exact (hrefused hacc).2
    · rw [hl] at hfit
      obtain ⟨-, -, hne, hsub, -⟩ := hfit
      rcases hor with hacc | hstatus
      · exact absurd hacc hne
      · simp [hsub] at hstatus
  · intro hne hsub
    rcases h.submitter_at_rest (hnone .submitter) with hl | ⟨err, hl⟩
    · rw [hl] at hfit
      simp [(hfit.2 hne).1] at hsub
    · rw [hl] at hfit
      obtain ⟨-, rfl, -, -, hfresh⟩ := hfit
      exact ⟨hfresh.2, h.suspended hfresh.2, hl⟩

/-- **`wait_for` comes to rest.**  In whatever order the three parties step, they end.
If the submission is accepted, or refused with a status, the task has then been resumed
once and has returned or thrown what `wait_for` reports of the result.  If it is refused by
an exception, the task is left suspended. -/
theorem wait_for_comes_to_rest (h : Reachable (next r) (start r) c) :
    ComesToRest (next r) Anyone (AtRest r) c :=
  h.comesToRest (fun c => total Pc.work c.loc) (fun _ _ _ _ => trivial)
    (fun c p _ _ l _ _ hn => by
      have hw := (step_of_next hn).work
      have htotal := total_update Pc.work c.loc p l
      simp only
      omega)
    fun _ hr hrest => (inv_of_reachable hr).atRest hrest

/-- The theorem where ORT is about to accept the submission, and where it has refused it by
an exception. -/
theorem wait_for_comes_to_rest_session :
    ComesToRest (next (onnxWaitForSession none (some 1))) Anyone
        (AtRest (onnxWaitForSession none (some 1))) (start (onnxWaitForSession none (some 1))) ∧
      ∃ c, (start (onnxWaitForSession (some 2) none)).exec (next (onnxWaitForSession (some 2) none))
          (List.replicate 2 (.submitter, ())) = some c ∧ c.loc .submitter = .threw (some 2) ∧
        ComesToRest (next (onnxWaitForSession (some 2) none)) Anyone
          (AtRest (onnxWaitForSession (some 2) none)) c := by
  refine ⟨wait_for_comes_to_rest .start, _, rfl, rfl, ?_⟩
  have hreach : Reachable (next (onnxWaitForSession (some 2) none))
      (start (onnxWaitForSession (some 2) none)) _ :=
    reachable_of_exec (l := List.replicate 2 (.submitter, ())) rfl
  exact wait_for_comes_to_rest hreach

/-! ### The frame of the suspended task -/

/-- The objects of the suspended task that the other parties refer to. -/
inductive Object
  /-- the arguments of the call, which the submitter captures by reference -/
  | arguments
  | context
deriving DecidableEq, Repr

/-- The objects of the suspended task that a step of another party reads or writes. -/
def Request.touches (r : Request ε) : Pc ε → List Object
  | .setTag | .refused _ => [.context]
  | .submit => .arguments :: if r.delivered = none then [] else [.context]
  | .callback _ => if r.delivered = none then [] else [.context]
  | _ => []

/-- A step off the frame leaves the context alone and does not depend on what is there. -/
theorem next_of_touches_eq_nil {p : Party} (hp : p ≠ .task) (hl : ∀ m, l ≠ .callback m)
    (ht : r.touches l = []) (sp : Bool) (status : ε) :
    next r p () { s with suspendPoint := sp, status := status } l =
      (next r p () s l).map fun o =>
        ({ o.1 with suspendPoint := sp, status := status }, o.2) := by
  cases p with
  | task => exact absurd rfl hp
  | submitter => cases l <;> first | rfl | simp [Request.touches] at ht
  | callback =>
    cases l with
    | idle =>
      simp only [next]
      split_ifs <;> rfl
    | callback m => exact absurd rfl (hl m)
    | _ => rfl

/-- When the task has been resumed no notification is under way, and the submission has
been made. -/
theorem Inv.touches_eq_nil (h : Inv r c) (hs : 0 < c.shared.resumes) {p : Party}
    (hp : p ≠ .task) : r.touches (c.loc p) = [] ∧ ∀ m, c.loc p ≠ .callback m := by
  have hfit := h.fits p
  generalize c.loc p = l at hfit
  cases p with
  | task => exact absurd rfl hp
  | submitter =>
    cases l with
    | setTag | submit => exact absurd hfit.2.2 hs.ne'
    | refused m => exact absurd hfit.2.2.2.resumes hs.ne'
    | check | left | threw => exact ⟨rfl, nofun⟩
    | _ => exact hfit.elim
  | callback =>
    cases l with
    | callback m => exact absurd hfit.2.resumes hs.ne'
    | idle | ended => exact ⟨rfl, nofun⟩
    | _ => exact hfit.elim

/-- **Nobody uses the frame of a task that has been resumed.**  The next step of the
submitter or the callback is off the frame: it leaves the context alone and is the same
whatever has become of it. -/
theorem wait_for_keeps_off_frame (h : Reachable (next r) (start r) c) (hs : 0 < c.shared.resumes)
    {p : Party} (hp : p ≠ .task) :
    r.touches (c.loc p) = [] ∧ ∀ sp status,
      next r p () { c.shared with suspendPoint := sp, status := status } (c.loc p) =
        (next r p () c.shared (c.loc p)).map fun o =>
          ({ o.1 with suspendPoint := sp, status := status }, o.2) := by
  obtain ⟨ht, hl⟩ := (inv_of_reachable h).touches_eq_nil hs hp
  exact ⟨ht, fun sp status => next_of_touches_eq_nil hp hl ht sp status⟩

/-- The submitter sets the tag and submits, and the callback runs to its end. -/
def overtaken : List (Party × Unit) :=
  [(.submitter, ()), (.submitter, ()), (.callback, ()), (.callback, ()), (.callback, ())]

/-- The theorem where the callback has resumed the task before the submitter has seen
whether it was accepted. -/
theorem wait_for_keeps_off_frame_overtaken :
    ∃ c, (start (onnxWaitFor none (some 1))).exec (next (onnxWaitFor none (some 1))) overtaken =
        some c ∧ c.loc .submitter = .check none ∧
      (onnxWaitFor none (some 1)).touches (c.loc .submitter) = [] ∧ ∀ sp status,
        next (onnxWaitFor none (some 1)) .submitter ()
            { c.shared with suspendPoint := sp, status := status } (c.loc .submitter) =
          (next (onnxWaitFor none (some 1)) .submitter () c.shared (c.loc .submitter)).map fun o =>
            ({ o.1 with suspendPoint := sp, status := status }, o.2) := by
  refine ⟨_, rfl, rfl, ?_⟩
  have hreach : Reachable (next (onnxWaitFor none (some 1)))
      (start (onnxWaitFor none (some 1))) _ :=
    reachable_of_exec (l := overtaken) rfl
  exact wait_for_keeps_off_frame hreach Nat.zero_lt_one nofun

end Single
end WaitFor
end CoopSync
