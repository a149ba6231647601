/-
# The calls on a shared state, run alone

`Promise.Model` takes a call on the shared state as one step.  Here the calls of
`Future.Model`, whose accesses to shared memory are steps of their own, are run to
their end by one task while nobody else moves and nobody holds the queue's lock.
What they leave behind, as far as the providers see it (`State.of`), is what the
function of `Promise.Model` gives (`call_alone`), and so it is with `get_future`
(`getFuture_of`).
-/

import CoopSync.Promise.Model

namespace CoopSync
namespace Promise

open Future WaitQueue

variable {τ ν σ ε : Type*}

/-- What the providers see of a shared state to which `futures` futures refer. -/
def State.of (s : SharedState τ σ ε) (futures : ℕ) : State τ :=
  ⟨s.status, s.futureObtained, futures, s.waiters.waiters.map SuspendPoint.task⟩

/-- A call as one step; `throws` if constructing the value throws. -/
def State.call (st : State τ) (throws : Bool) : Call ν ε → Except FutureErrc (State τ)
  | .setValue _ => st.setValue throws
  | .setException _ => st.setException
  | .breakPromise => .ok st.breakPromise

variable [DecidableEq τ] {V : Variant ν σ} {t : τ} {thrown : Option ε}
  {s s' : SharedState τ σ ε} {c : Config τ (Future.World τ ν σ ε) (Local τ ν ε)}

/-- The steps of a setter of task `t`, from `w` to the end of the call, with the
history before and after. -/
inductive Runs (V : Variant ν σ) (t : τ) (thrown : Option ε) :
    SharedState τ σ ε → List (Event τ ν ε) → Setter τ ν ε → SharedState τ σ ε →
      List (Event τ ν ε) → Prop
  | last {s w s' e h} (hs : Setter.step V t thrown s w = some (s', none, e)) :
      Runs V t thrown s h w s' (e.toList ++ h)
  | head {s w s₁ w₁ e s' h h'} (hs : Setter.step V t thrown s w = some (s₁, some w₁, e))
      (hr : Runs V t thrown s₁ (e.toList ++ h) w₁ s' h') : Runs V t thrown s h w s' h'

/-- Task `t` alone runs its call to the end. -/
theorem Runs.solo {w : Setter τ ν ε} {h h' : List (Event τ ν ε)}
    (hr : Runs V t thrown s h w s' h') (hs : c.shared.state = s) (hh : c.shared.history = h)
    (hpc : c.loc t = .setter w) :
    Solo (Future.next V) t (.step thrown) c
      ⟨{ c.shared with state := s', history := h' }, Function.update c.loc t .idle⟩ := by
  induction hr generalizing c with
  | last hw =>
    refine .head ?_ .refl
    simp [Config.step, Future.next, hpc, hs, hh, hw]
  | @head s w s₁ w₁ e s' h h' hw hr ih =>
    have hstep : c.step (Future.next V) t (.step thrown) =
        some ⟨{ c.shared with state := s₁, history := e.toList ++ h },
          Function.update c.loc t (.setter w₁)⟩ := by
      simp [Config.step, Future.next, hpc, hs, hh, hw]
    refine .head hstep ?_
    simpa using ih (c := ⟨_, Function.update c.loc t (.setter w₁)⟩) rfl rfl
      (Function.update_self ..)

/-- `resume_all` run to its end, on a free lock. -/
def resumedAll (s : SharedState τ σ ε) : SharedState τ σ ε :=
  { s with waiters := { s.waiters with
    waitersMutex := none, waiters := [], resumed := s.waiters.waiters.reverse ++ s.waiters.resumed } }

variable {h : List (Event τ ν ε)}

omit [DecidableEq τ] in
/-- `do_resume_all` resumes its list in order. -/
theorem Runs.doResumeAll (l : List (SuspendPoint τ)) (s : SharedState τ σ ε) :
    Runs V t thrown s h (.resumeAll (.doResumeAll (.popFront l)))
      { s with waiters := { s.waiters with resumed := l.reverse ++ s.waiters.resumed } } h := by
  induction l generalizing s with
  | nil => exact .last (e := none) rfl
  | cons sp rest ih =>
    refine .head (e := none) rfl (.head (e := none) rfl ?_)
    simpa [Queue.resume, DoResumeAll.step] using ih { s with waiters := s.waiters.resume sp }

omit [DecidableEq τ] in
/-- `resume_all` takes the list and resumes it. -/
theorem Runs.resumeAll (hlock : s.waiters.waitersMutex = none) :
    Runs V t thrown s h (.resumeAll .lock) (resumedAll s) h := by
  obtain ⟨⟨m, l, resumed, suspends⟩, status, futureObtained, value, exception⟩ := s
  obtain rfl : m = none := hlock
  refine .head (e := none) rfl ?_
  refine .head (e := none) rfl ?_
  refine .head (e := none) rfl ?_
  exact .doResumeAll l _

section Empty

/-! ### The calls on an empty state -/

variable (he : s.status = .empty) (hlock : s.waiters.waitersMutex = none)
include he hlock

omit [DecidableEq τ]

/-- `break_promise` on an empty state breaks it and resumes the waiters. -/
theorem Runs.breakPromise : Runs V t thrown s h (.exchange .breakPromise)
    (resumedAll { s with status := .broken }) (.effective t .breakPromise .broken :: h) := by
  refine .head (e := some (.effective t .breakPromise .broken))
    (by rw [Setter.step, if_pos he]) ?_
  exact .resumeAll hlock

/-- `set_exception` stores it and resumes the waiters. -/
theorem Runs.setException (p : ε) : Runs V t thrown s h (.exchange (.setException p))
    (resumedAll { s with status := .exception, exception := some p })
    (.effective t (.setException p) (.exception p) :: h) := by
  refine .head (e := none) (by rw [Setter.step, if_pos he]) ?_
  refine .head (e := none) rfl ?_
  refine .head (e := some (.effective t (.setException p) (.exception p))) rfl ?_
  exact .resumeAll hlock

/-- The constructor throws. -/
theorem Runs.setValue_throws (hV : V.throws = true) (v : ν) (x : ε) :
    Runs V t (some x) s h (.exchange (.setValue v))
      (resumedAll { s with status := .exception, exception := some x })
      (.effective t (.setValue v) (.exception x) :: h) := by
  have hd : V.desired = .transition := V.desired_eq.resolve_right fun hd => by simp [hV] at hd
  refine .head (e := none) (by rw [Setter.step, if_pos he, if_neg (by simp [hd]), hd]) ?_
  refine .head (e := none) (by simp only [Setter.step, hV]; rfl) ?_
  refine .head (e := none) rfl ?_
  refine .head (e := some (.effective t (.setValue v) (.exception x))) rfl ?_
  exact .resumeAll hlock

/-- The value is written. -/
theorem Runs.setValue (hV : (V.throws && thrown.isSome) = false) (v : ν) :
    ∃ value, Runs V t thrown s h (.exchange (.setValue v))
      (resumedAll { s with status := .value, value := value })
      (.effective t (.setValue v) (.value v) :: h) := by
  rcases V.desired_eq with hd | ⟨hd, -, -⟩
  · have hconstruct : ∀ s₁ : SharedState τ σ ε, (Setter.construct v).step V t thrown s₁ =
        some ({ s₁ with value := V.construct v s₁.value },
          some (if V.mark.isSome then .mark v else .storeValue v), none) := by
      intro s₁
      cases hthrows : V.throws <;> cases thrown <;> simp_all [Setter.step]
    cases hm : V.mark with
    | some mark =>
      simp only [hm, Option.isSome_some, if_true] at hconstruct
      refine ⟨V.mark.getD id (V.construct v s.value), ?_⟩
      refine .head (e := none) (by rw [Setter.step, if_pos he, if_neg (by simp [hd]), hd]) ?_
      refine .head (e := none) (hconstruct _) ?_
      refine .head (e := none) rfl ?_
      refine .head (e := some (.effective t (.setValue v) (.value v))) rfl ?_
      exact .resumeAll hlock
    | none =>
      simp only [hm, Option.isSome_none, Bool.false_eq_true, if_false] at hconstruct
      refine ⟨V.construct v s.value, ?_⟩
      refine .head (e := none) (by rw [Setter.step, if_pos he, if_neg (by simp [hd]), hd]) ?_
      refine .head (e := none) (hconstruct _) ?_
      refine .head (e := some (.effective t (.setValue v) (.value v))) rfl ?_
      exact .resumeAll hlock
  · refine ⟨s.value, ?_⟩
    refine .head (e := some (.effective t (.setValue v) (.value v)))
      (by rw [Setter.step, if_pos he, if_pos hd]) ?_
    exact .resumeAll hlock

end Empty

omit [DecidableEq τ] in
/-- **A call run alone is one step of the providers' model.** -/
theorem runs_call (call : Call ν ε) (hlock : s.waiters.waitersMutex = none) (futures : ℕ) :
    ∃ s' h', Runs V t thrown s h (.exchange call) s' h' ∧
      match (State.of s futures).call (V.throws && thrown.isSome) call with
      | .ok st => State.of s' futures = st
      | .error errc => s' = s ∧ h' = .rejected t call (some errc) :: h := by
  by_cases he : s.status = .empty
  · cases call with
    | setValue v =>
      cases hV : V.throws && thrown.isSome with
      | false =>
        obtain ⟨value, hr⟩ := Runs.setValue (t := t) (h := h) he hlock hV v
        exact ⟨_, _, hr, by
          simp [State.call, State.setValue, State.satisfy, State.of, he, resumedAll]⟩
      | true =>
        obtain ⟨hthrows, hsome⟩ := Bool.and_eq_true_iff.1 hV
        obtain ⟨x, rfl⟩ := Option.isSome_iff_exists.1 hsome
        exact ⟨_, _, .setValue_throws he hlock hthrows v x,
          by simp [State.call, State.setValue, State.satisfy, State.of, he, resumedAll]⟩
    | setException p =>
      exact ⟨_, _, .setException he hlock p,
        by simp [State.call, State.setException, State.satisfy, State.of, he, resumedAll]⟩
    | breakPromise =>
      exact ⟨_, _, .breakPromise he hlock,
        by simp [State.call, State.breakPromise, State.of, he, resumedAll]⟩
  · refine ⟨s, _, .last (e := some (.rejected t call call.rejection))
      (by simp [Setter.step, he]), ?_⟩
    cases call <;> simp [State.call, State.setValue, State.setException, State.satisfy,
      State.breakPromise, State.of, he, Call.rejection]

/-- The same of a configuration: the task returns from its call, and the shared state is
what the providers' model says, or as it was. -/
theorem call_alone {call : Call ν ε} (hpc : c.loc t = .setter (.exchange call))
    (hlock : c.shared.state.waiters.waitersMutex = none) (thrown : Option ε) (futures : ℕ) :
    ∃ c', Solo (Future.next V) t (.step thrown) c c' ∧ c'.loc = Function.update c.loc t .idle ∧
      match (State.of c.shared.state futures).call (V.throws && thrown.isSome) call with
      | .ok st => State.of c'.shared.state futures = st
      | .error errc => c'.shared.state = c.shared.state ∧
          c'.shared.history = .rejected t call (some errc) :: c.shared.history := by
  obtain ⟨s', h', hr, hst⟩ := runs_call call hlock futures
  exact ⟨_, hr.solo rfl rfl hpc, rfl, hst⟩

omit [DecidableEq τ] in
/-- `get_future` on both levels. -/
theorem getFuture_of (s : SharedState τ σ ε) (futures : ℕ) :
    (State.of s futures).getFuture =
      s.markFutureObtained.map fun s' => State.of s' (futures + 1) := by
  cases hs : s.futureObtained <;>
    simp [State.of, State.getFuture, SharedState.markFutureObtained, hs, Except.map]

end Promise
end CoopSync
