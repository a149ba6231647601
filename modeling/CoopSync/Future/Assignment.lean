/-
# A shared state is assigned once

Once the status is final no step changes it, or the exception; the slot changes only
when `future::get` takes the value (`stable_of_reach`).  With the invariant this is
the result, `assigned_once`: at most one of the calls that race on a shared state
takes effect, the others leave everything as it is, and every `get` reports the
outcome of the one.
-/

import CoopSync.Future.Invariant

namespace CoopSync
namespace Future

open WaitQueue

variable {τ ν σ ε : Type*} [Fintype τ] [DecidableEq τ] {V : Variant ν σ}
  {c : Config τ (World τ ν σ ε) (Local τ ν ε)} {t : τ}

/-! ### A final status stays -/

omit [DecidableEq τ] in
/-- With a final status a step of a setter changes neither status, nor slot, nor
exception. -/
theorem Inv.setter_stable (h : Inv V c) (hr : c.shared.state.status.ready = true)
    {s' : SharedState τ σ ε} {w : Setter τ ν ε} {o : Option (Setter τ ν ε)}
    {e : Option (Event τ ν ε)} (hpc : c.loc t = .setter w)
    (m : SetterMove V t c.shared.state w s' o e) :
    s'.status = c.shared.state.status ∧ s'.value = c.shared.state.value ∧
      s'.exception = c.shared.state.exception := by
  cases m with
  | rejects | resumes => exact ⟨rfl, rfl, rfl⟩
  | claims he | settles he =>
    rw [he] at hr
    simp [Status.ready] at hr
  | writes hw | publishes hw =>
    rw [h.transition (t := t) (by rw [hpc]; exact hw)] at hr
    simp [Status.ready] at hr

/-- With a final status no step changes status or exception, and only the `get` that
releases the future takes the value. -/
theorem Inv.stable_step (h : Inv V c) (hr : c.shared.state.status.ready = true) {a : Act ν ε}
    {w : World τ ν σ ε} {l : Local τ ν ε}
    (hn : next V t a c.shared (c.loc t) = some (w, l)) :
    w.state.status = c.shared.state.status ∧ w.state.exception = c.shared.state.exception ∧
      (w.handle ≠ .released → w.state.value = c.shared.state.value ∧
        c.shared.handle ≠ .released) := by
  cases hpc : c.loc t with
  | idle =>
    cases a with
    | step thrown => simp [hpc, next] at hn
    | call op =>
      rw [hpc] at hn
      have he : op.enter t c.shared = some (w, l) := hn
      have hobt := h.obtained
      cases op with
      | set call =>
        obtain ⟨rfl, rfl⟩ := by simpa [Op.enter] using he
        exact ⟨rfl, rfl, fun hne => ⟨rfl, hne⟩⟩
      | getFuture =>
        simp only [Op.enter, SharedState.markFutureObtained] at he
        split_ifs at he with hf
        · obtain ⟨rfl, rfl⟩ := by simpa using he
          exact ⟨rfl, rfl, fun hne => ⟨rfl, hne⟩⟩
        · obtain ⟨rfl, rfl⟩ := by simpa using he
          exact ⟨rfl, rfl, fun _ => ⟨rfl, by simp [hobt (by simpa using hf)]⟩⟩
      | share =>
        obtain ⟨hf, rfl, rfl⟩ := by simpa [Op.enter] using he
        exact ⟨rfl, rfl, fun _ => ⟨rfl, by simp [hf]⟩⟩
      | get kind =>
        cases kind <;> obtain ⟨hf, rfl, rfl⟩ := by simpa [Op.enter] using he
        all_goals exact ⟨rfl, rfl, fun _ => ⟨rfl, by simp [hf]⟩⟩
  | setter s =>
    cases a with
    | call op => simp [hpc, next] at hn
    | step thrown =>
      rw [hpc] at hn
      obtain ⟨⟨s', o, e⟩, hs, he⟩ := Option.map_eq_some_iff.1 hn
      obtain ⟨rfl, rfl⟩ := by simpa using he
      have hok : s.Ok V c.shared.state := by
        have := h.locals t
        rwa [hpc] at this
      obtain ⟨hs, hv, he⟩ := h.setter_stable hr hpc (s.step_move h.untouched hok hs)
      exact ⟨hs, he, fun hne => ⟨hv, hne⟩⟩
  | getter kind g =>
    cases a with
    | call op => simp [hpc, next] at hn
    | step thrown =>
      have hh : c.shared.handle ≠ .released := by
        rw [h.handle_of_getter hpc]
        cases kind <;> simp
      rw [hpc] at hn
      obtain ⟨⟨w', o⟩, hg, he⟩ := Option.map_eq_some_iff.1 hn
      obtain ⟨rfl, rfl⟩ := by simpa using he
      cases g with
      | wait p =>
        obtain ⟨⟨s, q, r⟩, hs, he⟩ := Option.map_eq_some_iff.1 hg
        obtain ⟨rfl, rfl⟩ := by simpa using he
        exact ⟨rfl, rfl, fun _ => ⟨rfl, hh⟩⟩
      | loadState =>
        simp only [Get.step] at hg
        split at hg <;> obtain ⟨rfl, rfl⟩ := by simpa using hg
        all_goals exact ⟨rfl, rfl, fun _ => ⟨rfl, hh⟩⟩
      | readException =>
        obtain ⟨rfl, rfl⟩ := by simpa [Get.step] using hg
        exact ⟨rfl, rfl, fun _ => ⟨rfl, hh⟩⟩
      | readValue =>
        cases kind <;> obtain ⟨rfl, rfl⟩ := by simpa [Get.step] using hg
        · exact ⟨rfl, rfl, fun hne => absurd rfl hne⟩
        · exact ⟨rfl, rfl, fun _ => ⟨rfl, hh⟩⟩

/-- What a final status stands for does not change in a run. -/
theorem stable_of_reach {c' : Config τ (World τ ν σ ε) (Local τ ν ε)}
    (h : Reachable (next V) (Future.start V τ ε) c) (hr : c.shared.state.status.ready = true)
    (h' : Reachable (next V) c c') :
    c'.shared.state.status = c.shared.state.status ∧
      c'.shared.state.exception = c.shared.state.exception ∧
      (c'.shared.handle ≠ .released → c'.shared.state.value = c.shared.state.value) := by
  refine h'.invariant (I := fun c' => c'.shared.state.status = c.shared.state.status ∧
    c'.shared.state.exception = c.shared.state.exception ∧
    (c'.shared.handle ≠ .released → c'.shared.state.value = c.shared.state.value))
    ⟨rfl, rfl, fun _ => rfl⟩ fun c₁ t a w l hr₁ ih _ hn => ?_
  have hI := inv_of_reach (h.trans hr₁)
  obtain ⟨hs, he, hv⟩ := hI.stable_step (by rw [ih.1]; exact hr) hn
  refine ⟨hs.trans ih.1, he.trans ih.2.1, fun hne => ?_⟩
  obtain ⟨hval, hne₁⟩ := hv hne
  exact hval.trans (ih.2.2 hne₁)

/-! ### The result -/

/-- What it means that the shared state of configuration `c` is assigned at most
once. -/
structure AssignedOnce (V : Variant ν σ) (c : Config τ (World τ ν σ ε) (Local τ ν ε)) :
    Prop where
  /-- At most one call has succeeded in its exchange: it is writing, or has stored its
  status. -/
  once : total Local.writing c.loc + c.shared.history.countP Event.isEffective ≤ 1
  /-- A call that finds the status taken ends there, and all it leaves is the record
  that it threw, or did not. -/
  rejects : ∀ t call thrown, c.loc t = .setter (.exchange call) →
    c.shared.state.status ≠ .empty →
    c.step (next V) t (.step thrown) = some
      ⟨{ c.shared with history := .rejected t call call.rejection :: c.shared.history },
        Function.update c.loc t .idle⟩
  /-- The calls that did not take effect threw `promise_already_satisfied`, or, for
  `break_promise`, nothing. -/
  threw : ∀ t call thrown, .rejected t call thrown ∈ c.shared.history →
    thrown = call.rejection
  /-- A final status says what a call has made of the promise, and what it wrote. -/
  written : c.shared.state.status.ready = true → ∃ t call o,
    .effective t call o ∈ c.shared.history ∧ call.Yields V o ∧
      o.Stands V c.shared.handle c.shared.state
  /-- No step of a set or break call changes what stands. -/
  kept : c.shared.state.status.ready = true → ∀ t w thrown c', c.loc t = .setter w →
    c.step (next V) t (.step thrown) = some c' →
    c'.shared.state.status = c.shared.state.status ∧
      c'.shared.state.value = c.shared.state.value ∧
      c'.shared.state.exception = c.shared.state.exception
  /-- Nor does any run, but for the value that the future was released with. -/
  stable : c.shared.state.status.ready = true → ∀ c', Reachable (next V) c c' →
    c'.shared.state.status = c.shared.state.status ∧
      c'.shared.state.exception = c.shared.state.exception ∧
      (c'.shared.handle ≠ .released → c'.shared.state.value = c.shared.state.value)
  /-- What a `get` has reported is the outcome of the call that took effect. -/
  got : ∀ t report, .got t report ∈ c.shared.history → ∃ u call o,
    .effective u call o ∈ c.shared.history ∧ report = some o
  /-- And a `get` that finds a final status reports after at most three steps. -/
  reports : c.shared.state.status.ready = true → ∀ t kind,
    c.loc t = .getter kind (.wait .fastPath) → ∃ n ≤ 3, ∃ c' u call o,
      c.exec (next V) (List.replicate n (t, .step none)) = some c' ∧ c'.loc t = .idle ∧
      .effective u call o ∈ c.shared.history ∧
      c'.shared.history = .got t (some o) :: c.shared.history

/-- A getter that waits on a ready state reports its outcome within three steps. -/
theorem Inv.reports (h : Inv V c) (hr : c.shared.state.status.ready = true) {kind : FutureKind}
    (hpc : c.loc t = .getter kind (.wait .fastPath)) :
    ∃ n ≤ 3, ∃ c' u call o,
      c.exec (next V) (List.replicate n (t, .step none)) = some c' ∧ c'.loc t = .idle ∧
      .effective u call o ∈ c.shared.history ∧
      c'.shared.history = .got t (some o) :: c.shared.history := by
  obtain ⟨u, call, o, hmem, -, hs⟩ := h.exists_effective hr
  have hh := h.handle_of_getter hpc
  -- the predicate of `wait` is false, and the status is read
  have hwait : c.step (next V) t (.step none) =
      some ⟨c.shared, Function.update c.loc t (.getter kind .loadState)⟩ := by
    simp [Config.step, next, hpc, Get.step, WaitIf.stepWith, WaitIf.evaluates, WaitIf.step,
      notReady, hr]
  have hsecond : ∀ w : World τ ν σ ε, Get.loadState.step V t kind c.shared = some (w, none) →
      c.exec (next V) (List.replicate 2 (t, .step none)) =
        some ⟨w, Function.update c.loc t .idle⟩ := by
    intro w hw
    refine (Config.exec_cons hwait _).trans ((Config.exec_cons ?_ _).trans rfl)
    simp [Config.step, next, hw]
  have hthird : ∀ (g : Get τ) (w : World τ ν σ ε),
      Get.loadState.step V t kind c.shared = some (c.shared, some g) →
      g.step V t kind c.shared = some (w, none) →
      c.exec (next V) (List.replicate 3 (t, .step none)) =
        some ⟨w, Function.update c.loc t .idle⟩ := by
    intro g w hg hw
    have hload : Config.step (next V) ⟨c.shared, Function.update c.loc t (.getter kind .loadState)⟩
        t (.step none) = some ⟨c.shared, Function.update c.loc t (.getter kind g)⟩ := by
      simp [Config.step, next, hg]
    refine (Config.exec_cons hwait _).trans ((Config.exec_cons hload _).trans
      ((Config.exec_cons ?_ _).trans rfl))
    simp [Config.step, next, hw]
  cases o with
  | broken =>
    have hst : c.shared.state.status = .broken := hs
    have hload : Get.loadState.step V t kind c.shared = some ({ c.shared with
        handle := kind.restore c.shared.handle
        history := .got t (some .broken) :: c.shared.history }, none) := by
      simp [Get.step, hst]
    exact ⟨2, by omega, _, u, call, .broken, hsecond _ hload, Function.update_self .., hmem, rfl⟩
  | value v =>
    have hread : V.read c.shared.state.value = some v :=
      hs.2 (by rw [hh]; cases kind <;> simp)
    cases kind with
    | future =>
      refine ⟨3, le_rfl, _, u, call, .value v, hthird .readValue _ ?_ rfl,
        Function.update_self .., hmem, ?_⟩
      · simp [Get.step, hs.1]
      · simp [hread]
    | sharedFuture =>
      refine ⟨3, le_rfl, _, u, call, .value v, hthird .readValue _ ?_ rfl,
        Function.update_self .., hmem, ?_⟩
      · simp [Get.step, hs.1]
      · simp [hread]
  | exception e =>
    refine ⟨3, le_rfl, _, u, call, .exception e, hthird .readException _ ?_ rfl,
      Function.update_self .., hmem, ?_⟩
    · simp [Get.step, hs.1]
    · simp [hs.2]

/-- The result for any variant. -/
theorem AssignedOnce.of_reach (h : Reachable (next V) (Future.start V τ ε) c) :
    AssignedOnce V c := by
  have hI := inv_of_reach h
  refine ⟨?_, ?_, fun t call thrown hmem => hI.events _ hmem, hI.exists_effective, ?_,
    fun hr c' h' => stable_of_reach h hr h', ?_,
    fun hr t kind hpc => hI.reports hr hpc⟩
  · rw [hI.writing, hI.effective]
    cases c.shared.state.status <;> simp [Status.ready]
  · intro t call thrown hpc hne
    simp [Config.step, next, hpc, Setter.step, hne]
  · intro hr t w thrown c' hpc hs
    obtain ⟨w', l, hn, rfl⟩ := Config.step_eq_some.1 hs
    rw [hpc] at hn
    obtain ⟨⟨s', o, e⟩, hw, he⟩ := Option.map_eq_some_iff.1 hn
    obtain ⟨rfl, rfl⟩ := by simpa using he
    have hok : w.Ok V c.shared.state := by
      have := hI.locals t
      rwa [hpc] at this
    exact hI.setter_stable hr hpc (w.step_move hI.untouched hok hw)
  · intro t report hmem
    exact hI.events _ hmem

/-- **A shared state is assigned at most once**, for all three variants: whatever any
tasks do on it, and whatever constructing a value throws. -/
theorem assigned_once (τ ν ε : Type*) [Fintype τ] [DecidableEq τ] :
    (∀ c, Reachable (next (sharedState ν)) (Future.start (sharedState ν) τ ε) c →
      AssignedOnce (sharedState ν) c) ∧
    (∀ c, Reachable (next (sharedStateRef ν)) (Future.start (sharedStateRef ν) τ ε) c →
      AssignedOnce (sharedStateRef ν) c) ∧
    ∀ c, Reachable (next sharedStateVoid) (Future.start sharedStateVoid τ ε) c →
      AssignedOnce sharedStateVoid c :=
  ⟨fun _ h => .of_reach h, fun _ h => .of_reach h, fun _ h => .of_reach h⟩

/-- Task 0 gets the future and waits in `get`; task 1 sets a value whose construction
throws 7, while `set_exception` of task 2 is rejected and `break_promise` of task 3
does nothing; task 0 then reads the exception. -/
def throwingConstructor : List (Fin 4 × Act ℕ ℕ) :=
  turns [(0, 1, .call .getFuture), (0, 1, .call (.get .future)), (0, 6, .step none),
    (1, 1, .call (.set (.setValue 5))), (1, 1, .step none),
    (2, 1, .call (.set (.setException 8))), (2, 1, .step none),
    (3, 1, .call (.set .breakPromise)), (3, 1, .step none),
    (1, 3, .step (some 7)), (1, 6, .step none), (0, 3, .step none)]

/-- The exception the constructor threw is what `get` reports. -/
theorem assigned_once_throwing :
    ∃ c, (Future.start (sharedState ℕ) (Fin 4) ℕ).exec (next (sharedState ℕ)) throwingConstructor =
      some c ∧
      c.shared.history = [.got 0 (some (.exception 7)), .effective 1 (.setValue 5) (.exception 7),
        .rejected 3 .breakPromise none,
        .rejected 2 (.setException 8) (some .promiseAlreadySatisfied)] ∧
      AssignedOnce (sharedState ℕ) c := by
  refine ⟨_, rfl, rfl, ?_⟩
  have hreach : Reachable (next (sharedState ℕ)) (Future.start (sharedState ℕ) (Fin 4) ℕ) _ :=
    reachable_of_exec (l := throwingConstructor) rfl
  exact (assigned_once (Fin 4) ℕ ℕ).1 _ hreach

end Future
end CoopSync
