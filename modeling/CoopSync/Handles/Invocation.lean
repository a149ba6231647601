/-
# How often a callable runs

`packaged_task::operator()` runs the callable first; that the shared state is satisfied
already is noticed by the call on it that follows, which throws.  How often a callable was
run for a state and whether the state is still empty go together (`Counts`), so the
callable is run once for a state exactly if `operator()` is called on no satisfied one.
-/

import CoopSync.Handles.Readers

namespace CoopSync
namespace Handles

open Future Owners

variable {τ κ ν σ ε : Type*} {V : Variant ν σ} {w w' : World κ ν σ ε}

/-! ### The count of a task -/

/-- A valid task has a callable, and the state is empty until the first run of it has
returned. -/
structure Counts (st : State ν σ ε) (x : Object κ) : Prop where
  function : x.function.isSome = true
  idle : x.running ≠ some .callable → (st.status = .empty ↔ st.runs = 0)
  runs : x.running = some .callable → 1 ≤ st.runs ∧ (st.status = .empty ↔ st.runs = 1)

/-- What holds of the handle `o` if it is a valid `packaged_task`. -/
def Task (w : World κ ν σ ε) (o : ℕ) : Prop :=
  ∀ x s, w.objects o = some x → x.kind = .packagedTask → x.state = some s →
    Counts (w.states s) x

/-- The count depends on the status, the runs and what the task does only. -/
theorem Counts.congr {st st' : State ν σ ε} {x x' : Object κ} (h : Counts st x)
    (hs : st'.status = st.status) (hr : st'.runs = st.runs) (hf : x'.function = x.function)
    (hx : x'.running = some .callable ↔ x.running = some .callable) : Counts st' x' where
  function := hf ▸ h.function
  idle hn := by rw [hs, hr]; exact h.idle (mt hx.2 hn)
  runs hc := by rw [hs, hr]; exact h.runs (hx.1 hc)

namespace Task

variable {o o' s : ℕ} {x : Object κ} {st : State ν σ ε}

/-- A change of another handle leaves a task. -/
theorem setObject_ne {x : Option (Object κ)} (hne : o' ≠ o) (h : Task w o') :
    Task (w.setObject o x) o' := by
  intro y s hy
  change Function.update w.objects o x o' = some y at hy
  rw [Function.update_of_ne hne] at hy
  exact h y s hy

/-- A task may be put where its count is right. -/
theorem setObject_self (h : x.kind = .packagedTask → ∀ s, x.state = some s →
    Counts (w.states s) x) : Task (w.setObject o (some x)) o := by
  intro y s hy hk hs
  change Function.update w.objects o (some x) o = some y at hy
  rw [Function.update_self] at hy
  obtain rfl := Option.some.inj hy
  exact h hk s hs

/-- A change of a state that keeps status and runs leaves a task. -/
theorem setState_congr (h : Task w o) (hst : st.status = (w.states s).status)
    (hr : st.runs = (w.states s).runs) : Task (w.setState s st) o := by
  intro y s' hy hk hs'
  have hc := h y s' hy hk hs'
  rcases eq_or_ne s' s with rfl | hne
  · refine hc.congr ?_ ?_ rfl Iff.rfl
    · simpa [World.setState] using hst
    · simpa [World.setState] using hr
  · simpa [World.setState, hne] using hc

/-- Another provider does not refer to the state of a provider. -/
theorem setState_ne (h : Task w o') (hR : Exclusive (w.refs Kind.provides))
    (hx : w.objects o = some x) (hp : x.kind.provides = true) (hs : x.state = some s)
    (hne : o' ≠ o) : Task (w.setState s st) o' := by
  intro y s' hy hk hs'
  have hc := h y s' hy hk hs'
  have hss : s' ≠ s := by
    rintro rfl
    refine hne (hR _ _ s' (refs_eq_some.2 ⟨y, hy, ?_, hs'⟩)
      (refs_eq_some.2 ⟨x, hx, hp, hs⟩))
    rw [hk]
    rfl
  simpa [World.setState, hss] using hc

/-- Breaking the promise of another provider leaves a task. -/
theorem breakPromise_ne (h : Task w o') (hR : Exclusive (w.refs Kind.provides))
    (hx : w.objects o = some x) (hp : x.kind.provides = true) (hne : o' ≠ o) :
    Task (w.breakPromise x.state) o' := by
  cases hs : x.state with
  | none => exact h
  | some s => exact h.setState_ne hR hx hp hs hne

/-- Allocating a state leaves a task. -/
theorem makeShared (h : Task w o) (hR : Referred V w) : Task (w.makeShared V) o := by
  intro y s hy hk hs
  have hlt := hR.lt hy hs
  simpa [World.makeShared, hlt.ne] using h y s hy hk hs

end Task

/-- All handles but one are as they should be, and that one is replaced. -/
theorem task_setObject {o : ℕ} {x : Object κ} (h : ∀ o', o' ≠ o → Task w o')
    (hx : x.kind = .packagedTask → ∀ s, x.state = some s → Counts (w.states s) x) (o' : ℕ) :
    Task (w.setObject o (some x)) o' := by
  rcases eq_or_ne o' o with rfl | hne
  · exact .setObject_self hx
  · exact (h o' hne).setObject_ne hne

/-- Destroying a handle leaves the other tasks. -/
theorem task_erase {o : ℕ} (h : ∀ o', o' ≠ o → Task w o') (o' : ℕ) :
    Task (w.setObject o none) o' := by
  rcases eq_or_ne o' o with rfl | hne
  · intro y s hy
    change Function.update w.objects o' none o' = some y at hy
    simp at hy
  · exact (h o' hne).setObject_ne hne

/-- So does leaving a task without a state. -/
theorem task_clear {o : ℕ} {x : Object κ} (h : ∀ o', o' ≠ o → Task w o')
    (hx : x.kind = .packagedTask → x.state = none) (o' : ℕ) :
    Task (w.setObject o (some x)) o' :=
  task_setObject h (fun hk s hs => by simp [hx hk] at hs) o'

/-- A call on a handle goes on, and is no callable before or after. -/
theorem task_run {o : ℕ} {x : Object κ} {r : Option Running} (h : ∀ o, Task w o)
    (hx : w.objects o = some x) (hr : x.running ≠ some .callable) (hr' : r ≠ some .callable)
    (o' : ℕ) : Task (w.run o x r) o' :=
  task_setObject (fun o' _ => h o')
    (fun hk s hs => by
      refine (h o x s hx hk hs).congr rfl rfl ?_ ?_
      · rfl
      · exact iff_of_false hr' hr) o'

/-- Every operation leaves every task with its count. -/
theorem Step.task {op : Op κ ν ε} (hs : Step V w op w') (hR : Referred V w) (hS : Slots V w)
    (h : ∀ o, Task w o) : ∀ o, Task w' o := by
  cases hs with
  | stay => exact h
  | construct ho hk =>
    refine task_setObject (fun o' _ => (h o').makeShared hR) ?_
    rintro rfl s hs
    obtain rfl := Option.some.inj hs
    rcases hk with ⟨hk, -⟩ | ⟨-, hf⟩
    · exact absurd hk (by decide)
    · refine ⟨Option.isSome_iff_ne_none.2 hf, fun _ => ?_, fun hc => absurd hc (by simp)⟩
      simp [World.makeShared, State.init]
  | constructInvalid ho => exact task_clear (fun o' _ => h o') fun _ => rfl
  | moveConstruct ho hy =>
    obtain ⟨hy, hr⟩ := idle_eq_some.1 hy
    refine task_setObject (fun o' _ => ?_) fun hk s hs => ?_
    · exact task_clear (fun o' _ => h o') (fun _ => rfl) o'
    · exact (h _ _ s hy hk hs).congr rfl rfl rfl Iff.rfl
  | @moveAssign _ o src x y hx hy hk =>
    obtain ⟨hx, hrx⟩ := idle_eq_some.1 hx
    obtain ⟨hy, hry⟩ := idle_eq_some.1 hy
    unfold World.moveAssign
    split_ifs with heq hpt
    · exact h
    · have hbreak : ∀ o', o' ≠ o → Task (w.breakPromise x.state) o' := fun o' hne =>
        (h o').breakPromise_ne hR.providers hx (by rw [hpt]; rfl) hne
      have hsrc := hbreak src (Ne.symm heq)
      refine task_setObject (fun o' hne => ?_) fun _ s hs => ?_
      · rcases eq_or_ne o' src with rfl | hne'
        · exact .setObject_self fun _ s hs => by simp at hs
        · exact (hbreak o' hne).setObject_ne hne'
      · have hc := hsrc y s (by rwa [objects_breakPromise]) (hk ▸ hpt) hs
        exact hc.congr rfl rfl rfl (by simp [hrx, hry])
    · refine task_setObject (fun o' _ => ?_) fun hk' => absurd hk' hpt
      exact task_clear (fun o' _ => h o') (fun _ => rfl) o'
  | copyConstruct ho hy hk =>
    exact task_setObject (fun o' _ => h o') fun hk' => by simp [hk] at hk'
  | copyAssign hx hy hkx hky =>
    refine task_setObject (fun o' _ => h o') fun hk' => ?_
    simp [hkx] at hk'
  | @swap _ a b x y hx hy hk hp =>
    obtain ⟨hx, hrx⟩ := idle_eq_some.1 hx
    obtain ⟨hy, hry⟩ := idle_eq_some.1 hy
    refine task_setObject (fun o' _ => ?_) fun hk' s hs => ?_
    · refine task_setObject (fun o' _ => h o') (fun hk' s hs => ?_) o'
      exact (h b y s hy (hk ▸ hk') hs).congr rfl rfl rfl (by simp [hrx, hry])
    · exact (h a x s hx (hk.trans hk') hs).congr rfl rfl rfl (by simp [hrx, hry])
  | @getFuture _ o dst x s hx hd hp hs hf =>
    refine task_setObject (fun o' _ => ?_) fun hk' => by simp at hk'
    exact (h o').setState_congr rfl rfl
  | @satisfies _ o x s st hx hs hk hst =>
    have hrun := (hS.objects o x hx).running
    have hp : x.kind.provides = true := by
      rcases hk with hk | hk | ⟨hk, -⟩
      · simp [hk, Kind.provides]
      · simp only [hk] at hrun
        simp [hrun, Kind.provides]
      · simp [hk, Kind.provides]
    refine task_setObject (fun o' hne => (h o').setState_ne hR.providers hx hp hs hne)
      fun hk' s' hs' => ?_
    obtain rfl := Option.some.inj (hs.symm.trans hs')
    have hc := h o x s hx hk' hs
    -- only a callable that has returned gets here: a valid task has one
    have hcall : x.running = some .callable := by
      rcases hk with hk | hk | ⟨-, -, hf⟩
      · rw [hk] at hk'
        exact absurd hk' (by decide)
      · exact hk
      · have := hc.function
        simp [hf] at this
    have hne : st.status ≠ .empty := by cases hst <;> simp
    have hruns := (hc.runs hcall).1
    refine ⟨hc.function, fun _ => ?_, fun hc' => absurd hc' (by simp)⟩
    rw [show ((w.setState s st).states s) = st from Function.update_self .., hst.runs]
    exact iff_of_false hne (by omega)
  | @rejects _ o x s hx hs hr hst =>
    refine task_setObject (fun o' _ => h o') fun hk' s' hs' => ?_
    obtain rfl := Option.some.inj (hs.symm.trans hs')
    have hc := h o x s hx hk' hs
    refine ⟨hc.function, fun _ => iff_of_false hst ?_, fun hc' => absurd hc' (by simp)⟩
    rcases hr with hr | hr
    · exact fun h0 => hst ((hc.idle (by simp [hr])).2 h0)
    · have := (hc.runs hr).1
      omega
  | @invoke o x s hx hk hs =>
    obtain ⟨hx, hr⟩ := idle_eq_some.1 hx
    have hp : x.kind.provides = true := by rw [hk]; rfl
    refine task_setObject (fun o' hne => (h o').setState_ne hR.providers hx hp hs hne)
      fun _ s' hs' => ?_
    obtain rfl := Option.some.inj (hs.symm.trans hs')
    have hc := h o x s hx hk hs
    have hidle := hc.idle (by simp [hr])
    refine ⟨hc.function, fun hn => absurd rfl hn, fun _ => ?_⟩
    simp only [World.setState, Function.update_self, hidle]
    omega
  | @reset _ o x s hx hk hs =>
    obtain ⟨hx, hr⟩ := idle_eq_some.1 hx
    have hp : x.kind.provides = true := by rw [hk]; rfl
    have hlt := hR.lt hx hs
    have hc := h o x s hx hk hs
    refine task_setObject (fun o' hne => ?_) fun _ s' hs' => ?_
    · refine ((h o').makeShared hR).breakPromise_ne ?_ ?_ hp hne
      · exact hR.providers
      · exact hx
    · obtain rfl := Option.some.inj hs'
      have hnew : (((w.makeShared V).breakPromise x.state).states w.allocated) = .init V := by
        rw [hs]
        simp [World.breakPromise, World.setState, World.makeShared, hlt.ne']
      refine ⟨hc.function, fun _ => ?_, fun hcall => ?_⟩
      · simp [hnew, State.init]
      · exact absurd (hr.symm.trans hcall) (by simp)
  | share hx hd hk hs =>
    refine task_setObject (fun o' _ => ?_) fun hk' => by simp at hk'
    exact task_clear (fun o' _ => h o') (fun _ => rfl) o'
  | begins hx hk hs hr =>
    obtain ⟨hx, hrun⟩ := idle_eq_some.1 hx
    exact task_run h hx (by simp [hrun]) (by rcases hr with rfl | rfl <;> simp)
  | waited hx hr => exact task_run h hx (by simp [hr]) (by simp)
  | endShared hx hr => exact task_run h hx (by simp [hr]) (by simp)
  | throwStored hx hr hs hst hk =>
    refine task_setObject (fun o' _ => ?_) fun hk' => by simp [hk] at hk'
    exact (h o').setState_congr rfl rfl
  | take hx hr hs hk =>
    refine task_setObject (fun o' _ => ?_) fun hk' => by simp [hk] at hk'
    exact (h o').setState_congr rfl rfl
  | endGet hx hr hs =>
    refine task_clear (fun o' _ => ?_) fun _ => rfl
    exact (h o').setState_congr rfl rfl
  | @destroy _ o x hx =>
    obtain ⟨hx, -⟩ := idle_eq_some.1 hx
    unfold World.destroy
    split_ifs with hp
    · exact task_erase fun o' hne => (h o').breakPromise_ne hR.providers hx hp hne
    · exact task_erase fun o' _ => h o'

/-! ### The count of a state -/

/-- Only `operator()` runs a callable. -/
theorem Step.runs {op : Op κ ν ε} (hs : Step V w op w') (hR : Referred V w) (s : ℕ) :
    (w'.states s).runs = (w.states s).runs ∨
      ∃ o x, op = .invoke o ∧ w.idle o = some x ∧ x.kind = .packagedTask ∧ x.state = some s ∧
        (w'.states s).runs = (w.states s).runs + 1 := by
  cases hs with
  | stay | constructInvalid | moveConstruct | copyConstruct | copyAssign | swap | rejects | share
  | begins | waited | endShared => exact .inl rfl
  | construct => exact .inl (by rw [hR.states_construct])
  | moveAssign =>
    left
    unfold World.moveAssign
    split_ifs
    · rfl
    · exact apply_breakPromise State.runs State.runs_breakPromise w _ s
    · rfl
  | satisfies _ _ _ hst => exact .inl (apply_update State.runs hst.runs s)
  | @invoke o x s' hx hk hs' =>
    rcases eq_or_ne s s' with rfl | hne
    · refine .inr ⟨o, x, rfl, hx, hk, hs', ?_⟩
      simp [World.invoke, World.run, World.setObject, World.setState]
    · left
      simp [World.invoke, World.run, World.setObject, World.setState, hne]
  | reset =>
    refine .inl ((apply_breakPromise State.runs State.runs_breakPromise _ _ s).trans ?_)
    rw [hR.states_makeShared]
  | getFuture | throwStored | take | endGet =>
    left
    refine apply_update State.runs ?_ s
    rfl
  | destroy =>
    left
    unfold World.destroy
    split_ifs
    · exact apply_breakPromise State.runs State.runs_breakPromise w _ s
    · rfl

/-! ### What a call leaves behind -/

/-- What the first call of `operator()` stores when the callable has done `r`. -/
def Result.outcome : Result ν ε → Outcome ν (Exception ε)
  | .returns v none => .value v
  | .returns _ (some e) => .exception (.user e)
  | .throws e => .exception (.user e)

section Finish

variable {st : State ν σ ε}

/-- The first callable to return satisfies the state with what it has returned or thrown. -/
theorem finish_of_empty (hok : st.Ok V) (h : st.status = .empty) (r : Result ν ε) :
    ∃ st', st.finish V r = .ok st' ∧ st'.status.ready = true ∧
      st'.report V = some r.outcome := by
  have hset := hok.settled
  simp only [h] at hset
  obtain ⟨-, hval, -⟩ := hset
  rcases r with ⟨v, _ | e⟩ | e
  · refine ⟨{ st with status := .value, value := st.emplace V v, outcome := some (.value v) },
      by simp [State.finish, State.setValue, h], rfl, ?_⟩
    have hread : V.read (st.emplace V v) = some v := by
      rw [State.emplace, hval]
      exact V.read_construct v
    simp [State.report, hread, Result.outcome]
  · exact ⟨_, by simp [State.finish, State.setValue, State.setException, h]; rfl, rfl, rfl⟩
  · exact ⟨_, by simp [State.finish, State.setException, h]; rfl, rfl, rfl⟩

/-- A later one is rejected. -/
theorem finish_of_satisfied (h : st.status ≠ .empty) (r : Result ν ε) :
    st.finish V r = .error .promiseAlreadySatisfied := by
  rcases r with ⟨v, _ | e⟩ | e <;> simp [State.finish, State.setValue, State.setException, h]

end Finish

/-! ### Whole runs -/

/-- The state that `operator()` is called on. -/
def Op.calls (w : World κ ν σ ε) : Op κ ν ε → Option ℕ
  | .invoke o => (w.idle o).bind Object.state
  | _ => none

/-- `operator()` is called on no satisfied state. -/
def CallsEmpty (c : Config τ (World κ ν σ ε) Unit) (_ : τ) (op : Op κ ν ε) : Prop :=
  ∀ s ∈ op.calls c.shared, (c.shared.states s).status = .empty

instance (c : Config τ (World κ ν σ ε) Unit) (t : τ) (op : Op κ ν ε) :
    Decidable (CallsEmpty c t op) :=
  inferInstanceAs (Decidable (∀ s ∈ op.calls c.shared, _))

/-- There is no task in an empty world. -/
theorem Task.start (o : ℕ) : Task (start V τ κ ε).shared o := nofun

section Runs

variable [DecidableEq τ] {c c' : Config τ (World κ ν σ ε) Unit} {l : List (τ × Op κ ν ε)}

/-- A run leaves every task with its count. -/
theorem task_of_run (hR : Referred V c.shared) (hS : Slots V c.shared)
    (hT : ∀ o, Task c.shared o) (h : Reachable (next V) c c') : ∀ o, Task c'.shared o :=
  h.invariant (I := fun c' => ∀ o, Task c'.shared o) hT fun _ _ _ _ _ hr hT _ hn => by
    obtain ⟨hR', hS', -⟩ := kept_of_run hR hS hr
    exact (step_of_next hn).task hR' hS' hT

/-- No run of a callable is forgotten. -/
theorem runs_le_of_run (hR : Referred V c.shared) (hS : Slots V c.shared)
    (h : Reachable (next V) c c') (s : ℕ) :
    (c.shared.states s).runs ≤ (c'.shared.states s).runs :=
  h.invariant (I := fun c' => (c.shared.states s).runs ≤ (c'.shared.states s).runs) le_rfl
    fun _ _ _ _ _ hr hle _ hn => by
      obtain ⟨hR', -, -⟩ := kept_of_run hR hS hr
      rcases (step_of_next hn).runs hR' s with he | ⟨-, -, -, -, -, -, he⟩
      · exact he ▸ hle
      · simp only [he]
        omega

/-- An idle task with a valid state can be called, and its callable is run. -/
theorem run_invoke {o s : ℕ} {x : Object κ} (hT : Task w o) (hx : w.idle o = some x)
    (hk : x.kind = .packagedTask) (hs : x.state = some s) :
    (Op.invoke o).run V w = some (w.invoke o s x, none) := by
  obtain ⟨f, hf⟩ := Option.isSome_iff_exists.1 (hT x s (idle_eq_some.1 hx).1 hk hs).function
  simp [Op.run, hx, hk, hs, hf]

/-- `operator()` counts one run. -/
theorem runs_invoke (w : World κ ν σ ε) (o s : ℕ) (x : Object κ) :
    ((w.invoke o s x).states s).runs = (w.states s).runs + 1 := by
  simp [World.invoke, World.run, World.setObject, World.setState]

/-- A step keeps every count at one exactly if it calls no satisfied state. -/
theorem step_runs_le_one {t : τ} {op : Op κ ν ε} (hR : Referred V c.shared)
    (hT : ∀ o, Task c.shared o) (h : ∀ s, (c.shared.states s).runs ≤ 1)
    (hs : c.step (next V) t op = some c') :
    (∀ s, (c'.shared.states s).runs ≤ 1) ↔ CallsEmpty c t op := by
  obtain ⟨w', l, hn, rfl⟩ := Config.step_eq_some.1 hs
  constructor
  · intro hle s hcall
    -- the callable is run, so it has not been run before
    obtain ⟨o, x, rfl, hx, hxs⟩ : ∃ o x, op = .invoke o ∧ c.shared.idle o = some x ∧
        x.state = some s := by
      cases op with
      | invoke o =>
        obtain ⟨x, hx, hxs⟩ := Option.bind_eq_some_iff.1 hcall
        exact ⟨o, x, rfl, hx, hxs⟩
      | _ => simp [Op.calls] at hcall
    obtain ⟨⟨w₁, thrown⟩, hrun, he⟩ := Option.map_eq_some_iff.1 hn
    obtain ⟨rfl, -⟩ := Prod.ext_iff.1 he
    have hk : x.kind = .packagedTask := by
      by_contra hk
      simp [Op.run, hx, hk] at hrun
    rw [run_invoke (hT o) hx hk hxs] at hrun
    obtain rfl := (Prod.ext_iff.1 (Option.some.inj hrun)).1
    have hs := hle s
    simp only [runs_invoke] at hs
    obtain ⟨hx, hr⟩ := idle_eq_some.1 hx
    exact ((hT o x s hx hk hxs).idle (by simp [hr])).2 (by omega)
  · intro hcall s
    rcases (step_of_next hn).runs hR s with he | ⟨o, x, rfl, hx, hk, hxs, he⟩
    · exact he ▸ h s
    · have hst := hcall s (Option.bind_eq_some_iff.2 ⟨x, hx, hxs⟩)
      obtain ⟨hx, hr⟩ := idle_eq_some.1 hx
      have := ((hT o x s hx hk hxs).idle (by simp [hr])).1 hst
      simp only
      omega

/-- Callables run once on each state exactly in the runs whose calls find it empty. -/
theorem runs_le_one_iff (hR : Referred V c.shared) (hS : Slots V c.shared)
    (hT : ∀ o, Task c.shared o) (h : ∀ s, (c.shared.states s).runs ≤ 1)
    (hl : c.exec (next V) l = some c') :
    (∀ s, (c'.shared.states s).runs ≤ 1) ↔ c.Admits (next V) CallsEmpty l := by
  induction l generalizing c with
  | nil =>
    obtain rfl := Option.some.inj hl
    exact iff_of_true h trivial
  | cons top rest ih =>
    obtain ⟨t, op⟩ := top
    simp only [Config.exec] at hl
    split at hl
    · rename_i c₁ hc₁
      have hreach : Reachable (next V) c c₁ := .step .start trivial hc₁
      obtain ⟨hR₁, hS₁, -⟩ := kept_of_run hR hS hreach
      have hT₁ := task_of_run hR hS hT hreach
      have hstep := step_runs_le_one hR hT h hc₁
      simp only [Config.Admits, hc₁]
      constructor
      · intro hle
        -- the counts only grow
        have h₁ : ∀ s, (c₁.shared.states s).runs ≤ 1 := fun s =>
          (runs_le_of_run hR₁ hS₁ (reachable_of_exec hl) s).trans (hle s)
        exact ⟨hstep.1 h₁, (ih hR₁ hS₁ hT₁ h₁ hl).1 hle⟩
      · rintro ⟨hcall, hrest⟩
        exact (ih hR₁ hS₁ hT₁ (hstep.2 hcall) hl).2 hrest
    · simp at hl

/-- **A callable runs once exactly if no satisfied task is called.**  In every run no
callable is run twice for one state if and only if `operator()` is called on empty states
only.  In whatever configuration the run leads to, a state is empty before the first call
of `operator()` on it and not after; every call runs the callable.  When it is done, the
first call stores what it did, and every later one throws `promise_already_satisfied` and
leaves all states as they are. -/
theorem runs_once (h : (start V τ κ ε).exec (next V) l = some c) :
    ((∀ s, (c.shared.states s).runs ≤ 1) ↔ (start V τ κ ε).Admits (next V) CallsEmpty l) ∧
    (∀ o x s, c.shared.idle o = some x → x.kind = .packagedTask → x.state = some s →
      ((c.shared.states s).status = .empty ↔ (c.shared.states s).runs = 0) ∧
      ∃ w', (Op.invoke o).run V c.shared = some (w', none) ∧
        (w'.states s).runs = (c.shared.states s).runs + 1) ∧
    ∀ o x s r w' thrown, c.shared.objects o = some x → x.running = some .callable →
      x.state = some s → (Op.finish o r).run V c.shared = some (w', thrown) →
      ((c.shared.states s).runs = 1 → thrown = none ∧ (w'.states s).status.ready = true ∧
        (w'.states s).report V = some r.outcome) ∧
      ((c.shared.states s).runs ≠ 1 → thrown = some .promiseAlreadySatisfied ∧
        w'.states = c.shared.states) := by
  have hreach := reachable_of_exec h
  obtain ⟨hR, hS⟩ := referred_slots_of_reachable hreach
  have hT := task_of_run .start .start Task.start hreach
  refine ⟨runs_le_one_iff .start .start Task.start (fun s => Nat.zero_le _) h, ?_, ?_⟩
  · intro o x s hx hk hs
    obtain ⟨hx', hr⟩ := idle_eq_some.1 hx
    exact ⟨(hT o x s hx' hk hs).idle (by simp [hr]), _, run_invoke (hT o) hx hk hs,
      runs_invoke c.shared o s x⟩
  · intro o x s r w' thrown hx hr hs hrun
    have hk : x.kind = .packagedTask := by
      have := (hS.objects o x hx).running
      rwa [hr] at this
    have hcount := ((hT o x s hx hk hs).runs hr).2
    have hend : (w', thrown) = c.shared.endCall o s x ((c.shared.states s).finish V r) := by
      simp only [Op.run, hx, hr, hs] at hrun
      split_ifs at hrun
      exact (Option.some.inj hrun).symm
    constructor
    · intro h1
      obtain ⟨st, hst, hready, hrep⟩ := finish_of_empty (hS.states s) (hcount.2 h1) r
      rw [hst] at hend
      obtain ⟨rfl, rfl⟩ := Prod.ext_iff.1 hend
      simpa [World.endCall, World.run, World.setObject, World.setState] using ⟨hready, hrep⟩
    · intro h1
      rw [finish_of_satisfied (mt hcount.1 h1)] at hend
      obtain ⟨rfl, rfl⟩ := Prod.ext_iff.1 hend
      exact ⟨rfl, rfl⟩

/-- A task is called, reset and called again; the second time the callable throws. -/
def calledAndReset : List (Unit × Op ℕ ℕ Unit) :=
  [.packagedTask 0 3, .invoke 0, .finish 0 (.returns 7 none), .reset 0, .invoke 0,
    .finish 0 (.throws ())].map (() , ·)

/-- The theorem where a task is called, reset and called again. -/
theorem runs_once_reset : ∃ c,
    (start (sharedState ℕ) Unit ℕ Unit).exec (next (sharedState ℕ)) calledAndReset = some c ∧
    (∀ s, (c.shared.states s).runs ≤ 1) ∧
    (c.shared.states 0).report (sharedState ℕ) = some (.value 7) ∧
    (c.shared.states 1).report (sharedState ℕ) = some (.exception (.user ())) := by
  refine ⟨_, rfl, ?_, rfl, rfl⟩
  have h := runs_once (V := sharedState ℕ) (τ := Unit) (κ := ℕ) (ε := Unit) (l := calledAndReset) rfl
  exact h.1.2 (by decide)

/-- A task is called twice. -/
def calledAgain : List (Unit × Op ℕ ℕ Unit) :=
  [.packagedTask 0 3, .invoke 0, .finish 0 (.returns 7 none), .invoke 0].map (() , ·)

/-- **A callable is run twice**: it runs again for a state that stores its value. -/
theorem run_twice : ¬∀ c : Config Unit (World ℕ ℕ (OptionalStorage ℕ) Unit) Unit,
    Reachable (next (sharedState ℕ)) (start (sharedState ℕ) Unit ℕ Unit) c →
      ∀ s, (c.shared.states s).runs ≤ 1 := by
  intro hall
  have hreach : Reachable (next (sharedState ℕ)) (start (sharedState ℕ) Unit ℕ Unit) _ :=
    reachable_of_exec (l := calledAgain) rfl
  exact absurd (hall _ hreach 0) (by decide)

end Runs

end Handles
end CoopSync
