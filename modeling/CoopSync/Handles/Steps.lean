/-
# The steps of the handles

One case for each way an operation of `Handles.Model` changes the world (`Step`), and
which shared states the handles of a class refer to afterwards (`World.refs`).
-/

import CoopSync.Owners
import CoopSync.Handles.Model

namespace CoopSync
namespace Handles

open Future Owners

variable {κ ν σ ε : Type*} {V : Variant ν σ}

variable (V) in
/-- A call of `set_value` or `set_exception` that takes effect. -/
inductive Satisfies (s : State ν σ ε) : State ν σ ε → Prop
  | value (hs : s.status = .empty) (v : ν) :
      Satisfies s
        { s with status := .value, value := s.emplace V v, outcome := some (.value v) }
  | exception (hs : s.status = .empty) (e : Exception ε) :
      Satisfies s
        { s with status := .exception, exception := some e, outcome := some (.exception e) }

section Calls

variable {s st : State ν σ ε} {errc : FutureErrc}

/-- `set_exception` that returns has satisfied an empty state. -/
theorem setException_ok {e : Exception ε} (h : s.setException e = .ok st) : Satisfies V s st := by
  unfold State.setException at h
  split_ifs at h with hs
  obtain rfl := Except.ok.inj h
  exact .exception hs e

/-- So has `set_value`, with the value or with what constructing it throws. -/
theorem setValue_ok {v : ν} {throws : Option ε} (h : s.setValue V v throws = .ok st) :
    Satisfies V s st := by
  cases throws with
  | some e => exact setException_ok h
  | none =>
    simp only [State.setValue] at h
    split_ifs at h with hs
    obtain rfl := Except.ok.inj h
    exact .value hs v

/-- `set_exception` throws where the state was satisfied before. -/
theorem setException_error {e : Exception ε} (h : s.setException e = .error errc) :
    s.status ≠ .empty ∧ errc = .promiseAlreadySatisfied := by
  unfold State.setException at h
  split_ifs at h with hs
  exact ⟨hs, (Except.error.inj h).symm⟩

/-- So does `set_value`. -/
theorem setValue_error {v : ν} {throws : Option ε} (h : s.setValue V v throws = .error errc) :
    s.status ≠ .empty ∧ errc = .promiseAlreadySatisfied := by
  cases throws with
  | some e => exact setException_error h
  | none =>
    simp only [State.setValue] at h
    split_ifs at h with hs
    exact ⟨hs, (Except.error.inj h).symm⟩

/-- A callable whose result is stored has satisfied an empty state. -/
theorem finish_ok {r : Result ν ε} (h : s.finish V r = .ok st) : Satisfies V s st := by
  cases r with
  | throws e => exact setException_ok h
  | returns v throws =>
    simp only [State.finish] at h
    split at h
    · rename_i hv
      obtain rfl := Except.ok.inj h
      exact setValue_ok hv
    · exact setException_ok h

/-- It is rejected where the state was satisfied before. -/
theorem finish_error {r : Result ν ε} (h : s.finish V r = .error errc) :
    s.status ≠ .empty ∧ errc = .promiseAlreadySatisfied := by
  cases r with
  | throws e => exact setException_error h
  | returns v throws =>
    simp only [State.finish] at h
    split at h
    · simp at h
    · exact setException_error h

end Calls

variable (V) in
/-- The steps, one case for each way an operation changes the world. -/
inductive Step (w : World κ ν σ ε) : Op κ ν ε → World κ ν σ ε → Prop
  /-- an operation that throws before it has done anything, or `try_wait` -/
  | stay {op} : Step w op w
  | construct {op o k f} (ho : w.objects o = none)
      (hk : k = .promise ∧ f = none ∨ k = .packagedTask ∧ f ≠ none) :
      Step w op (w.construct V o k f)
  | constructInvalid {op o k} (ho : w.objects o = none) :
      Step w op (w.setObject o (some ⟨k, none, none, none, false⟩))
  | moveConstruct {op o src y} (ho : w.objects o = none) (hy : w.idle src = some y) :
      Step w op (w.moveConstruct o src y)
  | moveAssign {op o src x y} (hx : w.idle o = some x) (hy : w.idle src = some y)
      (hk : x.kind = y.kind) : Step w op (w.moveAssign o src x y)
  | copyConstruct {op o src y} (ho : w.objects o = none) (hy : w.idle src = some y)
      (hk : y.kind = .sharedFuture) : Step w op (w.copyConstruct o y)
  | copyAssign {op o src x y} (hx : w.idle o = some x) (hy : w.idle src = some y)
      (hkx : x.kind = .sharedFuture) (hky : y.kind = .sharedFuture) :
      Step w op (w.copyAssign o x y)
  | swap {op a b x y} (hx : w.idle a = some x) (hy : w.idle b = some y) (hk : x.kind = y.kind)
      (hp : x.kind.provides = true) : Step w op (w.swap a b x y)
  | getFuture {op o dst x s} (hx : w.idle o = some x) (hd : w.objects dst = none)
      (hp : x.kind.provides = true) (hs : x.state = some s)
      (hf : (w.states s).futureObtained = false) :
      Step w op (w.getFuture dst s { w.states s with futureObtained := true })
  | satisfies {op o x s st} (hx : w.objects o = some x) (hs : x.state = some s)
      (hk : x.kind = .promise ∨ x.running = some .callable ∨
        x.kind = .packagedTask ∧ x.running = none ∧ x.function = none)
      (hst : Satisfies V (w.states s) st) : Step w op ((w.setState s st).run o x none)
  | rejects {op o x s} (hx : w.objects o = some x) (hs : x.state = some s)
      (hr : x.running = none ∨ x.running = some .callable) (hst : (w.states s).status ≠ .empty) :
      Step w op (w.run o x none)
  | invoke {o x s} (hx : w.idle o = some x) (hk : x.kind = .packagedTask)
      (hs : x.state = some s) : Step w (.invoke o) (w.invoke o s x)
  | reset {op o x s} (hx : w.idle o = some x) (hk : x.kind = .packagedTask)
      (hs : x.state = some s) : Step w op (w.reset V o x)
  | share {op o dst x s} (hx : w.idle o = some x) (hd : w.objects dst = none)
      (hk : x.kind = .future) (hs : x.state = some s) : Step w op (w.share o dst x)
  | begins {op o x r s} (hx : w.idle o = some x) (hk : x.kind.consumes = true)
      (hs : x.state = some s) (hr : r = .wait ∨ r = .get) : Step w op (w.run o x (some r))
  | waited {op o x} (hx : w.objects o = some x) (hr : x.running = some .wait) :
      Step w op (w.run o x none)
  | endShared {op o x s} (hx : w.objects o = some x) (hr : x.running = some .get)
      (hs : x.state = some s) (hst : (w.states s).status.ready = true) (hk : x.kind ≠ .future) :
      Step w op (w.endShared V o s x)
  | throwStored {o x s} (hx : w.objects o = some x) (hr : x.running = some .get)
      (hs : x.state = some s) (hst : (w.states s).status.ready = true) (hk : x.kind = .future)
      (hv : (w.states s).status ≠ .value) : Step w (.continue o) (w.throwStored V o s x)
  | take {o x s} (hx : w.objects o = some x) (hr : x.running = some .get)
      (hs : x.state = some s) (hk : x.kind = .future) (hv : (w.states s).status = .value) :
      Step w (.continue o) (w.take V o s x)
  | endGet {o x s} (hx : w.objects o = some x) (hr : x.running = some .reset)
      (hs : x.state = some s) : Step w (.continue o) (w.endGet o s x none)
  | destroy {op o x} (hx : w.idle o = some x) : Step w op (w.destroy o x)

/-- A handle is idle when it is alive with no call running on it. -/
theorem idle_eq_some {w : World κ ν σ ε} {o : ℕ} {x : Object κ} :
    w.idle o = some x ↔ w.objects o = some x ∧ x.running = none := by
  simp [World.idle, Option.filter_eq_some_iff]

/-- A call on the shared state of a provider takes effect or throws. -/
theorem step_endCall {w : World κ ν σ ε} {op : Op κ ν ε} {o s : ℕ} {x : Object κ}
    {r : Except FutureErrc (State ν σ ε)} (hx : w.objects o = some x) (hs : x.state = some s)
    (hk : x.kind = .promise ∨ x.running = some .callable ∨
      x.kind = .packagedTask ∧ x.running = none ∧ x.function = none)
    (hr : x.running = none ∨ x.running = some .callable)
    (hok : ∀ st, r = .ok st → Satisfies V (w.states s) st)
    (herr : ∀ errc, r = .error errc → (w.states s).status ≠ .empty) :
    Step V w op (w.endCall o s x r).1 := by
  cases r with
  | ok st => exact .satisfies hx hs hk (hok st rfl)
  | error errc => exact .rejects hx hs hr (herr errc rfl)

/-! ### The operations, one by one -/

section Run

variable {w w' : World κ ν σ ε} {thrown : Option FutureErrc}

/-- `promise()` constructs a handle on a new state. -/
theorem step_promise {o : ℕ} (h : (Op.promise o).run V w = some (w', thrown)) :
    Step V w (.promise o) w' := by
  unfold Op.run at h
  dsimp only at h
  split_ifs at h with ho
  obtain ⟨rfl, rfl⟩ := by simpa using h
  exact .construct ho (.inl ⟨rfl, rfl⟩)

/-- So does `packaged_task(f)`. -/
theorem step_packagedTask {o : ℕ} {f : κ} (h : (Op.packagedTask o f).run V w = some (w', thrown)) :
    Step V w (.packagedTask o f) w' := by
  unfold Op.run at h
  dsimp only at h
  split_ifs at h with ho
  obtain ⟨rfl, rfl⟩ := by simpa using h
  exact .construct ho (.inr ⟨rfl, by simp⟩)

/-- The other default constructors construct a handle without a state. -/
theorem step_constructInvalid {o : ℕ} {k : Kind}
    (h : (Op.constructInvalid o k).run V w = some (w', thrown)) :
    Step V w (.constructInvalid o k) w' := by
  unfold Op.run at h
  dsimp only at h
  split_ifs at h with ho
  obtain ⟨rfl, rfl⟩ := by simpa using h
  exact .constructInvalid ho.1

/-- A move constructor takes the state of its argument. -/
theorem step_moveConstruct {o src : ℕ} (h : (Op.moveConstruct o src).run V w = some (w', thrown)) :
    Step V w (.moveConstruct o src) w' := by
  unfold Op.run at h
  dsimp only at h
  split at h
  · rename_i y ho hy
    obtain ⟨rfl, rfl⟩ := by simpa using h
    exact .moveConstruct ho hy
  · simp at h

/-- So does a move assignment, between handles of one class. -/
theorem step_moveAssign {o src : ℕ} (h : (Op.moveAssign o src).run V w = some (w', thrown)) :
    Step V w (.moveAssign o src) w' := by
  unfold Op.run at h
  dsimp only at h
  split at h
  · rename_i x y hx hy
    split_ifs at h with hk
    obtain ⟨rfl, rfl⟩ := by simpa using h
    exact .moveAssign hx hy hk
  · simp at h

/-- A copy constructor is one of `shared_future`. -/
theorem step_copyConstruct {o src : ℕ} (h : (Op.copyConstruct o src).run V w = some (w', thrown)) :
    Step V w (.copyConstruct o src) w' := by
  unfold Op.run at h
  dsimp only at h
  split at h
  · rename_i y ho hy
    split_ifs at h with hk
    obtain ⟨rfl, rfl⟩ := by simpa using h
    exact .copyConstruct ho hy hk
  · simp at h

/-- So is a copy assignment. -/
theorem step_copyAssign {o src : ℕ} (h : (Op.copyAssign o src).run V w = some (w', thrown)) :
    Step V w (.copyAssign o src) w' := by
  unfold Op.run at h
  dsimp only at h
  split at h
  · rename_i x y hx hy
    split_ifs at h with hk
    obtain ⟨rfl, rfl⟩ := by simpa using h
    exact .copyAssign hx hy hk.1 hk.2
  · simp at h

/-- `swap` is a call of two providers of one class. -/
theorem step_swap {a b : ℕ} (h : (Op.swap a b).run V w = some (w', thrown)) :
    Step V w (.swap a b) w' := by
  unfold Op.run at h
  dsimp only at h
  split at h
  · rename_i x y hx hy
    split_ifs at h with hk
    obtain ⟨rfl, rfl⟩ := by simpa using h
    exact .swap hx hy hk.1 hk.2
  · simp at h

/-- `get_future` throws, or it is the first on its state. -/
theorem step_getFuture {o dst : ℕ} (h : (Op.getFuture o dst).run V w = some (w', thrown)) :
    Step V w (.getFuture o dst) w' := by
  unfold Op.run at h
  dsimp only at h
  split at h
  · rename_i x hx hd
    split_ifs at h with hp
    split at h
    · obtain ⟨rfl, rfl⟩ := by simpa using h
      exact .stay
    · rename_i s hs
      unfold State.markFutureObtained at h
      split_ifs at h with hf
      · obtain ⟨rfl, rfl⟩ := by simpa using h
        exact .stay
      · obtain ⟨rfl, rfl⟩ := by simpa using h
        exact .getFuture hx hd hp hs (by simpa using hf)
  · simp at h

/-- `set_value` throws, or it satisfies a state that was empty. -/
theorem step_setValue {o : ℕ} {v : ν} {throws : Option ε}
    (h : (Op.setValue o v throws).run V w = some (w', thrown)) :
    Step V w (.setValue o v throws) w' := by
  unfold Op.run at h
  dsimp only at h
  split at h
  · rename_i x hx
    obtain ⟨ho, hr⟩ := idle_eq_some.1 hx
    split_ifs at h with hk
    split at h
    · obtain ⟨rfl, rfl⟩ := by simpa using h
      exact .stay
    · rename_i s hs
      obtain rfl := (Prod.ext_iff.1 (Option.some.inj h)).1
      exact step_endCall ho hs (.inl hk.1) (.inl hr) (fun _ => setValue_ok)
        fun _ he => (setValue_error he).1
  · simp at h

/-- So does `set_exception`. -/
theorem step_setException {o : ℕ} {e : ε} (h : (Op.setException o e).run V w = some (w', thrown)) :
    Step V w (.setException o e) w' := by
  unfold Op.run at h
  dsimp only at h
  split at h
  · rename_i x hx
    obtain ⟨ho, hr⟩ := idle_eq_some.1 hx
    split_ifs at h with hk
    split at h
    · obtain ⟨rfl, rfl⟩ := by simpa using h
      exact .stay
    · rename_i s hs
      obtain rfl := (Prod.ext_iff.1 (Option.some.inj h)).1
      exact step_endCall ho hs (.inl hk) (.inl hr) (fun _ => setException_ok)
        fun _ he => (setException_error he).1
  · simp at h

/-- `operator()` throws, stores `std::bad_function_call`, or begins to run the callable. -/
theorem step_invoke {o : ℕ} (h : (Op.invoke o).run V w = some (w', thrown)) :
    Step V w (.invoke o) w' := by
  unfold Op.run at h
  dsimp only at h
  split at h
  · rename_i x hx
    obtain ⟨ho, hr⟩ := idle_eq_some.1 hx
    split_ifs at h with hk
    split at h
    · obtain ⟨rfl, rfl⟩ := by simpa using h
      exact .stay
    · rename_i s hs hf
      obtain rfl := (Prod.ext_iff.1 (Option.some.inj h)).1
      exact step_endCall ho hs (.inr (.inr ⟨hk, hr, hf⟩)) (.inl hr) (fun _ => setException_ok)
        fun _ he => (setException_error he).1
    · rename_i s f hs hf
      obtain ⟨rfl, rfl⟩ := by simpa using h
      exact .invoke hx hk hs
  · simp at h

/-- A callable that ends satisfies the state, or what it leaves is rejected. -/
theorem step_finish {o : ℕ} {r : Result ν ε} (h : (Op.finish o r).run V w = some (w', thrown)) :
    Step V w (.finish o r) w' := by
  unfold Op.run at h
  dsimp only at h
  split at h
  · rename_i x hx
    split at h
    · rename_i s hr hs
      split_ifs at h
      obtain rfl := (Prod.ext_iff.1 (Option.some.inj h)).1
      exact step_endCall hx hs (.inr (.inl hr)) (.inr hr) (fun _ => finish_ok)
        fun _ he => (finish_error he).1
    · simp at h
  · simp at h

/-- `packaged_task::reset` throws, or it allocates a new state. -/
theorem step_reset {o : ℕ} (h : (Op.reset o).run V w = some (w', thrown)) :
    Step V w (.reset o) w' := by
  unfold Op.run at h
  dsimp only at h
  split at h
  · rename_i x hx
    split_ifs at h with hk
    split at h
    · obtain ⟨rfl, rfl⟩ := by simpa using h
      exact .stay
    · rename_i s hs
      obtain ⟨rfl, rfl⟩ := by simpa using h
      exact .reset hx hk hs
  · simp at h

/-- `share` throws, or it hands the state of a future over. -/
theorem step_share {o dst : ℕ} (h : (Op.share o dst).run V w = some (w', thrown)) :
    Step V w (.share o dst) w' := by
  unfold Op.run at h
  dsimp only at h
  split at h
  · rename_i x hx hd
    split_ifs at h with hk
    split at h
    · obtain ⟨rfl, rfl⟩ := by simpa using h
      exact .stay
    · rename_i s hs
      obtain ⟨rfl, rfl⟩ := by simpa using h
      exact .share hx hd hk hs
  · simp at h

/-- `try_wait` changes nothing. -/
theorem step_tryWait {o : ℕ} (h : (Op.tryWait o).run V w = some (w', thrown)) :
    Step V w (.tryWait o) w' := by
  unfold Op.run at h
  dsimp only at h
  split at h
  · split_ifs at h
    split at h
    · obtain ⟨rfl, rfl⟩ := by simpa using h
      exact .stay
    · obtain ⟨rfl, rfl⟩ := by simpa using h
      exact .stay
  · simp at h

/-- `wait` throws, or it begins. -/
theorem step_wait {o : ℕ} (h : (Op.wait o).run V w = some (w', thrown)) :
    Step V w (.wait o) w' := by
  unfold Op.run at h
  dsimp only at h
  split at h
  · rename_i x hx
    split_ifs at h with hk
    split at h
    · obtain ⟨rfl, rfl⟩ := by simpa using h
      exact .stay
    · rename_i s hs
      obtain ⟨rfl, rfl⟩ := by simpa using h
      exact .begins hx hk hs (.inl rfl)
  · simp at h

/-- `get` throws, or it begins. -/
theorem step_get {o : ℕ} (h : (Op.get o).run V w = some (w', thrown)) :
    Step V w (.get o) w' := by
  unfold Op.run at h
  dsimp only at h
  split at h
  · rename_i x hx
    split_ifs at h with hk
    split at h
    · obtain ⟨rfl, rfl⟩ := by simpa using h
      exact .stay
    · rename_i s hs
      obtain ⟨rfl, rfl⟩ := by simpa using h
      exact .begins hx hk hs (.inr rfl)
  · simp at h

/-- A call under way returns from `wait`, or reports what the state holds and ends. -/
theorem step_continue {o : ℕ} (h : (Op.«continue» o).run V w = some (w', thrown)) :
    Step V w (.«continue» o) w' := by
  unfold Op.run at h
  dsimp only at h
  split at h
  · rename_i x hx
    split at h
    · rename_i s hr hs
      split_ifs at h
      obtain ⟨rfl, rfl⟩ := by simpa using h
      exact .waited hx hr
    · rename_i s hr hs
      split_ifs at h with hst hk hv
      · obtain ⟨rfl, rfl⟩ := by simpa using h
        exact .take hx hr hs hk hv
      · obtain ⟨rfl, rfl⟩ := by simpa using h
        exact .throwStored hx hr hs hst hk hv
      · obtain ⟨rfl, rfl⟩ := by simpa using h
        exact .endShared hx hr hs hst hk
    · rename_i s hr hs
      obtain ⟨rfl, rfl⟩ := by simpa using h
      exact .endGet hx hr hs
    · simp at h
  · simp at h

/-- A destructor runs where no call is running. -/
theorem step_destroy {o : ℕ} (h : (Op.destroy o).run V w = some (w', thrown)) :
    Step V w (.destroy o) w' := by
  obtain ⟨x, hx, he⟩ := Option.map_eq_some_iff.1 h
  obtain ⟨rfl, rfl⟩ := by simpa using he
  exact .destroy hx

/-- An operation changes the world in one of these ways. -/
theorem step_of_run {op : Op κ ν ε} (h : op.run V w = some (w', thrown)) : Step V w op w' := by
  cases op with
  | promise o => exact step_promise h
  | packagedTask o f => exact step_packagedTask h
  | constructInvalid o k => exact step_constructInvalid h
  | moveConstruct o src => exact step_moveConstruct h
  | moveAssign o src => exact step_moveAssign h
  | copyConstruct o src => exact step_copyConstruct h
  | copyAssign o src => exact step_copyAssign h
  | swap a b => exact step_swap h
  | getFuture o dst => exact step_getFuture h
  | setValue o v throws => exact step_setValue h
  | setException o e => exact step_setException h
  | invoke o => exact step_invoke h
  | finish o r => exact step_finish h
  | reset o => exact step_reset h
  | share o dst => exact step_share h
  | tryWait o => exact step_tryWait h
  | wait o => exact step_wait h
  | get o => exact step_get h
  | «continue» o => exact step_continue h
  | destroy o => exact step_destroy h

end Run

end Handles
end CoopSync
