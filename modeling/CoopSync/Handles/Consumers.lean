/-
# What the consumers read

A slot whose value has been moved out (`State.taken`) is referred to by the future that
is about to be reset, if by any consumer (`Object.Ok`), because that future was the only
one.  So what a `get` reports is the outcome of its state, which does not change once
there is one, and after a `future::get` has moved the value out nothing is reported for
that state any more (`Slots`).
-/

import CoopSync.Handles.References

namespace CoopSync
namespace Handles

open Future Owners

variable {κ ν σ ε : Type*} {V : Variant ν σ}

/-! ### States, handles and reports -/

variable (V) in
/-- What holds of a shared state between two calls on it. -/
structure State.Ok (st : State ν σ ε) : Prop where
  settled : match st.status with
    | .empty => st.outcome = none ∧ st.value = V.init ∧ st.taken = false
    | .value => ∃ v, st.outcome = some (.value v) ∧ (st.taken = false → V.read st.value = some v)
    | .exception =>
      ∃ e, st.exception = some e ∧ st.outcome = some (.exception e) ∧ st.taken = false
    | .broken => st.outcome = some .broken ∧ st.taken = false
    | .transition => False
  obtained : st.taken = true → st.futureObtained = true

/-- What holds of a handle: the call running on it is one of its class, and a state whose
value was moved out is about to be let go. -/
structure Object.Ok (states : ℕ → State ν σ ε) (x : Object κ) : Prop where
  running : match x.running with
    | none => True
    | some .wait | some .get => x.kind.consumes = true
    | some .reset => x.kind = .future
    | some .callable => x.kind = .packagedTask
  taken : ∀ s, x.state = some s → x.kind.consumes = true → (states s).taken = true →
    x.running = some .reset

/-- A `future::get` that has moved the value out. -/
def Report.moves (r : Report ν ε) : Prop := r.kind = .future ∧ ∃ v, r.outcome = some (.value v)

variable (V) in
/-- What holds of all handles, shared states and reports. -/
structure Slots (w : World κ ν σ ε) : Prop where
  objects : ∀ o x, w.objects o = some x → x.Ok w.states
  states : ∀ s, (w.states s).Ok V
  reports : ∀ r ∈ w.reports, r.outcome.isSome = true ∧ r.outcome = (w.states r.state).outcome ∧
    (r.moves → (w.states r.state).taken = true)
  once : w.reports.Pairwise fun r r' => r.moves → r'.state ≠ r.state

namespace State

variable {st st' : State ν σ ε}

/-- A new shared state is in order. -/
theorem Ok.init : (State.init V : State ν σ ε).Ok V := ⟨⟨rfl, rfl, rfl⟩, nofun⟩

/-- A call that takes effect stores the outcome, and the slot can be read. -/
theorem Ok.satisfies (h : st.Ok V) (hs : Satisfies V st st') :
    st'.Ok V ∧ (∀ v, st.outcome = some v → st'.outcome = some v) ∧ st'.taken = st.taken := by
  have hset := h.settled
  cases hs with
  | value he v =>
    simp only [he] at hset
    obtain ⟨hout, hval, htak⟩ := hset
    refine ⟨⟨⟨v, rfl, fun _ => ?_⟩, h.obtained⟩, fun _ ho => by simp [hout] at ho, rfl⟩
    rw [State.emplace, hval]
    exact V.read_construct v
  | exception he e =>
    simp only [he] at hset
    obtain ⟨hout, hval, htak⟩ := hset
    exact ⟨⟨⟨e, rfl, rfl, htak⟩, h.obtained⟩, fun _ ho => by simp [hout] at ho, rfl⟩

/-- A break leaves a state in order, with its outcome if it has one. -/
theorem Ok.breakPromise (h : st.Ok V) : st.breakPromise.Ok V ∧
    (∀ v, st.outcome = some v → st.breakPromise.outcome = some v) ∧
      st.breakPromise.taken = st.taken := by
  have hset := h.settled
  unfold State.breakPromise
  split_ifs with he
  · simp only [he] at hset
    obtain ⟨hout, hval, htak⟩ := hset
    exact ⟨⟨⟨rfl, htak⟩, h.obtained⟩, fun _ ho => by simp [hout] at ho, rfl⟩
  · exact ⟨h, fun _ ho => ho, rfl⟩

/-- What a `get` reports of a ready state whose value is still there is its outcome. -/
theorem Ok.report (h : st.Ok V) (hr : st.status.ready = true) (ht : st.taken = false) :
    st.report V = st.outcome ∧ st.outcome.isSome = true := by
  have hset := h.settled
  unfold State.report
  cases hs : st.status with
  | empty | transition => simp [hs, Status.ready] at hr
  | value =>
    simp only [hs] at hset
    obtain ⟨v, hout, hread⟩ := hset
    simp [hread ht, hout]
  | exception =>
    simp only [hs] at hset
    obtain ⟨e, he, hout, -⟩ := hset
    simp [he, hout]
  | broken =>
    simp only [hs] at hset
    simp [hset.1]

end State

namespace Object.Ok

variable {states : ℕ → State ν σ ε} {x y : Object κ}

/-- An idle handle refers to a state whose value is still there. -/
theorem not_taken (h : x.Ok states) (hr : x.running ≠ some .reset) {s : ℕ} (hs : x.state = some s)
    (hk : x.kind.consumes = true) : (states s).taken = false := by
  by_contra ht
  exact hr (h.taken s hs hk (by simpa using ht))

/-- A handle of no consumer, or of none whose value was moved out, with no call on it. -/
theorem of_idle (hr : x.running = none)
    (ht : ∀ s, x.state = some s → x.kind.consumes = true → (states s).taken = false) :
    x.Ok states :=
  ⟨by simp [hr], fun s hs hk htak => by simp [ht s hs hk] at htak⟩

end Object.Ok

namespace Slots

variable {w : World κ ν σ ε} {o s : ℕ} {x : Object κ}

/-- A shared state changes, and keeps its outcome. -/
theorem setState (h : Slots V w) {st : State ν σ ε} (hst : st.Ok V ∧
      (∀ v, (w.states s).outcome = some v → st.outcome = some v) ∧
        st.taken = (w.states s).taken) : Slots V (w.setState s st) := by
  obtain ⟨hok, hout, htak⟩ := hst
  have hout' : ∀ s' v, (w.states s').outcome = some v →
      ((w.setState s st).states s').outcome = some v := by
    intro s' v hv
    rcases eq_or_ne s' s with rfl | hne
    · simpa [World.setState] using hout v hv
    · simpa [World.setState, hne] using hv
  have htak' : ∀ s', ((w.setState s st).states s').taken = (w.states s').taken := by
    intro s'
    rcases eq_or_ne s' s with rfl | hne
    · simpa [World.setState] using htak
    · simp [World.setState, hne]
  refine ⟨fun o x hx => ?_, fun s' => ?_, fun r hr => ?_, h.once⟩
  · have hx := h.objects o x hx
    exact ⟨hx.running, fun s' hs' hk ht => hx.taken s' hs' hk (htak' s' ▸ ht)⟩
  · rcases eq_or_ne s' s with rfl | hne
    · simpa [World.setState] using hok
    · simpa [World.setState, hne] using h.states s'
  · obtain ⟨hsome, ho, hm⟩ := h.reports r hr
    obtain ⟨v, hv⟩ := Option.isSome_iff_exists.1 hsome
    refine ⟨hsome, ?_, fun hm' => (htak' _).trans (hm hm')⟩
    rw [hv, hout' r.state v (ho.symm.trans hv)]

/-- A handle in order may be put anywhere. -/
theorem setObject (h : Slots V w) {x : Option (Object κ)} (hx : ∀ y ∈ x, y.Ok w.states) :
    Slots V (w.setObject o x) := by
  refine ⟨fun o' y hy => ?_, h.states, h.reports, h.once⟩
  change Function.update w.objects o x o' = some y at hy
  rcases eq_or_ne o' o with rfl | hne
  · rw [Function.update_self] at hy
    exact hx y hy
  · rw [Function.update_of_ne hne] at hy
    exact h.objects o' y hy

/-- A handle with no call on it, and of no consumer of a state whose value was moved out. -/
theorem setIdle (h : Slots V w) (hr : x.running = none)
    (ht : ∀ s, x.state = some s → x.kind.consumes = true → (w.states s).taken = false) :
    Slots V (w.setObject o (some x)) :=
  h.setObject fun y hy => by
    obtain rfl := Option.some.inj hy
    exact .of_idle hr ht

/-- A handle with no call on it lets its state go. -/
theorem clear (h : Slots V w) (hr : x.running = none) (hs : x.state = none) :
    Slots V (w.setObject o (some x)) :=
  h.setIdle hr fun s hs' => by simp [hs] at hs'

/-- The call on a handle that does not let its state go ends. -/
theorem ends (h : Slots V w) (hx : w.objects o = some x) (hr : x.running ≠ some .reset) :
    Slots V (w.run o x none) :=
  h.setIdle rfl fun _ hs hk => (h.objects o x hx).not_taken hr hs hk

/-- Breaking a promise leaves handles, states and reports in order. -/
theorem breakPromise (h : Slots V w) (r : Option ℕ) : Slots V (w.breakPromise r) := by
  cases r with
  | none => exact h
  | some s => exact h.setState (h.states s).breakPromise

/-- So does allocating a state. -/
theorem makeShared (h : Slots V w) (hR : Referred V w) : Slots V (w.makeShared V) := by
  have hst := hR.states_makeShared
  exact ⟨fun o x hx => hst ▸ h.objects o x hx, fun s => hst ▸ h.states s,
    fun r hr => hst ▸ h.reports r hr, h.once⟩

/-- A `get` reports the outcome of its state. -/
theorem append (h : Slots V w) {r : Report ν ε} (hsome : r.outcome.isSome = true)
    (hout : r.outcome = (w.states r.state).outcome)
    (hmoves : r.moves → (w.states r.state).taken = true)
    (hfresh : ∀ r' ∈ w.reports, r'.moves → r.state ≠ r'.state) :
    Slots V { w with reports := w.reports ++ [r] } where
  objects := h.objects
  states := h.states
  reports := List.forall_mem_append.2
    ⟨h.reports, List.forall_mem_singleton.2 ⟨hsome, hout, hmoves⟩⟩
  once := List.pairwise_append.2 ⟨h.once, List.pairwise_singleton .., fun r' hr' r'' hr'' => by
    rw [List.mem_singleton.1 hr'']
    exact hfresh r' hr'⟩

/-- A `get` that does not move the value out. -/
theorem report (h : Slots V w) (hok : x.Ok w.states) (hr : x.running = some .get)
    (hs : x.state = some s) (hst : (w.states s).status.ready = true)
    (hk : x.kind = .future → (w.states s).status ≠ .value) {w' : World κ ν σ ε}
    (hw' : Slots V w') (hreports : w'.reports = w.reports)
    (hout : (w'.states s).outcome = (w.states s).outcome) :
    Slots V { w' with reports := w.reports ++ [⟨x.kind, s, (w.states s).report V⟩] } := by
  have hcons : x.kind.consumes = true := by
    have := hok.running
    rwa [hr] at this
  have htak := hok.not_taken (by simp [hr]) hs hcons
  obtain ⟨hrep, hsome⟩ := (h.states s).report hst htak
  have hset := (h.states s).settled
  rw [← hreports]
  refine hw'.append (by rwa [hrep]) (hrep.trans hout.symm) ?_ ?_
  · rintro ⟨hf, v, hv⟩
    -- a `future` does not get here with a value
    exfalso
    rw [hrep] at hv
    cases hstat : (w.states s).status with
    | value => exact hk hf hstat
    | empty | transition => simp [hstat, Status.ready] at hst
    | exception =>
      simp only [hstat] at hset
      obtain ⟨e, -, he, -⟩ := hset
      simp [he] at hv
    | broken =>
      simp only [hstat] at hset
      simp [hset.1] at hv
  · intro r' hr' hm he
    rw [hreports] at hr'
    have := (h.reports r' hr').2.2 hm
    rw [← he, htak] at this
    exact absurd this (by decide)

/-- The value of a state is moved out when its only consumer is about to let it go. -/
theorem setTaken (h : Slots V w) (hv : (w.states s).status = .value)
    (hobt : (w.states s).futureObtained = true)
    (halone : ∀ o x, w.objects o = some x → x.state = some s → x.kind.consumes = true →
      x.running = some .reset) (value : σ) :
    Slots V (w.setState s { w.states s with value := value, taken := true }) := by
  have hset := (h.states s).settled
  simp only [hv] at hset
  obtain ⟨v, hout, -⟩ := hset
  refine ⟨fun o x hx => ?_, fun s' => ?_, fun r hr => ?_, h.once⟩
  · have hok := h.objects o x hx
    refine ⟨hok.running, fun s' hs' hk ht => ?_⟩
    rcases eq_or_ne s' s with rfl | hne
    · exact halone o x hx hs' hk
    · exact hok.taken s' hs' hk (by simpa [World.setState, hne] using ht)
  · rcases eq_or_ne s' s with rfl | hne
    · refine ⟨?_, ?_⟩
      · simp [World.setState, hv, hout]
      · simp [World.setState, hobt]
    · simpa [World.setState, hne] using h.states s'
  · obtain ⟨hsome, ho, hm⟩ := h.reports r hr
    rcases eq_or_ne r.state s with heq | hne
    · exact ⟨hsome, by simpa [World.setState, heq] using ho, by simp [World.setState, heq]⟩
    · exact ⟨hsome, by simpa [World.setState, hne] using ho, by simpa [World.setState, hne] using hm⟩

/-- A `future::get` moves the value out, and no other consumer refers to the state. -/
theorem take (h : Slots V w) (hR : Referred V w) (hx : w.objects o = some x)
    (hr : x.running = some .get) (hs : x.state = some s) (hk : x.kind = .future)
    (hv : (w.states s).status = .value) : Slots V (w.take V o s x) := by
  have hok := h.objects o x hx
  have hcons : x.kind.consumes = true := by rw [hk]; rfl
  have htak := hok.not_taken (by simp [hr]) hs hcons
  obtain ⟨hrep, hsome⟩ := (h.states s).report (by rw [hv]; rfl) htak
  have hfut : w.refs Kind.isFuture o = some s := refs_eq_some.2 ⟨x, hx, by rw [hk]; rfl, hs⟩
  have hobt := hR.obtained s (.inl ⟨o, hfut⟩)
  have htaken : Slots V ((w.run o x (some .reset)).setState s
      { w.states s with value := V.take (w.states s).value, taken := true }) := by
    have hrun : Slots V (w.run o x (some .reset)) :=
      h.setObject fun y hy => by
        obtain rfl := Option.some.inj hy
        exact ⟨hk, fun _ _ _ _ => rfl⟩
    refine hrun.setTaken hv hobt (fun o' x' hx' hs' hk' => ?_) _
    change Function.update w.objects o _ o' = some x' at hx'
    rcases eq_or_ne o' o with rfl | hne
    · rw [Function.update_self] at hx'
      obtain rfl := Option.some.inj hx'
      rfl
    · rw [Function.update_of_ne hne] at hx'
      exact absurd (hR.sole_consumer hx hk hs hx' hk' hs') hne
  refine htaken.append ?_ ?_ ?_ ?_
  · exact hrep ▸ hsome
  · simpa [World.setState] using hrep
  · intro _
    simp [World.setState]
  · intro r' hr' hm he
    have := (h.reports r' hr').2.2 hm
    rw [← show s = r'.state from he, htak] at this
    exact absurd this (by decide)

end Slots

/-- A provider is no consumer. -/
theorem not_consumes {k : Kind} (h : k.provides = true) : k.consumes ≠ true := by
  simp [Kind.consumes, h]

/-- Every operation leaves handles, states and reports in order. -/
theorem Step.slots {w w' : World κ ν σ ε} {op : Op κ ν ε} (hs : Step V w op w') (hR : Referred V w)
    (h : Slots V w) : Slots V w' := by
  cases hs with
  | stay => exact h
  | construct ho hk =>
    refine (h.makeShared hR).setIdle rfl fun s _ hc => absurd hc (not_consumes ?_)
    rcases hk with ⟨rfl, -⟩ | ⟨rfl, -⟩ <;> rfl
  | constructInvalid ho => exact h.clear rfl rfl
  | moveConstruct ho hy =>
    obtain ⟨hy, hr⟩ := idle_eq_some.1 hy
    have hok := h.objects _ _ hy
    refine Slots.setIdle ?_ hr fun s hs hk => hok.not_taken (by simp [hr]) hs hk
    exact h.clear hr rfl
  | @moveAssign _ o src x y hx hy hk =>
    obtain ⟨hx, hrx⟩ := idle_eq_some.1 hx
    obtain ⟨hy, hry⟩ := idle_eq_some.1 hy
    unfold World.moveAssign
    split_ifs with heq hpt
    · exact h
    · refine Slots.setIdle ?_ hrx fun s _ hc => ?_
      · exact (h.breakPromise x.state).clear hry rfl
      · change x.kind.consumes = true at hc
        rw [hpt] at hc
        exact absurd hc (by decide)
    · have hok := h.objects _ _ hy
      refine Slots.setIdle ?_ hrx fun s hs hc => ?_
      · exact h.clear hry rfl
      · exact hok.not_taken (by simp [hry]) hs (hk ▸ hc)
  | copyConstruct ho hy hk =>
    obtain ⟨hy, hr⟩ := idle_eq_some.1 hy
    exact h.setIdle hr fun s hs hc => (h.objects _ _ hy).not_taken (by simp [hr]) hs hc
  | copyAssign hx hy hkx hky =>
    obtain ⟨hx, hrx⟩ := idle_eq_some.1 hx
    obtain ⟨hy, hry⟩ := idle_eq_some.1 hy
    refine h.setIdle hrx fun s hs _ => (h.objects _ _ hy).not_taken (by simp [hry]) hs ?_
    rw [hky]
    rfl
  | swap hx hy hk hp =>
    obtain ⟨hx, hrx⟩ := idle_eq_some.1 hx
    obtain ⟨hy, hry⟩ := idle_eq_some.1 hy
    refine Slots.setIdle ?_ hry fun _ _ hc => absurd hc (not_consumes (hk ▸ hp))
    exact Slots.setIdle h hrx fun _ _ hc => absurd hc (not_consumes hp)
  | @getFuture _ o dst x s hx hd hp hs hf =>
    have hok := h.states s
    have htak : (w.states s).taken = false := by
      by_contra ht
      have := hok.obtained (by simpa using ht)
      simp [hf] at this
    have hset : Slots V (w.setState s { w.states s with futureObtained := true }) :=
      h.setState ⟨⟨hok.settled, fun _ => rfl⟩, fun _ => id, rfl⟩
    refine hset.setIdle rfl fun s' hs' _ => ?_
    obtain rfl := Option.some.inj hs'
    simpa [World.setState] using htak
  | @satisfies _ o x s st hx hs hk hst =>
    refine (h.setState ((h.states s).satisfies hst)).setIdle rfl fun _ _ hc => ?_
    have hrun := (h.objects o x hx).running
    refine absurd hc (not_consumes ?_)
    rcases hk with hk | hk | ⟨hk, -⟩
    · simp [hk, Kind.provides]
    · simp only [hk] at hrun
      simp [hrun, Kind.provides]
    · simp [hk, Kind.provides]
  | rejects hx hs hr =>
    refine h.ends hx ?_
    rcases hr with hr | hr <;> simp [hr]
  | @invoke o x s hx hk hs =>
    have hok := h.states s
    have hset : Slots V (w.setState s { w.states s with runs := (w.states s).runs + 1 }) :=
      h.setState ⟨⟨hok.settled, hok.obtained⟩, fun _ => id, rfl⟩
    refine hset.setObject fun y hy => ?_
    obtain rfl := Option.some.inj hy
    refine ⟨hk, fun _ _ hc => absurd hc (not_consumes ?_)⟩
    simp [hk, Kind.provides]
  | reset hx hk hs =>
    obtain ⟨hx, hr⟩ := idle_eq_some.1 hx
    refine ((h.makeShared hR).breakPromise _).setIdle hr fun _ _ hc => absurd hc (not_consumes ?_)
    simp [hk, Kind.provides]
  | share hx hd hk hs =>
    obtain ⟨hx, hr⟩ := idle_eq_some.1 hx
    refine Slots.setIdle ?_ rfl fun s hs _ => ?_
    · exact h.clear hr rfl
    · refine (h.objects _ _ hx).not_taken (by simp [hr]) hs ?_
      rw [hk]
      rfl
  | begins hx hk hs hr =>
    obtain ⟨hx, hrun⟩ := idle_eq_some.1 hx
    have hok := h.objects _ _ hx
    refine h.setObject fun y hy => ?_
    obtain rfl := Option.some.inj hy
    refine ⟨?_, fun s hs hc ht => ?_⟩
    · rcases hr with rfl | rfl <;> exact hk
    · rw [hok.not_taken (by simp [hrun]) hs hc] at ht
      exact absurd ht (by decide)
  | waited hx hr => exact h.ends hx (by simp [hr])
  | endShared hx hr hs hst hk =>
    exact h.report (h.objects _ _ hx) hr hs hst (fun hf => absurd hf hk)
      (h.ends hx (by simp [hr])) rfl rfl
  | @throwStored o x s hx hr hs hst hk hv =>
    have hok := h.states s
    have hset : Slots V
        (w.setState s { w.states s with delivered := (w.states s).delivered + 1 }) :=
      h.setState ⟨⟨hok.settled, hok.obtained⟩, fun _ => id, rfl⟩
    have hend : Slots V (w.endGet o s x x.state) := by
      refine hset.setIdle rfl fun s' hs' hc => ?_
      have htak := (h.objects o x hx).not_taken (by simp [hr]) hs' hc
      rcases eq_or_ne s' s with rfl | hne
      · simpa [World.setState] using htak
      · simpa [World.setState, hne] using htak
    refine h.report (h.objects o x hx) hr hs hst (fun _ => hv) hend rfl ?_
    simp [World.endGet, World.setState, World.setObject]
  | take hx hr hs hk hv => exact h.take hR hx hr hs hk hv
  | @endGet o x s hx hr hs =>
    have hok := h.states s
    have hset : Slots V
        (w.setState s { w.states s with delivered := (w.states s).delivered + 1 }) :=
      h.setState ⟨⟨hok.settled, hok.obtained⟩, fun _ => id, rfl⟩
    exact Slots.clear hset rfl rfl
  | destroy hx =>
    unfold World.destroy
    split_ifs
    · exact (h.breakPromise _).setObject (by simp)
    · exact h.setObject (by simp)

end Handles
end CoopSync
