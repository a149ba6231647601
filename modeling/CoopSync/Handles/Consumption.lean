/-
# What a get on a future leaves behind

The three specialisations of `future::get` reset the handle after
`throw_if_exception_or_broken`, which a stored exception and a broken promise do not get
past.  So a `get` that throws leaves the handle valid, and the next one delivers the outcome
again; every `get` of a run consumes its state exactly if all of them find a value.
-/

import CoopSync.Handles.Readers

namespace CoopSync
namespace Handles

open Future Owners

variable {τ κ ν σ ε : Type*} {V : Variant ν σ} {w w' : World κ ν σ ε}

/-- A `future` on which a `get` has ended is not valid. -/
def SpentInvalid (w : World κ ν σ ε) : Prop :=
  ∀ o x, w.objects o = some x → x.kind = .future → x.spent = true → x.state = none

/-- A `future` on which a `get` has ended is not valid, and no outcome has been delivered
twice. -/
structure Consumed (w : World κ ν σ ε) : Prop where
  invalid : SpentInvalid w
  once : ∀ s, (w.states s).delivered ≤ 1

/-- A state whose outcome has been delivered has no consumer left, and gets none. -/
structure Delivered (w : World κ ν σ ε) : Prop where
  invalid : SpentInvalid w
  once : ∀ s, (w.states s).delivered = 0 ∨ (w.states s).delivered = 1 ∧
    (w.states s).futureObtained = true ∧ ¬Owned (w.refs Kind.consumes) s

/-- An outcome that leaves no consumer behind is delivered once. -/
theorem Delivered.consumed (h : Delivered w) : Consumed w where
  invalid := h.invalid
  once s := by
    rcases h.once s with h0 | ⟨h1, -⟩ <;> omega

/-! ### Consumers of a state -/

/-- The first consumer of a state is obtained from a provider. -/
theorem Step.consumers {op : Op κ ν ε} (hs : Step V w op w') {s : ℕ}
    (h : Owned (w'.refs Kind.consumes) s) :
    Owned (w.refs Kind.consumes) s ∨ (w.states s).futureObtained = false := by
  cases hs with
  | stay => exact .inl h
  | @getFuture _ o dst x s' hx hd hp hs' hf =>
    rcases owned_setObject h with h | ⟨y, hy, -, hys⟩
    · exact .inl h
    · obtain rfl := Option.some.inj hy
      obtain rfl := Option.some.inj hys
      exact .inr hf
  | @construct _ o k f ho hk =>
    refine .inl (owned_setObject_old ?_ h)
    intro hc
    rcases hk with ⟨rfl, -⟩ | ⟨rfl, -⟩
    · simp [Kind.consumes, Kind.provides] at hc
    · simp [Kind.consumes, Kind.provides] at hc
  | constructInvalid ho =>
    refine .inl (owned_setObject_old ?_ h)
    intro _ hs
    simp at hs
  | moveConstruct ho hy =>
    rw [refs_moveConstruct (idle_eq_some.1 hy).1] at h
    exact .inl h.of_move
  | @moveAssign _ o src x y hx hy hk =>
    rcases eq_or_ne o src with heq | hne
    · rw [World.moveAssign, if_pos heq] at h
      exact .inl h
    · rw [refs_moveAssign (idle_eq_some.1 hy).1 hk hne] at h
      exact .inl h.of_move
  | copyConstruct ho hy hk =>
    refine .inl (owned_setObject_old ?_ h)
    intro hc hs
    exact owned_of_object (idle_eq_some.1 hy).1 hc hs
  | copyAssign hx hy hkx hky =>
    refine .inl (owned_setObject_old ?_ h)
    intro _ hs
    exact owned_of_object (idle_eq_some.1 hy).1 (by rw [hky]; rfl) hs
  | swap hx hy hk hp =>
    rw [refs_swap (idle_eq_some.1 hx).1 (idle_eq_some.1 hy).1 hk] at h
    exact .inl (owned_exchange.1 h)
  | satisfies hx | rejects hx | waited hx | endShared hx | throwStored hx | take hx =>
    refine .inl (owned_setObject_old ?_ h)
    intro hc hs
    exact owned_of_object hx hc hs
  | invoke hx | begins hx =>
    refine .inl (owned_setObject_old ?_ h)
    intro hc hs
    exact owned_of_object (idle_eq_some.1 hx).1 hc hs
  | @reset _ o x s' hx hk hs =>
    have hold : Owned (((w.makeShared V).breakPromise x.state).refs Kind.consumes) s := by
      refine owned_setObject_old ?_ h
      intro hc
      rw [hk] at hc
      exact absurd hc (by decide)
    rw [refs_breakPromise] at hold
    exact .inl hold
  | share hx hd hk hs =>
    refine .inl ?_
    rcases owned_setObject h with h | ⟨y, hy, -, hs'⟩
    · refine owned_setObject_old ?_ h
      intro _ hs'
      simp at hs'
    · obtain rfl := Option.some.inj hy
      exact owned_of_object (idle_eq_some.1 hx).1 (by rw [hk]; rfl) hs'
  | endGet hx hr hs =>
    refine .inl (owned_setObject_old ?_ h)
    intro _ hs'
    simp at hs'
  | destroy hx =>
    rw [refs_destroy] at h
    exact .inl h.of_clear

/-! ### Ends of calls -/

/-- A handle that is not a spent valid future may be put anywhere. -/
theorem SpentInvalid.setObject {o : ℕ} {x : Object κ} (h : SpentInvalid w)
    (hx : x.kind = .future → x.spent = true → x.state = none) :
    SpentInvalid (w.setObject o (some x)) := by
  intro o' y hy
  change Function.update w.objects o (some x) o' = some y at hy
  rcases eq_or_ne o' o with rfl | hne
  · rw [Function.update_self] at hy
    obtain rfl := Option.some.inj hy
    exact hx
  · rw [Function.update_of_ne hne] at hy
    exact h o' y hy

/-- A call on a handle goes on. -/
theorem SpentInvalid.run {o : ℕ} {x : Object κ} (h : SpentInvalid w) (hx : w.objects o = some x)
    (r : Option Running) : SpentInvalid (w.run o x r) := by
  refine h.setObject ?_
  exact h o x hx

/-- A destroyed handle is not valid. -/
theorem SpentInvalid.erase {o : ℕ} (h : SpentInvalid w) : SpentInvalid (w.setObject o none) := by
  intro o' y hy
  change Function.update w.objects o none o' = some y at hy
  rcases eq_or_ne o' o with rfl | hne
  · simp at hy
  · rw [Function.update_of_ne hne] at hy
    exact h o' y hy

/-- Breaking a promise makes no handle valid. -/
theorem SpentInvalid.breakPromise (h : SpentInvalid w) (r : Option ℕ) :
    SpentInvalid (w.breakPromise r) := by
  intro o x hx
  rw [objects_breakPromise] at hx
  exact h o x hx

/-- A step delivers nothing, or resets a `future`, or throws what is stored. -/
theorem Step.ends {op : Op κ ν ε} (hs : Step V w op w') (hR : Referred V w) :
    (∀ s, (w'.states s).delivered = (w.states s).delivered) ∧
      (SpentInvalid w → SpentInvalid w') ∨
    (∃ o x s, w.objects o = some x ∧ x.running = some .reset ∧ x.state = some s ∧
      w' = w.endGet o s x none) ∨
    ∃ o x s, op = .continue o ∧ w.objects o = some x ∧ x.running = some .get ∧
      x.state = some s ∧ x.kind = .future ∧ (w.states s).status ≠ .value ∧
      w' = w.throwStored V o s x := by
  cases hs with
  | stay => exact .inl ⟨fun _ => rfl, id⟩
  | construct =>
    refine .inl ⟨fun s => by rw [hR.states_construct], fun h => ?_⟩
    exact SpentInvalid.setObject h nofun
  | constructInvalid => exact .inl ⟨fun _ => rfl, fun h => h.setObject fun _ _ => rfl⟩
  | moveConstruct =>
    refine .inl ⟨fun _ => rfl, fun h => ?_⟩
    refine SpentInvalid.setObject ?_ nofun
    exact h.setObject fun _ _ => rfl
  | @moveAssign _ o src x y hx hy hk =>
    refine .inl ⟨fun s => ?_, fun h => ?_⟩
    · unfold World.moveAssign
      split_ifs
      · rfl
      · exact apply_breakPromise State.delivered State.delivered_breakPromise w _ s
      · rfl
    · have hx : (x.spent && y.state.isNone) = true → y.state = none := by
        simp +contextual
      unfold World.moveAssign
      split_ifs
      · exact h
      · refine SpentInvalid.setObject ?_ fun _ => hx
        exact (h.breakPromise x.state).setObject fun _ _ => rfl
      · refine SpentInvalid.setObject ?_ fun _ => hx
        exact h.setObject fun _ _ => rfl
  | copyConstruct ho hy hk =>
    refine .inl ⟨fun _ => rfl, fun h => h.setObject fun hk' => ?_⟩
    simp [hk] at hk'
  | copyAssign hx hy hkx hky =>
    refine .inl ⟨fun _ => rfl, fun h => h.setObject fun hk' => ?_⟩
    simp [hkx] at hk'
  | swap hx hy hk hp =>
    have hne : ∀ k : Kind, k.provides = true → k ≠ .future := by
      rintro k hk rfl
      exact absurd hk (by decide)
    refine .inl ⟨fun _ => rfl, fun h => ?_⟩
    refine SpentInvalid.setObject ?_ fun hk' => absurd hk' (hne _ (hk ▸ hp))
    exact h.setObject fun hk' => absurd hk' (hne _ hp)
  | getFuture =>
    refine .inl ⟨fun s => ?_, fun h => ?_⟩
    · refine apply_update State.delivered ?_ s
      rfl
    · exact SpentInvalid.setObject h nofun
  | satisfies hx _ _ hst =>
    refine .inl ⟨fun s => apply_update State.delivered hst.delivered s, fun h => ?_⟩
    exact SpentInvalid.run h hx _
  | rejects hx | waited hx | endShared hx =>
    refine .inl ⟨fun _ => rfl, fun h => ?_⟩
    exact SpentInvalid.run h hx _
  | begins hx =>
    refine .inl ⟨fun _ => rfl, fun h => ?_⟩
    exact SpentInvalid.run h (idle_eq_some.1 hx).1 _
  | invoke hx =>
    refine .inl ⟨fun s => ?_, fun h => ?_⟩
    · refine apply_update State.delivered ?_ s
      rfl
    · exact SpentInvalid.run h (idle_eq_some.1 hx).1 _
  | reset hx hk =>
    refine .inl ⟨fun s => ?_, fun h => ?_⟩
    · refine (apply_breakPromise State.delivered State.delivered_breakPromise _ _ s).trans ?_
      rw [hR.states_makeShared]
    · refine SpentInvalid.setObject ?_ fun hk' => ?_
      · refine SpentInvalid.breakPromise ?_ _
        exact h
      · simp [hk] at hk'
  | share =>
    refine .inl ⟨fun _ => rfl, fun h => ?_⟩
    refine SpentInvalid.setObject ?_ nofun
    exact h.setObject fun _ _ => rfl
  | throwStored hx hr hs _ hk hv => exact .inr (.inr ⟨_, _, _, rfl, hx, hr, hs, hk, hv, rfl⟩)
  | take hx =>
    refine .inl ⟨fun s => ?_, fun h => ?_⟩
    · refine apply_update State.delivered ?_ s
      rfl
    · exact SpentInvalid.run h hx _
  | endGet hx hr hs => exact .inr (.inl ⟨_, _, _, hx, hr, hs, rfl⟩)
  | destroy =>
    refine .inl ⟨fun s => ?_, fun h => ?_⟩
    · unfold World.destroy
      split_ifs
      · exact apply_breakPromise State.delivered State.delivered_breakPromise w _ s
      · rfl
    · unfold World.destroy
      split_ifs
      · exact (h.breakPromise _).erase
      · exact h.erase

/-- Resetting a `future` delivers the outcome of its state for the first time, and nobody is
left to ask for it again. -/
theorem Delivered.endGet {o s : ℕ} {x : Object κ} (h : Delivered w) (hR : Referred V w)
    (hS : Slots V w) (hx : w.objects o = some x) (hr : x.running = some .reset)
    (hs : x.state = some s) : Delivered (w.endGet o s x none) := by
  have hk : x.kind = .future := by
    have := (hS.objects o x hx).running
    rwa [hr] at this
  have hcons : Owned (w.refs Kind.consumes) s := owned_of_object hx (by rw [hk]; rfl) hs
  have hfut : w.refs Kind.isFuture o = some s := refs_eq_some.2 ⟨x, hx, by rw [hk]; rfl, hs⟩
  have hold : ∀ s', Owned ((w.endGet o s x none).refs Kind.consumes) s' →
      Owned (w.refs Kind.consumes) s' := by
    intro s' ho
    refine owned_setObject_old ?_ ho
    intro _ hs'
    simp at hs'
  refine ⟨?_, fun s' => ?_⟩
  · exact SpentInvalid.setObject h.invalid fun _ _ => rfl
  · rcases eq_or_ne s' s with rfl | hne
    · have hcount : ((w.endGet o s' x none).states s').delivered = (w.states s').delivered + 1 := by
        simp [World.endGet, World.setObject, World.setState]
      have hflag : ((w.endGet o s' x none).states s').futureObtained = true := by
        simpa [World.endGet, World.setObject, World.setState] using hR.obtained s' (.inl ⟨o, hfut⟩)
      have h0 := (h.once s').resolve_right fun h1 => h1.2.2 hcons
      refine .inr ⟨by omega, hflag, ?_⟩
      -- the only consumer was the future that is reset
      rintro ⟨o', ho'⟩
      obtain ⟨y, hy, hc, hys⟩ := refs_eq_some.1 ho'
      change Function.update w.objects o _ o' = some y at hy
      rcases eq_or_ne o' o with rfl | hne
      · rw [Function.update_self] at hy
        obtain rfl := Option.some.inj hy
        simp at hys
      · rw [Function.update_of_ne hne] at hy
        exact hne (hR.sole_consumer hx hk hs hy hc hys)
    · have hsame : (w.endGet o s x none).states s' = w.states s' := Function.update_of_ne hne ..
      rw [hsame]
      exact (h.once s').imp_right fun h1 => ⟨h1.1, h1.2.1, fun ho => h1.2.2 (hold s' ho)⟩

/-- The state on which a `future::get` goes on after it has waited. -/
def Op.gets (w : World κ ν σ ε) : Op κ ν ε → Option ℕ
  | .continue o =>
    ((w.objects o).filter fun x => x.kind = .future ∧ x.running = some .get).bind Object.state
  | _ => none

/-- An operation goes on in `get` where a future that has waited is continued. -/
theorem Op.mem_gets {op : Op κ ν ε} {s : ℕ} : s ∈ op.gets w ↔ ∃ o x, op = .continue o ∧
    w.objects o = some x ∧ x.kind = .future ∧ x.running = some .get ∧ x.state = some s := by
  cases op with
  | «continue» o => simp [Op.gets, Option.bind_eq_some_iff, Option.filter_eq_some_iff, and_assoc]
  | _ => simp [Op.gets]

/-- `future::get` goes on with a value, not with an exception or a broken promise. -/
def GetsValue (c : Config τ (World κ ν σ ε) Unit) (_ : τ) (op : Op κ ν ε) : Prop :=
  ∀ s ∈ op.gets c.shared, (c.shared.states s).status = .value

instance (c : Config τ (World κ ν σ ε) Unit) (t : τ) (op : Op κ ν ε) :
    Decidable (GetsValue c t op) :=
  inferInstanceAs (Decidable (∀ s ∈ op.gets c.shared, _))

/-- An operation in which `get` finds a value leaves no consumer behind. -/
theorem Step.delivered {op : Op κ ν ε} (hs : Step V w op w') (hR : Referred V w)
    (hS : Slots V w) (hg : ∀ s ∈ op.gets w, (w.states s).status = .value) (h : Delivered w) :
    Delivered w' := by
  rcases hs.ends hR with ⟨hcount, hinv⟩ | ⟨o, x, s, hx, hr, hxs, rfl⟩ |
      ⟨o, x, s, rfl, hx, hr, hxs, hk, hv, rfl⟩
  · refine ⟨hinv h.invalid, fun s => ?_⟩
    rw [hcount s]
    refine (h.once s).imp_right fun ⟨h1, hf, hno⟩ => ?_
    refine ⟨h1, (hs.kept hR hS s).obtained hf, fun ho => ?_⟩
    rcases hs.consumers ho with ho | hff
    · exact hno ho
    · simp [hf] at hff
  · exact h.endGet hR hS hx hr hxs
  · exact absurd (hg s (Op.mem_gets.2 ⟨o, x, rfl, hx, hk, hr, hxs⟩)) hv

/-- A `future::get` that throws what is stored leaves the handle valid. -/
theorem not_spentInvalid_throwStored {o s : ℕ} {x : Object κ} (hk : x.kind = .future)
    (hs : x.state = some s) : ¬SpentInvalid (w.throwStored V o s x) := fun h => by
  have := h o _ (Function.update_self ..) hk rfl
  simp [hs] at this

/-! ### Whole runs -/

section Runs

/-- Nothing has been delivered in an empty world. -/
theorem Delivered.start : Delivered (start V τ κ ε).shared where
  invalid := nofun
  once _ := .inl rfl

variable [DecidableEq τ] {c c' : Config τ (World κ ν σ ε) Unit} {l : List (τ × Op κ ν ε)}

/-- A step after which every ended `get` has consumed its state met a value, if it is the end
of a `future::get`. -/
theorem getsValue_of_consumed {t : τ} {op : Op κ ν ε} (hs : c.step (next V) t op = some c')
    (h : Consumed c'.shared) : GetsValue c t op := by
  intro s hget
  obtain ⟨o, x, rfl, hx, hk, hr, hxs⟩ := Op.mem_gets.1 hget
  obtain ⟨w', l, hn, rfl⟩ := Config.step_eq_some.1 hs
  obtain ⟨⟨w₁, thrown⟩, hrun, he⟩ := Option.map_eq_some_iff.1 hn
  obtain ⟨rfl, -⟩ := Prod.ext_iff.1 he
  by_contra hv
  simp only [Op.run, hx, hr, hxs, hk, if_neg hv, ↓reduceIte] at hrun
  split_ifs at hrun
  obtain ⟨rfl, -⟩ := by simpa using hrun
  exact not_spentInvalid_throwStored hk hxs h.invalid

/-- **`get` consumes its state exactly if it finds a value.**  All along a run every
`future` on which a `get` has ended is invalid and no outcome has been delivered twice, if
and only if every `future::get` of the run that ended found a value.  On a `future` that is
not valid `get`, `wait`, `try_wait` and `share` throw `no_state`. -/
theorem get_consumes (h : (start V τ κ ε).exec (next V) l = some c) :
    ((∀ l₁ c₁, l₁ <+: l → (start V τ κ ε).exec (next V) l₁ = some c₁ → Consumed c₁.shared) ↔
      (start V τ κ ε).Admits (next V) GetsValue l) ∧
    ∀ o x, c.shared.idle o = some x → x.kind = .future → x.state = none →
      (Op.get o).run V c.shared = some (c.shared, some .noState) ∧
      (Op.wait o).run V c.shared = some (c.shared, some .noState) ∧
      (Op.tryWait o).run V c.shared = some (c.shared, some .noState) ∧
      ∀ dst, c.shared.objects dst = none →
        (Op.share o dst).run V c.shared = some (c.shared, some .noState) := by
  refine ⟨?_, fun o x hx hk hs => ?_⟩
  · refine Config.prefix_iff_admits
      (I := fun c => Referred V c.shared ∧ Slots V c.shared ∧ Delivered c.shared)
      (fun c hI => hI.2.2.consumed) ?_ ?_ ⟨.start, .start, .start⟩ h
    · rintro c t op c' ⟨hR, hS, hD⟩ hs hg
      obtain ⟨w', l, hn, rfl⟩ := Config.step_eq_some.1 hs
      have hs := step_of_next hn
      exact ⟨hs.referred hR, hs.slots hR hS, hs.delivered hR hS hg hD⟩
    · rintro c t op c' - hs hP
      exact getsValue_of_consumed hs hP
  · have hc : x.kind.consumes = true := by rw [hk]; rfl
    refine ⟨?_, ?_, ?_, fun dst hd => ?_⟩
    · simp [Op.run, hx, hc, hs]
    · simp [Op.run, hx, hc, hs]
    · simp [Op.run, hx, hc, hs]
    · simp [Op.run, hx, hd, hk, hs]

/-- A value is stored and taken. -/
def getOfValue : List (Unit × Op ℕ ℕ Unit) :=
  [.promise 0, .getFuture 0 1, .setValue 0 7 none, .get 1, .continue 1, .continue 1].map (() , ·)

/-- The theorem where `get` returns a value: `wait` throws afterwards. -/
theorem get_consumes_value : ∃ c,
    (start (sharedState ℕ) Unit ℕ Unit).exec (next (sharedState ℕ)) getOfValue = some c ∧
    Consumed c.shared ∧ c.shared.idle 1 = some ⟨.future, none, none, none, true⟩ ∧
    (Op.wait 1).run (sharedState ℕ) c.shared = some (c.shared, some .noState) := by
  refine ⟨_, rfl, ?_⟩
  have h := get_consumes (V := sharedState ℕ) (τ := Unit) (κ := ℕ) (ε := Unit)
    (l := getOfValue) rfl
  exact ⟨h.1.2 (by decide) getOfValue _ List.prefix_rfl rfl, rfl, (h.2 1 _ rfl rfl rfl).2.1⟩

/-- An exception is stored and thrown, twice. -/
def getOfException : List (Unit × Op ℕ ℕ Unit) :=
  [.promise 0, .getFuture 0 1, .setException 0 (), .get 1, .continue 1, .get 1,
    .continue 1].map (() , ·)

/-- **An exception is delivered twice**: the `future` whose `get` threw is still valid. -/
theorem thrown_twice : ¬∀ c : Config Unit (World ℕ ℕ (OptionalStorage ℕ) Unit) Unit,
    Reachable (next (sharedState ℕ)) (start (sharedState ℕ) Unit ℕ Unit) c →
      Consumed c.shared := by
  intro hall
  have hreach : Reachable (next (sharedState ℕ)) (start (sharedState ℕ) Unit ℕ Unit) _ :=
    reachable_of_exec (l := getOfException) rfl
  exact absurd ((hall _ hreach).once 0) (by decide)

end Runs

end Handles
end CoopSync
