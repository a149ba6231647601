/-
# One consumer or only readers

A table (`World.refs`) says which shared state each handle of a class refers to; the
operations give, move, exchange, copy and clear its entries.  No two providers refer to one
state, no two futures do, and no state is referred to by a future and a `shared_future`
(`Inv`): the first consumer of a state comes from `get_future`, which succeeds once, and
`share` gives up the future.  So the slot that a `future::get` has moved from has no
reader left (`Object.Ok`), and every `get` reports the outcome of its state.
-/

import CoopSync.Handles.Steps

namespace CoopSync
namespace Handles

open Future Owners

variable {κ ν σ ε : Type*} {V : Variant ν σ} {w : World κ ν σ ε}

/-! ### What refers to what -/

/-- What a handle refers to, if it is of a class `p`. -/
def Object.ref (p : Kind → Bool) (x : Object κ) : Option ℕ := if p x.kind then x.state else none

/-- The shared states that the handles of the classes `p` refer to. -/
def World.refs (w : World κ ν σ ε) (p : Kind → Bool) (o : ℕ) : Option ℕ :=
  (w.objects o).bind (Object.ref p)

/-- `future` -/
def Kind.isFuture (k : Kind) : Bool := k = .future

/-- `shared_future` -/
def Kind.isShared (k : Kind) : Bool := k = .sharedFuture

variable {p : Kind → Bool} {o o' s : ℕ} {x y : Object κ}

/-- A handle refers to the state that it holds, if it is of the class. -/
theorem refs_eq_some : w.refs p o = some s ↔
    ∃ x, w.objects o = some x ∧ p x.kind = true ∧ x.state = some s := by
  simp [World.refs, Object.ref, Option.bind_eq_some_iff]

/-- What a handle refers to is read off the handle. -/
theorem refs_of_objects (h : w.objects o = some x) : w.refs p o = x.ref p := by
  simp [World.refs, h]

/-- A new handle brings its own reference. -/
@[simp] theorem refs_setObject (w : World κ ν σ ε) (o : ℕ) (x : Option (Object κ)) :
    (w.setObject o x).refs p = Function.update (w.refs p) o (x.bind (Object.ref p)) := by
  funext o'
  exact Function.apply_update (fun _ x => Option.bind x (Object.ref p)) w.objects o x o'

/-- A state that a handle of the class holds is owned. -/
theorem owned_of_object (hx : w.objects o = some x) (hp : p x.kind = true)
    (hs : x.state = some s) : Owned (w.refs p) s :=
  ⟨o, refs_eq_some.2 ⟨x, hx, hp, hs⟩⟩

/-- A state is referred to by what it was, or by the handle that has been replaced. -/
theorem owned_setObject {x : Option (Object κ)} (h : Owned ((w.setObject o x).refs p) s) :
    Owned (w.refs p) s ∨ ∃ y, x = some y ∧ p y.kind = true ∧ y.state = some s := by
  rw [refs_setObject] at h
  rcases h.of_update with hx | h
  · obtain ⟨y, rfl, hy⟩ := Option.bind_eq_some_iff.1 hx
    unfold Object.ref at hy
    split_ifs at hy with hp
    exact .inr ⟨y, rfl, hp, hy⟩
  · exact .inl h

/-- A handle is replaced by one that refers to nothing new. -/
theorem owned_setObject_old (hx : p x.kind = true → x.state = some s → Owned (w.refs p) s)
    (h : Owned ((w.setObject o (some x)).refs p) s) : Owned (w.refs p) s := by
  rcases owned_setObject h with h | ⟨y, hy, hp, hs⟩
  · exact h
  · obtain rfl := Option.some.inj hy
    exact hx hp hs

/-- Changing a state leaves the references. -/
@[simp] theorem refs_setState (w : World κ ν σ ε) (s : ℕ) (st : State ν σ ε) :
    (w.setState s st).refs p = w.refs p := rfl

@[simp] theorem refs_makeShared (w : World κ ν σ ε) : (w.makeShared V).refs p = w.refs p := rfl

@[simp] theorem refs_breakPromise (w : World κ ν σ ε) (r : Option ℕ) :
    (w.breakPromise r).refs p = w.refs p := by
  cases r <;> rfl

/-- Breaking a promise leaves the handles. -/
@[simp] theorem objects_breakPromise (w : World κ ν σ ε) (r : Option ℕ) :
    (w.breakPromise r).objects = w.objects := by
  cases r <;> rfl

/-- What a call on one state leaves as it is. -/
theorem apply_update {β : Type*} (g : State ν σ ε → β) {states : ℕ → State ν σ ε}
    {st : State ν σ ε} (h : g st = g (states s)) (s' : ℕ) :
    g (Function.update states s st s') = g (states s') := by
  rcases eq_or_ne s' s with rfl | hne
  · simpa using h
  · simp [hne]

/-- What a break leaves alone in its state it leaves alone in all. -/
theorem apply_breakPromise {β : Type*} (g : State ν σ ε → β)
    (hg : ∀ st, g st.breakPromise = g st) (w : World κ ν σ ε) (r : Option ℕ) (s' : ℕ) :
    g ((w.breakPromise r).states s') = g (w.states s') := by
  cases r with
  | none => rfl
  | some s => exact apply_update g (hg _) s'

/-- A break runs no callable. -/
theorem State.runs_breakPromise (st : State ν σ ε) : st.breakPromise.runs = st.runs := by
  unfold State.breakPromise
  split_ifs <;> rfl

/-- A break delivers nothing. -/
theorem State.delivered_breakPromise (st : State ν σ ε) :
    st.breakPromise.delivered = st.delivered := by
  unfold State.breakPromise
  split_ifs <;> rfl

/-- A move construction moves a reference. -/
theorem refs_moveConstruct {src : ℕ} (hy : w.objects src = some y) :
    (w.moveConstruct o src y).refs p = Owners.move (w.refs p) o src := by
  simp [World.moveConstruct, Owners.move, refs_of_objects hy, Object.ref]

/-- So does a move assignment. -/
theorem refs_moveAssign {src : ℕ} (hy : w.objects src = some y) (hk : x.kind = y.kind)
    (hne : o ≠ src) : (w.moveAssign o src x y).refs p = Owners.move (w.refs p) o src := by
  unfold World.moveAssign
  rw [if_neg hne]
  split_ifs <;> simp [Owners.move, refs_of_objects hy, Object.ref, hk]

/-- `swap` exchanges two references. -/
theorem refs_swap {a b : ℕ} (hx : w.objects a = some x) (hy : w.objects b = some y)
    (hk : x.kind = y.kind) : (w.swap a b x y).refs p = Owners.exchange (w.refs p) a b := by
  funext o
  rcases eq_or_ne o b with rfl | hb
  · simp [World.swap, Owners.exchange, refs_of_objects hx, Object.ref, hk]
  · rcases eq_or_ne o a with rfl | ha
    · simp [World.swap, Owners.exchange, refs_of_objects hy, Object.ref, hk, hb]
    · simp [World.swap, Owners.exchange, Equiv.swap_apply_of_ne_of_ne ha hb, ha, hb]

/-- A destructor drops one. -/
@[simp] theorem refs_destroy (w : World κ ν σ ε) (o : ℕ) (x : Object κ) :
    (w.destroy o x).refs p = Function.update (w.refs p) o none := by
  unfold World.destroy
  split_ifs <;> simp

/-! ### The invariant -/

variable (V) in
/-- Who may refer to a shared state. -/
structure Referred (w : World κ ν σ ε) : Prop where
  bounded : ∀ s, Owned (w.refs fun _ => true) s → s < w.allocated
  unused : ∀ s, w.allocated ≤ s → w.states s = .init V
  providers : Exclusive (w.refs Kind.provides)
  futures : Exclusive (w.refs Kind.isFuture)
  apart : ∀ s, Owned (w.refs Kind.isFuture) s → ¬Owned (w.refs Kind.isShared) s
  obtained : ∀ s, Owned (w.refs Kind.isFuture) s ∨ Owned (w.refs Kind.isShared) s →
    (w.states s).futureObtained = true

namespace Referred

/-- What the handles of a class own is owned. -/
theorem owned_true (h : Owned (w.refs p) s) : Owned (w.refs fun _ => true) s := by
  obtain ⟨o, ho⟩ := h
  obtain ⟨x, hx, -, hs⟩ := refs_eq_some.1 ho
  exact ⟨o, refs_eq_some.2 ⟨x, hx, rfl, hs⟩⟩

/-- A handle refers to a state that has been allocated. -/
theorem lt (h : Referred V w) (hx : w.objects o = some x) (hs : x.state = some s) :
    s < w.allocated :=
  h.bounded s ⟨o, refs_eq_some.2 ⟨x, hx, rfl, hs⟩⟩

/-- A `future` is the only consumer of its state. -/
theorem sole_consumer (h : Referred V w) (hx : w.objects o = some x) (hk : x.kind = .future)
    (hs : x.state = some s) (hy : w.objects o' = some y) (hc : y.kind.consumes = true)
    (hs' : y.state = some s) : o' = o := by
  have hfut : w.refs Kind.isFuture o = some s := refs_eq_some.2 ⟨x, hx, by rw [hk]; rfl, hs⟩
  cases hkind : y.kind with
  | promise | packagedTask => simp [hkind, Kind.consumes, Kind.provides] at hc
  | future =>
    refine h.futures _ _ s (refs_eq_some.2 ⟨y, hy, ?_, hs'⟩) hfut
    rw [hkind]
    rfl
  | sharedFuture =>
    refine absurd ⟨o', refs_eq_some.2 ⟨y, hy, ?_, hs'⟩⟩ (h.apart s ⟨o, hfut⟩)
    rw [hkind]
    rfl

/-- Nobody refers to the next state. -/
theorem ne_allocated (h : Referred V w) (o : ℕ) : w.refs p o ≠ some w.allocated := fun ho =>
  (h.bounded _ (owned_true ⟨o, ho⟩)).ne rfl

/-- The next state is a new one already. -/
theorem states_makeShared (h : Referred V w) : (w.makeShared V).states = w.states := by
  have hnew := h.unused w.allocated le_rfl
  exact (congrArg _ hnew.symm).trans (Function.update_eq_self ..)

/-- A construction leaves the states: the next one is as a new one already. -/
theorem states_construct (h : Referred V w) (o : ℕ) (k : Kind) (f : Option κ) :
    (w.construct V o k f).states = w.states :=
  h.states_makeShared

/-- Handles let go of what they refer to, or exchange it. -/
theorem shrink {w' : World κ ν σ ε} (h : Referred V w) (hal : w'.allocated = w.allocated)
    (hun : ∀ s, w.allocated ≤ s → w'.states s = w.states s)
    (hst : ∀ s, (w'.states s).futureObtained = (w.states s).futureObtained)
    (hown : ∀ p s, Owned (w'.refs p) s → Owned (w.refs p) s)
    (hexcl : ∀ p, p .sharedFuture = false → Exclusive (w.refs p) → Exclusive (w'.refs p)) :
    Referred V w' where
  bounded s hs := hal ▸ h.bounded s (hown _ s hs)
  unused s hs := (hun s (hal ▸ hs)).trans (h.unused s (hal ▸ hs))
  providers := hexcl _ rfl h.providers
  futures := hexcl _ rfl h.futures
  apart s hf hsh := h.apart s (hown _ s hf) (hown _ s hsh)
  obtained s hs := (hst s).trans (h.obtained s (hs.imp (hown _ s) (hown _ s)))

/-- A shared state that somebody refers to changes, but not its flag. -/
theorem setState (h : Referred V w) {st : State ν σ ε} (hs : s < w.allocated)
    (hst : st.futureObtained = (w.states s).futureObtained) : Referred V (w.setState s st) := by
  refine h.shrink rfl (fun s' hs' => ?_) (fun s' => ?_) (fun _ _ => id) fun _ _ => id
  · exact Function.update_of_ne (by omega) ..
  · rcases eq_or_ne s' s with rfl | hne
    · simpa [World.setState] using hst
    · simp [World.setState, hne]

/-- Breaking the promise of an allocated state keeps the references in order. -/
theorem breakPromise (h : Referred V w) {r : Option ℕ} (hr : ∀ s ∈ r, s < w.allocated) :
    Referred V (w.breakPromise r) := by
  cases r with
  | none => exact h
  | some s =>
    refine h.setState (hr s rfl) ?_
    unfold State.breakPromise
    split_ifs <;> rfl

/-- The tables change, and nothing else. -/
theorem tables {w' : World κ ν σ ε} (h : Referred V w) (hal : w'.allocated = w.allocated)
    (hst : w'.states = w.states) (hown : ∀ p s, Owned (w'.refs p) s → Owned (w.refs p) s)
    (hexcl : ∀ p, p .sharedFuture = false → Exclusive (w.refs p) → Exclusive (w'.refs p)) :
    Referred V w' :=
  h.shrink hal (fun _ _ => by rw [hst]) (fun _ => by rw [hst]) hown hexcl

/-- So does a handle that is dropped, or put there without a state. -/
theorem clear (h : Referred V w) {x : Option (Object κ)} (hx : ∀ p, x.bind (Object.ref p) = none) :
    Referred V (w.setObject o x) := by
  refine h.tables rfl rfl (fun p s hs => ?_) fun p _ he => ?_
  · rw [refs_setObject, hx] at hs
    exact hs.of_clear
  · rw [refs_setObject, hx]
    exact he.clear o

/-- So does moving a reference. -/
theorem move (h : Referred V w) {w' : World κ ν σ ε} {src : ℕ}
    (hal : w'.allocated = w.allocated) (hst : w'.states = w.states)
    (hrefs : ∀ p, w'.refs p = Owners.move (w.refs p) o src) : Referred V w' := by
  refine h.tables hal hst (fun p s hs => ?_) fun p _ he => ?_
  · rw [hrefs] at hs
    exact hs.of_move
  · rw [hrefs]
    exact he.move o src

/-- A handle goes on and refers to what it did. -/
theorem keep (h : Referred V w) {x' : Object κ} (hx : w.objects o = some x)
    (hk : x'.kind = x.kind) (hs : x'.state = x.state) : Referred V (w.setObject o (some x')) := by
  have href : ∀ p, (w.setObject o (some x')).refs p = w.refs p := by
    intro p
    have hnew : (some x').bind (Object.ref p) = w.refs p o := by
      simp [refs_of_objects hx, Object.ref, hk, hs]
    rw [refs_setObject, hnew, Function.update_eq_self]
  exact h.tables rfl rfl (fun p s ho => by rwa [href] at ho) fun p _ he => by rwa [href]

/-- So does a report. -/
theorem report (h : Referred V w) : Referred V (w.report V x s) :=
  ⟨h.bounded, h.unused, h.providers, h.futures, h.apart, h.obtained⟩

/-- A provider is given a new state. -/
theorem give (h : Referred V w) {k : Kind} (hx : x.kind = k) (hk : k.provides = true)
    (hs : x.state = some w.allocated) : Referred V ((w.makeShared V).setObject o (some x)) := by
  have href : ∀ p, ((w.makeShared V).setObject o (some x)).refs p =
      Function.update (w.refs p) o (if p k then some w.allocated else none) := by
    intro p
    simp [Object.ref, hx, hs]
  have hold : ∀ p s, p k = false → Owned (((w.makeShared V).setObject o (some x)).refs p) s →
      Owned (w.refs p) s := by
    intro p s hp ho
    rw [href, hp] at ho
    exact ho.of_clear
  have hstates : ∀ s, s < w.allocated →
      ((w.makeShared V).setObject o (some x)).states s = w.states s := fun s hs =>
    Function.update_of_ne hs.ne ..
  have hfut : Kind.isFuture k = false := by cases k <;> simp_all [Kind.isFuture, Kind.provides]
  have hsh : Kind.isShared k = false := by cases k <;> simp_all [Kind.isShared, Kind.provides]
  refine ⟨fun s ho => ?_, fun s hs => ?_, ?_, ?_, fun s hf hs => ?_, fun s hc => ?_⟩
  · rw [href, if_pos rfl] at ho
    change s < w.allocated + 1
    rcases ho.of_update with hs | ho
    · have := Option.some.inj hs
      omega
    · exact Nat.lt_succ_of_lt (h.bounded s ho)
  · change w.allocated + 1 ≤ s at hs
    exact (Function.update_of_ne (by omega) ..).trans (h.unused s (by omega))
  · rw [href, if_pos hk]
    exact h.providers.give fun o' _ => h.ne_allocated o'
  · rw [href, hfut]
    exact h.futures.clear o
  · exact h.apart s (hold _ s hfut hf) (hold _ s hsh hs)
  · have hc := hc.imp (hold _ s hfut) (hold _ s hsh)
    rw [hstates s (h.bounded s (hc.elim owned_true owned_true))]
    exact h.obtained s hc

/-- A `shared_future` is given the state of another. -/
theorem copy (h : Referred V w) {src : ℕ} (hy : w.objects src = some y)
    (hk : y.kind = .sharedFuture) (hx : x.kind = .sharedFuture) (hs : x.state = y.state) :
    Referred V (w.setObject o (some x)) := by
  refine h.tables rfl rfl (fun p s ho => ?_) fun p hp he => ?_
  · rw [refs_setObject] at ho
    rcases ho.of_update with hs' | ho
    · refine ⟨src, ?_⟩
      rw [refs_of_objects hy, ← hs']
      simp [Object.ref, hk, hx, hs]
    · exact ho
  · have hnone : (some x).bind (Object.ref p) = none := by simp [Object.ref, hx, hp]
    rw [refs_setObject, hnone]
    exact he.clear o

/-- A future of a state that was not obtained is given to `dst`. -/
theorem getFuture (h : Referred V w) {dst : ℕ} (hs : s < w.allocated)
    (hf : (w.states s).futureObtained = false) :
    Referred V (w.getFuture dst s { w.states s with futureObtained := true }) := by
  have href : ∀ p, (w.getFuture dst s { w.states s with futureObtained := true }).refs p =
      Function.update (w.refs p) dst (if p .future then some s else none) := by
    intro p
    simp [World.getFuture, Object.ref]
  have hfree : ¬Owned (w.refs Kind.isFuture) s ∧ ¬Owned (w.refs Kind.isShared) s :=
    ⟨fun ho => by simp [h.obtained s (.inl ho)] at hf,
      fun ho => by simp [h.obtained s (.inr ho)] at hf⟩
  have hold : ∀ p s', Owned (Function.update (w.refs p) dst (if p .future then some s else none)) s' →
      s' ≠ s → Owned (w.refs p) s' := by
    intro p s' ho hne
    rcases ho.of_update with hs' | ho
    · split_ifs at hs'
      exact absurd (Option.some.inj hs').symm hne
    · exact ho
  have hshared : ¬Owned (Function.update (w.refs Kind.isShared) dst none) s :=
    fun ho => hfree.2 ho.of_clear
  refine ⟨fun s' ho => ?_, fun s' hs' => ?_, ?_, ?_, fun s' hf' hs' => ?_, fun s' hc => ?_⟩
  · rw [href] at ho
    rcases eq_or_ne s' s with rfl | hne
    · exact hs
    · exact h.bounded s' (hold _ s' ho hne)
  · change w.allocated ≤ s' at hs'
    exact (Function.update_of_ne (by omega) ..).trans (h.unused s' hs')
  · rw [href]
    exact h.providers.clear dst
  · rw [href]
    exact h.futures.give fun o' _ ho' => hfree.1 ⟨o', ho'⟩
  · rw [href] at hf' hs'
    rcases eq_or_ne s' s with rfl | hne
    · exact hshared hs'
    · exact h.apart s' (hold _ s' hf' hne) (hold _ s' hs' hne)
  · rw [href, href] at hc
    rcases eq_or_ne s' s with rfl | hne
    · simp [World.getFuture, World.setObject, World.setState]
    · have := h.obtained s' (hc.imp (hold _ s' · hne) (hold _ s' · hne))
      simpa [World.getFuture, World.setObject, World.setState, hne] using this

/-- A future gives its state up to a `shared_future`. -/
theorem share (h : Referred V w) {dst : ℕ} (hx : w.objects o = some x) (hk : x.kind = .future)
    (hs : x.state = some s) : Referred V (w.share o dst x) := by
  have href : ∀ p, (w.share o dst x).refs p =
      Function.update (Function.update (w.refs p) o none) dst
        (if p .sharedFuture then some s else none) := by
    intro p
    simp [World.share, Object.ref, hs]
  have hfut : w.refs Kind.isFuture o = some s := by
    simp [refs_of_objects hx, Object.ref, hk, Kind.isFuture, hs]
  have hold : ∀ p s', Owned (Function.update (Function.update (w.refs p) o none) dst
      (if p .sharedFuture then some s else none)) s' →
      p .sharedFuture = true ∧ s' = s ∨ ∃ o', o' ≠ o ∧ w.refs p o' = some s' := by
    rintro p s' ⟨o', ho'⟩
    rcases update_eq_some.1 ho' with ⟨-, ho'⟩ | ⟨-, ho'⟩
    · split_ifs at ho' with hp
      exact .inl ⟨hp, (Option.some.inj ho').symm⟩
    · rcases update_eq_some.1 ho' with ⟨-, ho'⟩ | ⟨hne, ho'⟩
      · simp at ho'
      · exact .inr ⟨o', hne, ho'⟩
  refine ⟨fun s' ho => ?_, h.unused, ?_, ?_, fun s' hf' hs' => ?_, fun s' hc => ?_⟩
  · rw [href] at ho
    rcases hold _ s' ho with ⟨-, rfl⟩ | ⟨o', -, ho'⟩
    · exact h.lt hx hs
    · exact h.bounded s' ⟨o', ho'⟩
  · rw [href]
    exact (h.providers.clear o).clear dst
  · rw [href]
    exact (h.futures.clear o).clear dst
  · rw [href] at hf' hs'
    obtain ⟨o₁, hne, ho₁⟩ := (hold _ s' hf').resolve_left nofun
    rcases hold _ s' hs' with ⟨-, rfl⟩ | ⟨o₂, -, ho₂⟩
    · exact hne (h.futures _ _ _ ho₁ hfut)
    · exact h.apart s' ⟨o₁, ho₁⟩ ⟨o₂, ho₂⟩
  · rw [href, href] at hc
    rcases hc with hc | hc
    · obtain ⟨o₁, -, ho₁⟩ := (hold _ s' hc).resolve_left nofun
      exact h.obtained s' (.inl ⟨o₁, ho₁⟩)
    · rcases hold _ s' hc with ⟨-, rfl⟩ | ⟨o₂, -, ho₂⟩
      · exact h.obtained s' (.inl ⟨o, hfut⟩)
      · exact h.obtained s' (.inr ⟨o₂, ho₂⟩)

end Referred

/-- Satisfying a state leaves its mark of `get_future`. -/
theorem Satisfies.futureObtained {st st' : State ν σ ε} (h : Satisfies V st st') :
    st'.futureObtained = st.futureObtained := by
  cases h <;> rfl

/-- Satisfying a state runs no callable. -/
theorem Satisfies.runs {st st' : State ν σ ε} (h : Satisfies V st st') : st'.runs = st.runs := by
  cases h <;> rfl

/-- Satisfying a state delivers nothing. -/
theorem Satisfies.delivered {st st' : State ν σ ε} (h : Satisfies V st st') :
    st'.delivered = st.delivered := by
  cases h <;> rfl

/-- Every operation keeps the references in order. -/
theorem Step.referred {op : Op κ ν ε} {w' : World κ ν σ ε} (hs : Step V w op w')
    (h : Referred V w) : Referred V w' := by
  have hbound : ∀ {o x}, w.objects o = some x → ∀ s ∈ x.state, s < w.allocated :=
    fun hx _ hs => h.lt hx hs
  cases hs with
  | stay => exact h
  | construct ho hk =>
    exact h.give rfl (by rcases hk with ⟨rfl, -⟩ | ⟨rfl, -⟩ <;> rfl) rfl
  | constructInvalid ho => exact h.clear fun p => by simp [Object.ref]
  | moveConstruct ho hy => exact h.move rfl rfl fun p => refs_moveConstruct (idle_eq_some.1 hy).1
  | @moveAssign _ o src x y hx hy hk =>
    have hx := (idle_eq_some.1 hx).1
    have hy := (idle_eq_some.1 hy).1
    rcases eq_or_ne o src with heq | hne
    · rw [World.moveAssign, if_pos heq]
      exact h
    · have hbreak : Referred V (if x.kind = .packagedTask then w.breakPromise x.state else w) := by
        split_ifs
        · exact h.breakPromise (hbound hx)
        · exact h
      have href : ∀ p, (w.moveAssign o src x y).refs p = Owners.move
          ((if x.kind = .packagedTask then w.breakPromise x.state else w).refs p) o src := by
        intro p
        rw [refs_moveAssign hy hk hne]
        split_ifs <;> simp
      refine hbreak.move ?_ ?_ href
      · rw [World.moveAssign, if_neg hne]
        rfl
      · rw [World.moveAssign, if_neg hne]
        rfl
  | copyConstruct ho hy hk => exact h.copy (idle_eq_some.1 hy).1 hk hk rfl
  | copyAssign hx hy hkx hky => exact h.copy (idle_eq_some.1 hy).1 hky hkx rfl
  | swap hx hy hk =>
    have href := fun p => refs_swap (p := p) (idle_eq_some.1 hx).1 (idle_eq_some.1 hy).1 hk
    refine h.tables rfl rfl (fun p s ho => ?_) fun p _ he => ?_
    · rw [href] at ho
      exact owned_exchange.1 ho
    · rw [href]
      exact he.exchange _ _
  | getFuture hx hd hp hs hf => exact h.getFuture (h.lt (idle_eq_some.1 hx).1 hs) hf
  | satisfies hx hs hk hst => exact (h.setState (h.lt hx hs) hst.futureObtained).keep hx rfl rfl
  | rejects hx => exact h.keep hx rfl rfl
  | invoke hx hk hs =>
    have hx := (idle_eq_some.1 hx).1
    refine Referred.keep ?_ hx rfl rfl
    exact h.setState (h.lt hx hs) rfl
  | @reset _ o x s hx hk hs =>
    have hx := (idle_eq_some.1 hx).1
    have hgive := h.give (o := o) (x := { x with state := some w.allocated }) rfl
      (by rw [hk]; rfl) rfl
    have := hgive.breakPromise (r := x.state) fun s hs => Nat.lt_succ_of_lt (hbound hx s hs)
    rw [hs] at this
    rw [World.reset, hs]
    exact this
  | share hx hd hk hs => exact h.share (idle_eq_some.1 hx).1 hk hs
  | begins hx => exact h.keep (idle_eq_some.1 hx).1 rfl rfl
  | waited hx => exact h.keep hx rfl rfl
  | endShared hx => exact h.report.keep hx rfl rfl
  | throwStored hx hr hs =>
    refine Referred.keep ?_ hx rfl rfl
    exact h.report.setState (h.lt hx hs) rfl
  | take hx hr hs =>
    refine Referred.keep ?_ hx rfl rfl
    exact h.report.setState (h.lt hx hs) rfl
  | endGet hx hr hs =>
    refine Referred.clear ?_ fun p => by simp [Object.ref]
    exact h.setState (h.lt hx hs) rfl
  | destroy hx =>
    have hx := (idle_eq_some.1 hx).1
    unfold World.destroy
    split_ifs
    · exact (h.breakPromise (hbound hx)).clear fun p => rfl
    · exact h.clear fun p => rfl

end Handles
end CoopSync
