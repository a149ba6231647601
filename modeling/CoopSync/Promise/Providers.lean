/-
# Every empty shared state has a provider

What holds of any number of promises and packaged tasks (`Inv`): no shared state has
two providers, tasks wait on empty states only, and an empty state that a future
refers to has a provider.  Every operation keeps this (`Inv.run`), but for one, the
move assignment of a `promise` whose state is still empty (`Op.abandons`).

A reference table (`World.ref`) says which shared state each object refers to; the
operations give, move, exchange and clear its entries.
-/

import CoopSync.Owners
import CoopSync.Promise.Model

namespace CoopSync
namespace Promise

open Future Owners

variable {τ : Type*} {w w' : World τ}

/-! ### What refers to what -/

/-- The shared state that an object refers to, if it is alive and has one. -/
def World.ref (w : World τ) (o : ℕ) : Option ℕ := (w.objects o).bind Object.state

/-- What an object refers to is read off the object. -/
theorem World.ref_of_objects {o : ℕ} {x : Object} (h : w.objects o = some x) :
    w.ref o = x.state := by
  simp [World.ref, h]

/-- An object that is not alive refers to nothing. -/
theorem World.ref_eq_none {o : ℕ} (h : w.objects o = none) : w.ref o = none := by
  simp [World.ref, h]

/-- A new object brings its own reference. -/
@[simp] theorem World.ref_setObject (w : World τ) (o : ℕ) (x : Option Object) :
    (w.setObject o x).ref = Function.update w.ref o (x.bind Object.state) := by
  funext o'
  exact Function.apply_update (fun _ x => Option.bind x Object.state) w.objects o x o'

/-- Changing a state leaves the references. -/
@[simp] theorem World.ref_setState (w : World τ) (s : ℕ) (st : State τ) :
    (w.setState s st).ref = w.ref := rfl

@[simp] theorem World.ref_makeShared (w : World τ) : w.makeShared.ref = w.ref := rfl

@[simp] theorem World.ref_breakPromise (w : World τ) (r : Option ℕ) :
    (w.breakPromise r).ref = w.ref := by
  cases r <;> rfl

/-- The move assignment of `promise` moves the reference. -/
theorem World.ref_promiseMoveAssign {o src : ℕ} {x y : Object} (hy : w.objects src = some y) :
    (w.promiseMoveAssign o src x y).ref = Owners.move w.ref o src := by
  simp [World.promiseMoveAssign, Owners.move, World.ref_of_objects hy]

/-- Breaking a promise allocates nothing. -/
@[simp] theorem World.allocated_breakPromise (w : World τ) (r : Option ℕ) :
    (w.breakPromise r).allocated = w.allocated := by
  cases r <;> rfl

/-! ### The invariant -/

/-- What holds of every shared state. -/
structure State.Ok (st : State τ) : Prop where
  /-- Between operations no call is in transition. -/
  settled : st.status ≠ .transition
  /-- Tasks wait on empty states, through a future. -/
  waiting : ∀ t ∈ st.waiters, st.status = .empty ∧ 0 < st.futures

/-- What holds of all objects and shared states. -/
structure Inv (w : World τ) : Prop where
  bounded : ∀ o s, w.ref o = some s → s < w.allocated
  exclusive : Exclusive w.ref
  unused : ∀ s, w.allocated ≤ s → w.states s = .init τ
  states : ∀ s, (w.states s).Ok
  /-- An empty state that a future refers to has a provider. -/
  provided : ∀ s, 0 < (w.states s).futures → (w.states s).status = .empty → Owned w.ref s

namespace State

/-- Nobody waits on a new state. -/
theorem Ok.init : (State.init τ).Ok := ⟨by simp [State.init], by simp [State.init]⟩

/-- Nobody waits on a broken state. -/
theorem Ok.breakPromise {st : State τ} (h : st.Ok) : st.breakPromise.Ok := by
  unfold State.breakPromise
  split
  · exact ⟨by simp, by simp⟩
  · exact h

/-- A broken state is not empty. -/
theorem breakPromise_status (st : State τ) : st.breakPromise.status ≠ .empty := by
  unfold State.breakPromise
  split
  · simp
  · assumption

/-- `break_promise` breaks, or leaves the state as it is. -/
theorem breakPromise_cases (st : State τ) :
    st.breakPromise.status = .broken ∨ st.breakPromise = st := by
  unfold State.breakPromise
  split
  · exact .inl rfl
  · exact .inr rfl

end State

namespace Inv

/-- The invariant holds before the first operation. -/
theorem start : Inv (Promise.start τ).shared where
  bounded o s h := by simp [Promise.start, World.ref] at h
  exclusive o o' s h := by simp [Promise.start, World.ref] at h
  unused s _ := rfl
  states s := .init
  provided s h := by simp [Promise.start, State.init] at h

/-- A shared state changes. -/
theorem setState (h : Inv w) {s : ℕ} {st : State τ} (hs : s < w.allocated) (hst : st.Ok)
    (hp : 0 < st.futures → st.status = .empty → Owned w.ref s) : Inv (w.setState s st) where
  bounded := h.bounded
  exclusive := h.exclusive
  unused s' hs' := by
    change Function.update w.states s st s' = _
    rw [Function.update_of_ne (by rintro rfl; exact absurd hs (Nat.not_lt.2 hs'))]
    exact h.unused s' hs'
  states s' := by
    change (Function.update w.states s st s').Ok
    rcases eq_or_ne s' s with rfl | hne
    · rwa [Function.update_self]
    · rw [Function.update_of_ne hne]
      exact h.states s'
  provided s' := by
    change 0 < (Function.update w.states s st s').futures →
      (Function.update w.states s st s').status = .empty → Owned w.ref s'
    rcases eq_or_ne s' s with rfl | hne
    · rwa [Function.update_self]
    · rw [Function.update_of_ne hne]
      exact h.provided s'

/-- Breaking the promise of an allocated state keeps the invariant. -/
theorem breakPromise (h : Inv w) {r : Option ℕ} (hr : ∀ s ∈ r, s < w.allocated) :
    Inv (w.breakPromise r) := by
  cases r with
  | none => exact h
  | some s =>
    exact h.setState (hr s rfl) (h.states s).breakPromise fun _ he =>
      absurd he (w.states s).breakPromise_status

/-- So does allocating a state. -/
theorem makeShared (h : Inv w) : Inv w.makeShared where
  bounded o s hs := Nat.lt_succ_of_lt (h.bounded o s hs)
  exclusive := h.exclusive
  unused s hs := by
    have hs : w.allocated + 1 ≤ s := hs
    change Function.update w.states w.allocated (.init τ) s = _
    rw [Function.update_of_ne (by omega)]
    exact h.unused s (by omega)
  states s := by
    change (Function.update w.states w.allocated (.init τ) s).Ok
    rcases eq_or_ne s w.allocated with rfl | hne
    · rw [Function.update_self]
      exact .init
    · rw [Function.update_of_ne hne]
      exact h.states s
  provided s := by
    change 0 < (Function.update w.states w.allocated (.init τ) s).futures →
      (Function.update w.states w.allocated (.init τ) s).status = .empty → Owned w.ref s
    rcases eq_or_ne s w.allocated with rfl | hne
    · rw [Function.update_self]
      exact fun hf => absurd hf (by simp [State.init])
    · rw [Function.update_of_ne hne]
      exact h.provided s

/-- What the objects refer to changes.  A state that loses its provider was broken, or
has no future. -/
theorem refs (h : Inv w) (hstates : w'.states = w.states) (hall : w'.allocated = w.allocated)
    (hb : ∀ o s, w'.ref o = some s → s < w.allocated) (he : Exclusive w'.ref)
    (hp : ∀ s, 0 < (w.states s).futures → (w.states s).status = .empty → Owned w.ref s →
      Owned w'.ref s) : Inv w' where
  bounded o s hs := hall ▸ hb o s hs
  exclusive := he
  unused s hs := by rw [hstates]; exact h.unused s (hall ▸ hs)
  states s := by rw [hstates]; exact h.states s
  provided s hf hs := by
    rw [hstates] at hf hs
    exact hp s hf hs (h.provided s hf hs)

/-- An object is given a shared state that nobody refers to. -/
theorem give (h : Inv w) {o a : ℕ} {x : Object} (hx : x.state = some a) (ha : a < w.allocated)
    (hfree : ∀ o', w.ref o' ≠ some a) (hlost : ∀ s ∈ w.ref o, (w.states s).status ≠ .empty) :
    Inv (w.setObject o (some x)) := by
  have href : (w.setObject o (some x)).ref = Function.update w.ref o (some a) := by
    rw [World.ref_setObject, Option.bind_some, hx]
  refine h.refs rfl rfl ?_ ?_ ?_ <;> rw [href]
  · intro o' s hs
    rcases update_eq_some.1 hs with ⟨-, hs⟩ | ⟨-, hs⟩
    · exact Option.some.inj hs ▸ ha
    · exact h.bounded o' s hs
  · exact h.exclusive.give fun o' _ => hfree o'
  · exact fun s _ he => owned_update fun ho => hlost s ho he

/-- An object is destroyed, or left without a shared state. -/
theorem clear (h : Inv w) {o : ℕ} {x : Option Object} (hx : x.bind Object.state = none)
    (hlost : ∀ s ∈ w.ref o, (w.states s).status ≠ .empty) : Inv (w.setObject o x) := by
  have href : (w.setObject o x).ref = Function.update w.ref o none := by
    rw [World.ref_setObject, hx]
  refine h.refs rfl rfl ?_ ?_ ?_ <;> rw [href]
  · intro o' s hs
    rcases update_eq_some.1 hs with ⟨-, hs⟩ | ⟨-, hs⟩
    · simp at hs
    · exact h.bounded o' s hs
  · exact h.exclusive.clear o
  · exact fun s _ he => owned_update fun ho => hlost s ho he

/-- The shared state of `src` is moved to `dst`. -/
theorem move (h : Inv w) (dst src : ℕ) (hstates : w'.states = w.states)
    (hall : w'.allocated = w.allocated) (href : w'.ref = Owners.move w.ref dst src)
    (hlost : ∀ s ∈ w.ref dst, dst = src ∨ (w.states s).futures = 0 ∨
      (w.states s).status ≠ .empty) : Inv w' := by
  refine h.refs hstates hall ?_ ?_ ?_ <;> rw [href]
  · intro o s hs
    rcases update_eq_some.1 hs with ⟨-, hs⟩ | ⟨-, hs⟩
    · exact h.bounded src s hs
    · rcases update_eq_some.1 hs with ⟨-, hs⟩ | ⟨-, hs⟩
      · simp at hs
      · exact h.bounded o s hs
  · exact h.exclusive.move dst src
  · intro s hf he ho
    refine (owned_move h.exclusive).2 ⟨ho, ?_⟩
    by_contra hcon
    push Not at hcon
    rcases hlost s hcon.2 with hd | h0 | hne
    · exact hcon.1 hd
    · omega
    · exact hne he

/-- A call on the shared state of a living object. -/
theorem onState (h : Inv w) {o : ℕ} {x : Object} {f : State τ → Except FutureErrc (State τ)}
    (ho : w.objects o = some x) (hf : ∀ st st', st.Ok → f st = .ok st' → st'.Ok)
    (hok : w.onState x f = .ok w') : Inv w' := by
  cases hx : x.state with
  | none => simp [World.onState, Object.ensureValid, hx] at hok
  | some s =>
    have href : w.ref o = some s := (World.ref_of_objects ho).trans hx
    simp only [World.onState, Object.ensureValid, hx] at hok
    cases hfs : f (w.states s) with
    | error errc => simp [hfs, Except.map] at hok
    | ok st =>
      obtain rfl := by simpa [hfs, Except.map] using hok
      exact h.setState (h.bounded o s href) (hf _ _ (h.states s) hfs) fun _ _ => ⟨o, href⟩

end Inv

namespace State

variable {st st' : State τ}

/-- A satisfied state has a final status and no waiters. -/
theorem Ok.satisfy {status : Status} (hne : status ≠ .transition)
    (hs : st.satisfy status = .ok st') : st'.Ok := by
  unfold State.satisfy at hs
  split at hs
  · obtain rfl := by simpa using hs
    exact ⟨hne, by simp⟩
  · simp at hs

/-- Nobody waits on a state that has its value. -/
theorem Ok.setValue {throws : Bool} (hs : st.setValue throws = .ok st') : st'.Ok :=
  .satisfy (by cases throws <;> simp) hs

/-- Nor on one that has what a callable returned or threw. -/
theorem Ok.invoke {callable throws : Bool} (hs : st.invoke callable throws = .ok st') :
    st'.Ok := by
  unfold State.invoke at hs
  split at hs
  · exact .satisfy (by simp) hs
  · split at hs
    · rename_i hv
      obtain rfl := by simpa using hs
      exact .setValue hv
    · exact .satisfy (by simp) hs

/-- `get_future` leaves a state in order. -/
theorem Ok.getFuture (h : st.Ok) (hs : st.getFuture = .ok st') : st'.Ok := by
  unfold State.getFuture at hs
  split at hs
  · simp at hs
  · obtain rfl := by simpa using hs
    exact ⟨h.settled, fun t ht => ⟨(h.waiting t ht).1, Nat.succ_pos _⟩⟩

end State

/-! ### The operations -/

/-- The move assignment of another `promise` to one whose state is still empty and has
a future. -/
def Op.abandons (w : World τ) : Op → Bool
  | .moveAssign o src =>
    match w.objects o with
    | some ⟨.promise, _, some s⟩ =>
      o != src && (w.states s).status == .empty && 0 < (w.states s).futures
    | _ => false
  | _ => false

/-- A move assignment abandons a state that is empty and has a future, in a promise other than
its source. -/
theorem Op.abandons_moveAssign {o src : ℕ} :
    (Op.moveAssign o src).abandons w = true ↔ ∃ x s, w.objects o = some x ∧
      x.provider = .promise ∧ x.state = some s ∧ o ≠ src ∧ (w.states s).status = .empty ∧
      0 < (w.states s).futures := by
  constructor
  · intro h
    simp only [Op.abandons] at h
    split at h
    · rename_i r s ho
      simp only [Bool.and_eq_true, bne_iff_ne, beq_iff_eq, decide_eq_true_eq] at h
      exact ⟨_, s, ho, rfl, rfl, h.1.1, h.1.2, h.2⟩
    · simp at h
  · rintro ⟨⟨p, r, st⟩, s, ho, rfl, rfl, hne, he, hf⟩
    simp [Op.abandons, ho, hne, he, hf]

namespace Inv

/-- An object refers to a state that has been allocated. -/
theorem ref_lt (h : Inv w) {o : ℕ} {x : Object} (ho : w.objects o = some x) :
    ∀ s ∈ x.state, s < w.allocated :=
  fun s hs => h.bounded o s ((World.ref_of_objects ho).trans hs)

/-- `break_promise` on what an object refers to leaves it with no empty state. -/
theorem status_breakPromise {o : ℕ} {x : Object} (ho : w.objects o = some x) :
    ∀ s ∈ (w.breakPromise x.state).ref o, ((w.breakPromise x.state).states s).status ≠ .empty := by
  intro s hs
  rw [World.ref_breakPromise, World.ref_of_objects ho] at hs
  rw [hs]
  change (Function.update w.states s (w.states s).breakPromise s).status ≠ .empty
  rw [Function.update_self]
  exact (w.states s).breakPromise_status

/-- A move assignment of promises that abandons no state keeps the invariant. -/
theorem promiseMoveAssign (h : Inv w) {o src : ℕ} {x y : Object} (ho : w.objects o = some x)
    (hy : w.objects src = some y) (hx : x.provider = .promise)
    (ha : (Op.moveAssign o src).abandons w = false) : Inv (w.promiseMoveAssign o src x y) := by
  refine h.move o src rfl rfl (World.ref_promiseMoveAssign hy) fun s hs => ?_
  have hs : x.state = some s := (World.ref_of_objects ho).symm.trans hs
  by_contra hcon
  push Not at hcon
  obtain ⟨hne, hf, he⟩ := hcon
  have := Op.abandons_moveAssign.2 ⟨x, s, ho, hx, hs, hne, he, Nat.pos_of_ne_zero hf⟩
  simp [ha] at this

/-- A move assignment of tasks breaks the state it lets go, and keeps the invariant. -/
theorem taskMoveAssign (h : Inv w) {o src : ℕ} {x y : Object} (ho : w.objects o = some x)
    (hy : w.objects src = some y) : Inv (w.taskMoveAssign o src x y) := by
  unfold World.taskMoveAssign
  split_ifs with hne
  · exact h
  · refine (h.breakPromise (h.ref_lt ho)).move o src rfl rfl ?_ fun s hs =>
      .inr (.inr (status_breakPromise ho s hs))
    simp [Owners.move, World.ref_of_objects hy]

/-- `swap` keeps the invariant. -/
theorem swap (h : Inv w) {a b : ℕ} {x y : Object} (ha : w.objects a = some x)
    (hb : w.objects b = some y) : Inv (w.swap a b x y) := by
  have href : (w.swap a b x y).ref = exchange w.ref a b := by
    funext o
    simp only [World.swap, World.ref_setObject, Option.bind_some, exchange, Function.comp_apply]
    rcases eq_or_ne o b with rfl | hob
    · simp [World.ref_of_objects ha]
    · rcases eq_or_ne o a with rfl | hoa
      · simp [Function.update_of_ne hob, World.ref_of_objects hb]
      · simp [Function.update_of_ne hob, Function.update_of_ne hoa,
          Equiv.swap_apply_of_ne_of_ne hoa hob]
  refine h.refs rfl rfl ?_ ?_ ?_ <;> rw [href]
  · exact fun o s hs => h.bounded _ s hs
  · exact h.exclusive.exchange a b
  · exact fun s _ _ => owned_exchange.2

/-- `reset` breaks the old state, and keeps the invariant. -/
theorem reset (h : Inv w) {o : ℕ} {x : Object} (ho : w.objects o = some x)
    (hr : w.reset o x = .ok w') : Inv w' := by
  cases hx : x.state with
  | none => simp [World.reset, Object.ensureValid, hx] at hr
  | some s =>
    obtain rfl := by simpa [World.reset, Object.ensureValid, hx] using hr
    have hlt := h.ref_lt ho s hx
    have hbreak := (h.makeShared.breakPromise (r := some s)
      (by rintro _ ⟨⟩; exact Nat.lt_succ_of_lt hlt))
    refine hbreak.give rfl (Nat.lt_succ_self _) (fun o' hs => ?_) ?_
    · exact absurd (h.bounded o' _ hs) (lt_irrefl _)
    · have := status_breakPromise (w := w.makeShared) ho
      rwa [hx] at this

/-- A state that a future refers to has been allocated. -/
theorem lt_of_futures (h : Inv w) {s : ℕ} (hf : 0 < (w.states s).futures) : s < w.allocated := by
  by_contra hge
  rw [h.unused s (Nat.not_lt.1 hge)] at hf
  simp [State.init] at hf

/-- **An operation that does not abandon keeps the invariant.** -/
theorem run (h : Inv w) {op : Op} (ha : op.abandons w = false)
    (hr : op.run w = some (.ok w')) : Inv w' := by
  cases op with
  | construct o provider result =>
    obtain ⟨ho, rfl⟩ := by simpa [Op.run] using hr
    refine h.makeShared.give rfl (Nat.lt_succ_self _) (fun o' hs => ?_) ?_
    · exact absurd (h.bounded o' _ hs) (lt_irrefl _)
    · simp [World.ref_eq_none ho]
  | constructInvalid o result =>
    obtain ⟨ho, rfl⟩ := by simpa [Op.run] using hr
    exact h.clear rfl (by simp [World.ref_eq_none ho])
  | moveConstruct o src =>
    simp only [Op.run] at hr
    split at hr
    · rename_i y ho hy
      obtain rfl := by simpa using hr
      refine h.move o src rfl rfl ?_ (by simp [World.ref_eq_none ho])
      simp [World.moveConstruct, Owners.move, World.ref_of_objects hy]
    · simp at hr
  | moveAssign o src =>
    simp only [Op.run] at hr
    split at hr
    · rename_i x y ho hy
      split_ifs at hr with hty
      split at hr <;> obtain rfl := by simpa using hr
      · exact h.promiseMoveAssign ho hy ‹_› ha
      · exact h.taskMoveAssign ho hy
    · simp at hr
  | swap a b =>
    simp only [Op.run] at hr
    split at hr
    · rename_i x y hx hy
      split_ifs at hr with hty
      obtain rfl := by simpa using hr
      exact h.swap hx hy
    · simp at hr
  | getFuture o =>
    obtain ⟨x, ho, hx⟩ := Option.map_eq_some_iff.1 hr
    exact h.onState ho (fun _ _ => State.Ok.getFuture) hx
  | setValue o throws =>
    simp only [Op.run] at hr
    split at hr
    · rename_i x ho
      split_ifs at hr
      exact h.onState ho (fun _ _ _ => State.Ok.setValue) (Option.some.inj hr)
    · simp at hr
  | setException o =>
    simp only [Op.run] at hr
    split at hr
    · rename_i x ho
      split_ifs at hr
      exact h.onState ho (fun _ _ _ => State.Ok.satisfy (by simp)) (Option.some.inj hr)
    · simp at hr
  | invoke o callable throws =>
    simp only [Op.run] at hr
    split at hr
    · rename_i x ho
      split_ifs at hr
      exact h.onState ho (fun _ _ _ => State.Ok.invoke) (Option.some.inj hr)
    · simp at hr
  | reset o =>
    simp only [Op.run] at hr
    split at hr
    · rename_i x ho
      split_ifs at hr
      exact h.reset ho (Option.some.inj hr)
    · simp at hr
  | destroy o =>
    obtain ⟨x, ho, hx⟩ := Option.map_eq_some_iff.1 hr
    obtain rfl := by simpa using hx
    exact (h.breakPromise (h.ref_lt ho)).clear rfl (status_breakPromise ho)
  | copyFuture s =>
    obtain ⟨hf, rfl⟩ := by simpa [Op.run] using hr
    exact h.setState (h.lt_of_futures hf)
      ⟨(h.states s).settled, fun t ht => ⟨((h.states s).waiting t ht).1, Nat.succ_pos _⟩⟩
      fun _ he => h.provided s hf he
  | dropFuture s =>
    obtain ⟨⟨hf, hw⟩, rfl⟩ := by simpa [Op.run] using hr
    refine h.setState (h.lt_of_futures hf) ⟨(h.states s).settled, fun t ht => ?_⟩
      fun _ he => h.provided s hf he
    refine ⟨((h.states s).waiting t ht).1, ?_⟩
    have hne : (w.states s).futures ≠ 1 := fun h1 => by simp [hw h1] at ht
    simp only
    omega
  | wait s | «continue» => simp [Op.run] at hr

/-- A task is suspended on an empty state. -/
theorem wait (h : Inv w) {s : ℕ} {t : τ} (hf : 0 < (w.states s).futures)
    (hr : (w.states s).status.ready = false) :
    Inv (w.setState s { w.states s with waiters := (w.states s).waiters ++ [t] }) := by
  have he : (w.states s).status = .empty := by
    have := (h.states s).settled
    cases hs : (w.states s).status <;> simp_all [Status.ready]
  exact h.setState (h.lt_of_futures hf) ⟨(h.states s).settled, fun _ _ => ⟨he, hf⟩⟩ (h.provided s)

end Inv

end Promise
end CoopSync
