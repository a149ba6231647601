/-
# One consumer or only readers

What holds of the handles after any run (`referred_of_reachable`, `slots_of_reachable`),
and what a shared state keeps in every later step: the flag that `get_future` sets, and its
outcome (`State.Kept`).  So a state has one `future` or any number of `shared_future`s,
and its value is moved out by the one or read by the others.
-/

import CoopSync.Handles.Consumers

namespace CoopSync
namespace Handles

open Future Owners

variable {τ κ ν σ ε : Type*} {V : Variant ν σ} {w w' : World κ ν σ ε}

/-! ### What a shared state keeps -/

/-- What stays of a shared state. -/
structure State.Kept (st st' : State ν σ ε) : Prop where
  obtained : st.futureObtained = true → st'.futureObtained = true
  outcome : ∀ v, st.outcome = some v → st'.outcome = some v

namespace State.Kept

variable {st st' st'' : State ν σ ε} {s : ℕ}

/-- A state keeps what it is. -/
theorem refl : st.Kept st := ⟨id, fun _ => id⟩

/-- What is kept twice is kept. -/
theorem trans (h : st.Kept st') (h' : st'.Kept st'') : st.Kept st'' :=
  ⟨fun hf => h'.obtained (h.obtained hf), fun v hv => h'.outcome v (h.outcome v hv)⟩

/-- A call that takes effect finds no outcome. -/
theorem satisfies (hok : st.Ok V) (h : Satisfies V st st') : st.Kept st' :=
  ⟨fun hf => h.futureObtained.trans hf, (hok.satisfies h).2.1⟩

/-- A change of one state that is kept keeps all. -/
theorem update {states : ℕ → State ν σ ε} (h : (states s).Kept st) (s' : ℕ) :
    (states s').Kept (Function.update states s st s') := by
  rcases eq_or_ne s' s with rfl | hne
  · simpa using h
  · simpa [hne] using refl

/-- Breaking a promise keeps every state that is satisfied. -/
theorem breakPromise (h : Slots V w) (r : Option ℕ) (s' : ℕ) :
    (w.states s').Kept ((w.breakPromise r).states s') := by
  cases r with
  | none => exact refl
  | some s =>
    refine update ⟨fun hf => ?_, (h.states s).breakPromise.2.1⟩ s'
    unfold State.breakPromise
    split_ifs <;> exact hf

end State.Kept

/-- So does every operation. -/
theorem Step.kept {op : Op κ ν ε} (hs : Step V w op w') (hR : Referred V w) (h : Slots V w)
    (s : ℕ) : (w.states s).Kept (w'.states s) := by
  cases hs with
  | stay | constructInvalid | moveConstruct | copyConstruct | copyAssign | swap | rejects | share
  | begins | waited | endShared => exact .refl
  | construct =>
    rw [hR.states_construct]
    exact .refl
  | moveAssign =>
    unfold World.moveAssign
    split_ifs
    · exact .refl
    · exact .breakPromise h _ s
    · exact .refl
  | getFuture =>
    refine State.Kept.update ?_ s
    exact ⟨fun _ => rfl, fun _ => id⟩
  | satisfies _ _ _ hst => exact .update (.satisfies (h.states _) hst) s
  | invoke | throwStored | take | endGet =>
    refine State.Kept.update ?_ s
    exact ⟨id, fun _ => id⟩
  | reset =>
    rw [← congrFun hR.states_makeShared s]
    exact .breakPromise (h.makeShared hR) _ s
  | destroy =>
    unfold World.destroy
    split_ifs
    · exact .breakPromise h _ s
    · exact .refl

/-! ### Whole runs -/

/-- A step of the machine is one of the operations. -/
theorem step_of_next {t : τ} {op : Op κ ν ε} {l : Unit} (h : next V t op w () = some (w', l)) :
    Step V w op w' := by
  obtain ⟨⟨w₁, thrown⟩, hrun, he⟩ := Option.map_eq_some_iff.1 h
  obtain ⟨rfl, -⟩ := Prod.ext_iff.1 he
  exact step_of_run hrun

/-- The references of an empty world are in order. -/
theorem Referred.start : Referred V (start V τ κ ε).shared where
  bounded := nofun
  unused _ _ := rfl
  providers := nofun
  futures := nofun
  apart := nofun
  obtained := by
    rintro s (⟨o, ho⟩ | ⟨o, ho⟩) <;> simp [World.refs, Handles.start] at ho

/-- So are its handles, states and reports. -/
theorem Slots.start : Slots V (start V τ κ ε).shared where
  objects := nofun
  states _ := .init
  reports := nofun
  once := .nil

section Runs

variable [DecidableEq τ] {c c' : Config τ (World κ ν σ ε) Unit}

/-- Runs keep both invariants, and every shared state its flag and its outcome. -/
theorem kept_of_run (hR : Referred V c.shared) (hS : Slots V c.shared)
    (h : Reachable (next V) c c') : Referred V c'.shared ∧ Slots V c'.shared ∧
      ∀ s, (c.shared.states s).Kept (c'.shared.states s) :=
  h.invariant
    (I := fun c' => Referred V c'.shared ∧ Slots V c'.shared ∧
      ∀ s, (c.shared.states s).Kept (c'.shared.states s))
    ⟨hR, hS, fun _ => .refl⟩
    fun _ _ _ _ _ _ hI _ hn => by
      obtain ⟨hR, hS, hk⟩ := hI
      have hs := step_of_next hn
      exact ⟨hs.referred hR, hs.slots hR hS, fun s => (hk s).trans (hs.kept hR hS s)⟩

/-- Both are in order in every run. -/
theorem referred_slots_of_reachable (h : Reachable (next V) (start V τ κ ε) c) :
    Referred V c.shared ∧ Slots V c.shared := by
  obtain ⟨hR, hS, -⟩ := kept_of_run .start .start h
  exact ⟨hR, hS⟩

/-- A state with a future obtained from it is not given another. -/
theorem getFuture_of_obtained {o dst s : ℕ} {x : Object κ} (hx : w.idle o = some x)
    (hp : x.kind.provides = true) (hs : x.state = some s) (hd : w.objects dst = none)
    (hf : (w.states s).futureObtained = true) :
    (Op.getFuture o dst).run V w = some (w, some .futureAlreadyRetrieved) := by
  simp [Op.run, hx, hd, hp, hs, State.markFutureObtained, hf]

/-- `get_future` that succeeds sets the flag. -/
theorem obtained_of_getFuture {o dst s : ℕ} {x : Object κ} (hx : w.objects o = some x)
    (hs : x.state = some s) (h : (Op.getFuture o dst).run V w = some (w', none)) :
    (w'.states s).futureObtained = true := by
  simp only [Op.run] at h
  split at h
  · rename_i y hy hd
    obtain ⟨hy, -⟩ := idle_eq_some.1 hy
    obtain rfl := Option.some.inj (hx.symm.trans hy)
    simp only [hs, State.markFutureObtained] at h
    split_ifs at h with hp hf
    · simp at h
    · obtain rfl := by simpa using h
      simp [World.getFuture, World.setObject, World.setState]
  · simp at h

/-- While a consumer with no `get` about to let it go refers to a state with a value, the
slot holds the value. -/
theorem Slots.read {o s : ℕ} {x : Object κ} {v : ν} (h : Slots V w) (hx : w.objects o = some x)
    (hs : x.state = some s) (hk : x.kind.consumes = true) (hr : x.running ≠ some .reset)
    (hv : (w.states s).outcome = some (.value v)) : V.read (w.states s).value = some v := by
  have htak := (h.objects o x hx).not_taken hr hs hk
  have hset := (h.states s).settled
  cases hst : (w.states s).status with
  | value =>
    simp only [hst] at hset
    obtain ⟨v', hv', hread⟩ := hset
    rw [hv] at hv'
    obtain rfl := Outcome.value.inj (Option.some.inj hv')
    exact hread htak
  | empty | exception | broken =>
    simp only [hst] at hset
    simp [hv] at hset
  | transition => simp [hst] at hset

/-- **One consumer or only readers.**  After any run no state is referred to by two
`future`s, nor by a `future` and a `shared_future`.  Once `get_future` has succeeded for a
state it throws `future_already_retrieved` for it through every provider, in every later
run.  No `get` reports a state whose value a `future::get` has moved out before, and while
`shared_future`s refer to a state with a value the slot holds that value, which is what
every `get` on it returns. -/
theorem one_consumer_or_readers (h : Reachable (next V) (start V τ κ ε) c) :
    Exclusive (c.shared.refs Kind.isFuture) ∧
    (∀ s, Owned (c.shared.refs Kind.isFuture) s → ¬Owned (c.shared.refs Kind.isShared) s) ∧
    (∀ o dst x s w' c', c.shared.objects o = some x → x.state = some s →
      (Op.getFuture o dst).run V c.shared = some (w', none) →
      Reachable (next V) ⟨w', c.loc⟩ c' →
      ∀ o' dst' x', c'.shared.idle o' = some x' → x'.kind.provides = true → x'.state = some s →
        c'.shared.objects dst' = none →
        (Op.getFuture o' dst').run V c'.shared =
          some (c'.shared, some .futureAlreadyRetrieved)) ∧
    (c.shared.reports.Pairwise fun r r' => r.moves → r'.state ≠ r.state) ∧
    ∀ s v c', (c.shared.states s).outcome = some (.value v) → Reachable (next V) c c' →
      (∀ r ∈ c'.shared.reports, r.state = s → r.outcome = some (.value v)) ∧
      (Owned (c'.shared.refs Kind.isShared) s →
        V.read (c'.shared.states s).value = some v) := by
  obtain ⟨hR, hS⟩ := referred_slots_of_reachable h
  refine ⟨hR.futures, hR.apart, ?_, hS.once, ?_⟩
  · intro o dst x s w' c' hx hs hrun h' o' dst' x' hx' hp hs' hd
    have hstep := step_of_run hrun
    obtain ⟨-, -, hk⟩ := kept_of_run (hstep.referred hR) (hstep.slots hR hS) h'
    exact getFuture_of_obtained hx' hp hs' hd
      ((hk s).obtained (obtained_of_getFuture hx hs hrun))
  · intro s v c' hv h'
    obtain ⟨-, hS', hk⟩ := kept_of_run hR hS h'
    have hout := (hk s).outcome _ hv
    refine ⟨fun r hr hs => ?_, ?_⟩
    · obtain ⟨-, ho, -⟩ := hS'.reports r hr
      rw [ho, hs, hout]
    · rintro ⟨o, ho⟩
      obtain ⟨x, hx, hk, hs⟩ := refs_eq_some.1 ho
      have hshared : x.kind = .sharedFuture := by simpa [Kind.isShared] using hk
      refine hS'.read hx hs (by rw [hshared]; rfl) (fun hr => ?_) hout
      -- only a `future` resets itself
      have := (hS'.objects o x hx).running
      simp [hr, hshared] at this

/-- A promise with a future that is shared and copied, both read; then one whose future is
read. -/
def sharedAndTaken : List (Unit × Op ℕ ℕ Unit) :=
  [.share 1 2, .setValue 0 7 none, .copyConstruct 3 2, .get 2, .continue 2, .get 3, .continue 3,
    .promise 4, .getFuture 4 5, .setValue 4 9 none, .get 5, .continue 5, .continue 5].map (() , ·)

/-- After that run there is one value in the first slot, for two readers, and the second
future of the first promise is refused. -/
theorem one_consumer_or_readers_copied : ∃ w c',
    (Op.getFuture 0 1).run (sharedState ℕ)
      ((start (sharedState ℕ) Unit ℕ Unit).shared.construct (sharedState ℕ) 0 .promise none) =
        some (w, none) ∧
    Config.exec (next (sharedState ℕ)) ⟨w, fun _ => ()⟩ sharedAndTaken = some c' ∧
    (Op.getFuture 0 6).run (sharedState ℕ) c'.shared =
      some (c'.shared, some .futureAlreadyRetrieved) ∧
    (c'.shared.reports.map Report.outcome =
      [some (.value 7), some (.value 7), some (.value 9)]) ∧
    (c'.shared.reports.Pairwise fun r r' => r.moves → r'.state ≠ r.state) ∧
    (sharedState ℕ).read (c'.shared.states 0).value = some 7 := by
  refine ⟨_, _, rfl, rfl, ?_⟩
  have hstart := one_consumer_or_readers (V := sharedState ℕ) (τ := Unit) (κ := ℕ) (ε := Unit)
    (reachable_of_exec (l := [((), .promise 0)]) rfl)
  have hend := one_consumer_or_readers (V := sharedState ℕ) (τ := Unit) (κ := ℕ) (ε := Unit)
    (reachable_of_exec (l := ((), .promise 0) :: ((), .getFuture 0 1) :: sharedAndTaken) rfl)
  refine ⟨?_, rfl, hend.2.2.2.1, ?_⟩
  · exact hstart.2.2.1 0 1 _ 0 _ _ rfl rfl rfl (reachable_of_exec (l := sharedAndTaken) rfl)
      0 6 _ rfl rfl rfl rfl
  · exact (hend.2.2.2.2 0 7 _ rfl .start).2 ⟨2, rfl⟩

end Runs

end Handles
end CoopSync
