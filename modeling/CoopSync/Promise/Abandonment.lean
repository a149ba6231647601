/-
# Which shared states are abandoned

A shared state that is still empty must have a provider: otherwise a task suspended
on it is never resumed.  An operation that takes the last provider from an empty
state breaks it and resumes the tasks (`Inv.broken_of_lost`), but for the move
assignment of `promise`: it leaves the state empty (`Inv.not_provided`).

A run without such an assignment abandons no state, and one such assignment does
(`no_state_abandoned`).
-/

import CoopSync.Promise.Providers

namespace CoopSync
namespace Promise

open Future Owners

variable {τ : Type*} {w w' : World τ}

/-! ### Letting go of a state -/

/-- A call on a shared state moves no reference. -/
theorem World.onState_ref {x : Object} {f : State τ → Except FutureErrc (State τ)}
    (hok : w.onState x f = .ok w') : w'.ref = w.ref := by
  unfold World.onState at hok
  split at hok
  · rename_i s _
    cases hf : f (w.states s) with
    | error errc => simp [hf, Except.map] at hok
    | ok st =>
      obtain rfl := by simpa [hf, Except.map] using hok
      rfl
  · simp at hok

/-- A break leaves a state's status, or breaks it. -/
theorem World.status_breakPromise (w : World τ) (r : Option ℕ) (s : ℕ) :
    ((w.breakPromise r).states s).status = (w.states s).status ∨
      ((w.breakPromise r).states s).status = .broken := by
  cases r with
  | none => exact .inl rfl
  | some s' =>
    change (Function.update w.states s' (w.states s').breakPromise s).status = _ ∨
      (Function.update w.states s' (w.states s').breakPromise s).status = _
    rcases eq_or_ne s s' with rfl | hne
    · rw [Function.update_self]
      rcases (w.states s).breakPromise_cases with hb | hb
      · exact .inr hb
      · exact .inl (by rw [hb])
    · rw [Function.update_of_ne hne]
      exact .inl rfl

/-- An allocation leaves the states there are. -/
theorem World.status_makeShared (w : World τ) {s : ℕ} (hs : s < w.allocated) :
    (w.makeShared.states s).status = (w.states s).status := by
  change (Function.update w.states w.allocated (.init τ) s).status = _
  rw [Function.update_of_ne (by omega)]

/-- An operation that changes what the objects refer to satisfies no shared state: it
leaves the status of a state, or breaks it. -/
theorem Op.run_status {op : Op} (hr : op.run w = some (.ok w')) :
    w'.ref = w.ref ∨ ∀ s < w.allocated,
      (w'.states s).status = (w.states s).status ∨ (w'.states s).status = .broken := by
  cases op with
  | construct o provider result =>
    obtain ⟨-, rfl⟩ := by simpa [Op.run] using hr
    exact .inr fun s hs => .inl (w.status_makeShared hs)
  | constructInvalid o result =>
    obtain ⟨-, rfl⟩ := by simpa [Op.run] using hr
    exact .inr fun _ _ => .inl rfl
  | moveConstruct o src =>
    simp only [Op.run] at hr
    split at hr
    · obtain rfl := by simpa using hr
      exact .inr fun _ _ => .inl rfl
    · simp at hr
  | moveAssign o src =>
    simp only [Op.run] at hr
    split at hr
    · rename_i x y ho hy
      split_ifs at hr
      split at hr <;> obtain rfl := by simpa using hr
      · exact .inr fun _ _ => .inl rfl
      · refine .inr fun s _ => ?_
        unfold World.taskMoveAssign
        split_ifs
        · exact .inl rfl
        · exact w.status_breakPromise x.state s
    · simp at hr
  | swap a b =>
    simp only [Op.run] at hr
    split at hr
    · split_ifs at hr
      obtain rfl := by simpa using hr
      exact .inr fun _ _ => .inl rfl
    · simp at hr
  | getFuture o =>
    obtain ⟨x, -, hx⟩ := Option.map_eq_some_iff.1 hr
    exact .inl (World.onState_ref hx)
  | setValue o | setException o | invoke o =>
    simp only [Op.run] at hr
    split at hr
    · split_ifs at hr
      exact .inl (World.onState_ref (Option.some.inj hr))
    · simp at hr
  | reset o =>
    simp only [Op.run] at hr
    split at hr
    · rename_i x ho
      split_ifs at hr
      have hr := Option.some.inj hr
      unfold World.reset at hr
      split at hr
      · rename_i s' _
        obtain rfl := by simpa using hr
        refine .inr fun s hs => ?_
        rw [← w.status_makeShared hs]
        exact w.makeShared.status_breakPromise (some s') s
      · simp at hr
    · simp at hr
  | destroy o =>
    obtain ⟨x, -, hx⟩ := Option.map_eq_some_iff.1 hr
    obtain rfl := by simpa using hx
    exact .inr fun s _ => w.status_breakPromise x.state s
  | copyFuture s | dropFuture s =>
    obtain ⟨-, rfl⟩ := by simpa [Op.run] using hr
    exact .inl rfl
  | wait s | «continue» => simp [Op.run] at hr

/-! ### Runs -/

variable [DecidableEq τ] {c c' : Config τ (World τ) Task} {t : τ} {op : Op}

/-- What a step does: an operation that did not throw, a suspension, or nothing. -/
theorem next_cases {w w' : World τ} {l l' : Task} (h : next t op w l = some (w', l')) :
    op.run w = some (.ok w') ∨ w' = w ∨ ∃ s, 0 < (w.states s).futures ∧
      (w.states s).status.ready = false ∧
      w' = w.setState s { w.states s with waiters := (w.states s).waiters ++ [t] } := by
  -- an operation that returns leaves its result, and one that throws changes nothing
  have hother : ∀ (op' : Op) (g : Except _ (World τ) → World τ × Task),
      (op'.run w).map g = some (w', l') → (∀ v, (g (.ok v)).1 = v) →
      (∀ errc, (g (.error errc)).1 = w) → op'.run w = some (.ok w') ∨ w' = w := by
    intro op' g hm hok herror
    obtain ⟨r, hr, he⟩ := Option.map_eq_some_iff.1 hm
    have hfst : (g r).1 = w' := congrArg Prod.fst he
    cases r with
    | ok v =>
      obtain rfl : v = w' := (hok v).symm.trans hfst
      exact .inl hr
    | error errc => exact .inr (hfst.symm.trans (herror errc))
  cases l with
  | running =>
    cases op with
    | wait s =>
      simp only [next] at h
      split_ifs at h with hf hr
      · obtain ⟨rfl, rfl⟩ := by simpa using h
        exact .inr (.inl rfl)
      · obtain ⟨rfl, rfl⟩ := by simpa using h
        exact .inr (.inr ⟨s, hf, by simpa using hr, rfl⟩)
    | «continue» => simp [next, Op.run] at h
    | _ => exact (hother _ _ h (fun _ => rfl) fun _ => rfl).imp_right .inl
  | waiting s =>
    cases op with
    | «continue» =>
      simp only [next] at h
      split_ifs at h
      obtain ⟨rfl, rfl⟩ := by simpa using h
      exact .inr (.inl rfl)
    | _ => simp [next] at h

/-- The operation is not the move assignment that abandons a state. -/
def Keeps (c : Config τ (World τ) Task) (_ : τ) (op : Op) : Prop :=
  op.abandons c.shared = false

instance (c : Config τ (World τ) Task) (t : τ) (op : Op) : Decidable (Keeps c t op) :=
  inferInstanceAs (Decidable (_ = _))

/-- An operation that abandons no state keeps the invariant. -/
theorem Inv.step (h : Inv c.shared) (hk : Keeps c t op) (hs : c.step next t op = some c') :
    Inv c'.shared := by
  obtain ⟨w, l, hn, rfl⟩ := Config.step_eq_some.1 hs
  rcases next_cases hn with hr | rfl | ⟨s, hf, hr, rfl⟩
  · exact h.run hk hr
  · exact h
  · exact h.wait hf hr

/-- The invariant holds in every run that abandons no state. -/
theorem inv_of_reach (h : Reach next Keeps (start τ) c) : Inv c.shared := by
  refine h.invariant (I := fun c => Inv c.shared) Inv.start fun c t op w l _ hc hk hn => ?_
  exact hc.step hk (Config.step_eq_some.2 ⟨w, l, hn, rfl⟩)

/-! ### The result -/

/-- A shared state exists while an object or a future refers to it. -/
def World.Exists (w : World τ) (s : ℕ) : Prop := Owned w.ref s ∨ 0 < (w.states s).futures

/-- Every shared state that is still empty has exactly one provider. -/
def Provided (w : World τ) : Prop :=
  ∀ s, w.Exists s → (w.states s).status = .empty → ∃! o, w.ref o = some s

omit [DecidableEq τ] in
/-- Then every empty state has one provider. -/
theorem Inv.isProvided (h : Inv w) : Provided w := by
  rintro s (ho | hf) he
  · exact h.exclusive.existsUnique ho
  · exact h.exclusive.existsUnique (h.provided s hf he)

/-- A state that an operation leaves without provider was broken, and the tasks
suspended on it were resumed. -/
theorem Inv.broken_of_lost (h : Inv c.shared) (hk : Keeps c t op)
    (hs : c.step next t op = some c') {s : ℕ} (ho : Owned c.shared.ref s)
    (he : (c.shared.states s).status = .empty) (hlost : ¬Owned c'.shared.ref s)
    (hex : c'.shared.Exists s) :
    (c'.shared.states s).status = .broken ∧ (c'.shared.states s).waiters = [] := by
  have h' := h.step hk hs
  have hne : (c'.shared.states s).status ≠ .empty := fun he' =>
    hlost (h'.provided s (hex.resolve_left hlost) he')
  refine ⟨?_, List.eq_nil_iff_forall_not_mem.2 fun u hu => hne ((h'.states s).waiting u hu).1⟩
  obtain ⟨w, l, hn, rfl⟩ := Config.step_eq_some.1 hs
  rcases next_cases hn with hr | rfl | ⟨s', -, -, rfl⟩
  · rcases Op.run_status hr with href | hst
    · exact absurd (href ▸ ho) hlost
    · obtain ⟨o, ho⟩ := ho
      rcases hst s (h.bounded o s ho) with hsame | hb
      · exact absurd (hsame.trans he) hne
      · exact hb
  · exact absurd ho hlost
  · exact absurd ho hlost

/-- The move assignment leaves the state without provider. -/
theorem Inv.not_provided (h : Inv c.shared) (hk : ¬Keeps c t op)
    (hs : c.step next t op = some c') : ¬Provided c'.shared := by
  obtain ⟨w, l, hn, rfl⟩ := Config.step_eq_some.1 hs
  have ha : op.abandons c.shared = true := by simpa [Keeps] using hk
  cases op with
  | moveAssign o src =>
    obtain ⟨x, s, ho, hx, hst, hne, he, hf⟩ := Op.abandons_moveAssign.1 ha
    have href : c.shared.ref o = some s := (World.ref_of_objects ho).trans hst
    cases hl : c.loc t with
    | waiting s' => simp [hl, next] at hn
    | running =>
      cases hy : c.shared.objects src with
      | none => simp [hl, next, Op.run, ho, hy] at hn
      | some y =>
        by_cases hty : x.provider = y.provider ∧ x.result = y.result
        · have hrun : (Op.moveAssign o src).run c.shared =
              some (.ok (c.shared.promiseMoveAssign o src x y)) := by
            simp only [Op.run, ho, hy]
            rw [if_pos hty, hx]
          obtain ⟨rfl, rfl⟩ := by simpa [hl, next, hrun] using hn
          intro hp
          have howned : Owned (c.shared.promiseMoveAssign o src x y).ref s :=
            (hp s (.inr hf) he).exists
          rw [World.ref_promiseMoveAssign hy, owned_move h.exclusive] at howned
          exact howned.2.elim hne fun hd => hd href
        · simp [hl, next, Op.run, ho, hy, hty] at hn
  | _ => simp [Op.abandons] at ha

/-- **No shared state is abandoned, but by the move assignment of `promise`.**  In a run
in which no other `promise` is move-assigned to one whose state is still empty and has a
future,

* every existing shared state that is still empty has exactly one provider, and so has
  every state on which a task is suspended;
* a state that an operation leaves without provider while a future refers to it was
  broken, and every task that waits on it can continue.

And such a move assignment leaves a state without provider. -/
theorem no_state_abandoned :
    (∀ c : Config τ (World τ) Task, Reach next Keeps (start τ) c → Provided c.shared ∧
      ∀ s, (c.shared.states s).waiters ≠ [] → ∃! o, c.shared.ref o = some s) ∧
    (∀ (c c' : Config τ (World τ) Task) (t : τ) (op : Op), Reach next Keeps (start τ) c →
      Keeps c t op → c.step next t op = some c' →
      ∀ s, Owned c.shared.ref s → (c.shared.states s).status = .empty →
        ¬Owned c'.shared.ref s → c'.shared.Exists s →
        (c'.shared.states s).status = .broken ∧
          ∀ u, c'.loc u = .waiting s → (c'.step next u .continue).isSome = true) ∧
    ∀ (c c' : Config τ (World τ) Task) (t : τ) (op : Op), Reach next Keeps (start τ) c →
      ¬Keeps c t op → c.step next t op = some c' → ¬Provided c'.shared := by
  refine ⟨fun c h => ?_, fun c c' t op h hk hs s ho he hlost hex => ?_, fun c c' t op h hk hs =>
    (inv_of_reach h).not_provided hk hs⟩
  · have hI := inv_of_reach h
    refine ⟨hI.isProvided, fun s hw => ?_⟩
    obtain ⟨u, hu⟩ := List.exists_mem_of_ne_nil _ hw
    obtain ⟨he, hf⟩ := (hI.states s).waiting u hu
    exact hI.isProvided s (.inr hf) he
  · obtain ⟨hb, hw⟩ := (inv_of_reach h).broken_of_lost hk hs ho he hlost hex
    exact ⟨hb, fun u hu => by simp [Config.step, next, hu, hw]⟩

/-- Task 0 makes a promise and gets its future, task 1 waits on the future, and task 0
move-assigns a new promise to the first. -/
def assignsPromise : List (Fin 2 × Op) :=
  [(0, .construct 0 .promise .value), (0, .getFuture 0), (1, .wait 0),
    (0, .construct 1 .promise .value), (0, .moveAssign 0 1)]

/-- **The move assignment of `promise` abandons a shared state**: task 1 is suspended on
a state that is empty and that no object refers to. -/
theorem state_abandoned : ∃ c, (start (Fin 2)).exec next assignsPromise = some c ∧
    c.loc 1 = .waiting 0 ∧ (c.shared.states 0).waiters = [1] ∧
    (c.shared.states 0).status = .empty ∧ (∀ o, c.shared.ref o ≠ some 0) ∧ ¬Provided c.shared := by
  have hnone : ∀ o, World.ref (((start (Fin 2)).exec next assignsPromise).get rfl).shared o ≠
      some 0 := by
    intro o
    match o with
    | 0 | 1 => decide
    | o + 2 => exact show (none : Option ℕ) ≠ some 0 by simp
  refine ⟨_, rfl, rfl, rfl, rfl, hnone, fun hp => ?_⟩
  obtain ⟨o, ho, -⟩ := hp 0 (.inr (by decide)) rfl
  exact hnone o ho

/-- The same with packaged tasks. -/
def assignsTask : List (Fin 2 × Op) :=
  [(0, .construct 0 .packagedTask .value), (0, .getFuture 0), (1, .wait 0),
    (0, .construct 1 .packagedTask .value), (0, .moveAssign 0 1)]

/-- The move assignment of `packaged_task` breaks the state, and task 1 can continue. -/
theorem no_state_abandoned_task : ∃ c, (start (Fin 2)).exec next assignsTask = some c ∧
    (c.shared.states 0).status = .broken ∧ c.loc 1 = .waiting 0 ∧
    (c.step next 1 .continue).isSome = true ∧ Provided c.shared := by
  refine ⟨_, rfl, rfl, rfl, rfl, ?_⟩
  have hreach : Reach next Keeps (start (Fin 2)) _ :=
    reach_of_exec (l := assignsTask) rfl (by decide)
  exact (no_state_abandoned.1 _ hreach).1

end Promise
end CoopSync
