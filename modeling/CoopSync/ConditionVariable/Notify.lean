/-
# Notifications and the gap in `wait`

`wait` releases the lock before its task is queued.  A notifier that takes the
lock in between, changes the state and resumes whoever is queued, misses the
waiter, which then queues and sleeps although its predicate has become true
(`notification_lost`).

Nothing else loses a notification.  A waiter that is queued, or in the gap, with
its predicate true has a notifier that changed the state and has not taken the
list (`Inv.heard`): only a change can make the predicate true, and only taking the
list can leave a waiter behind.  In a run in which no notifier takes the list
while such a waiter is in the gap, no notification is lost
(`no_notification_lost`).
-/

import CoopSync.ConditionVariable.Model
import CoopSync.WaitQueue.Wakeups

namespace CoopSync
namespace ConditionVariable

open WaitQueue

variable {τ υ : Type*}

/-- What a task does on the wait queue. -/
def Pc.view : Pc τ υ → View τ
  | .waitIf _ w => w.view
  | .notifyOne r => r.view
  | .notifyAll r => r.view
  | _ => View.idle

/-- The task is one that waits. -/
def Pc.waiting : Pc τ υ → Bool
  | .waitEnter _ | .waitTest _ | .waitUnlock _ | .waitIf _ _ | .waitRelock _ | .waitReturned => true
  | _ => false

/-- The task holds the lock. -/
def Pc.locks : Pc τ υ → Bool
  | .waitTest _ | .waitUnlock _ | .waitReturned | .notifyChange _ | .notifyUnlock => true
  | _ => false

/-- One for a notifier that has changed the state and not taken the list. -/
def Pc.owes : Pc τ υ → ℕ
  | .notifyUnlock => 1
  | .notifyOne r => r.owes
  | .notifyAll r => r.owes
  | _ => 0

/-- The task is between its change of the state and the end of its notify call. -/
def Pc.notifying : Pc τ υ → Bool
  | .notifyUnlock | .notifyOne _ | .notifyAll _ => true
  | _ => false

/-- The next step of the task takes waiters off the list. -/
def Pc.takes : Pc τ υ → Bool
  | .notifyOne .popFront | .notifyAll .swap => true
  | _ => false

/-- The task is in `wait_if` and has not been pushed. -/
def inGap : WaitIf τ → Bool
  | .fastPath | .suspend | .lock _ | .recheck _ | .pushBack _ => true
  | _ => false

/-- The task has released the lock in `wait`, has not been pushed, and its
predicate is true. -/
def Pc.missing (state : υ) : Pc τ υ → Bool
  | .waitIf pred w => inGap w && pred state
  | _ => false

variable [DecidableEq τ]

/-- The task waits with its predicate true, in the gap or in the list. -/
def Pc.unheard (s : Shared τ υ) : Pc τ υ → Prop
  | .waitIf pred w => pred s.state = true ∧
      (inGap w = true ∨ ∃ sp ∈ s.waiters.waiters, w.view.stage = .pushed sp)
  | _ => False

/-- The steps of a task, one case for each outcome of a line of the source. -/
inductive Step (waits : τ → Bool) (notify : Notify) (t : τ) (s : Shared τ υ) :
    Pc τ υ → Shared τ υ → Pc τ υ → Prop
  | callWait {pred} (hw : waits t = true) : Step waits notify t s .outside s (.waitEnter pred)
  | callNotify {change} : Step waits notify t s .outside s (.notifyEnter change)
  | waitEnter {pred} (ho : s.owner = none) :
      Step waits notify t s (.waitEnter pred) { s with owner := some t } (.waitTest pred)
  | waitReturns {pred} (hp : pred s.state = true) :
      Step waits notify t s (.waitTest pred) s .waitReturned
  | waitGoesOn {pred} (hp : pred s.state = false) :
      Step waits notify t s (.waitTest pred) s (.waitUnlock pred)
  | waitUnlock {pred} : Step waits notify t s (.waitUnlock pred) s.unlock (.waitIf pred .fastPath)
  | wait {pred w q r} (hw : w.step t true s.waiters = some (q, r)) :
      Step waits notify t s (.waitIf pred w) { s with waiters := q }
        (r.elim (.waitRelock pred) (.waitIf pred))
  | waitRelock {pred} (ho : s.owner = none) :
      Step waits notify t s (.waitRelock pred) { s with owner := some t } (.waitTest pred)
  | waitLeaves : Step waits notify t s .waitReturned s.unlock .outside
  | notifyEnter {change} (ho : s.owner = none) :
      Step waits notify t s (.notifyEnter change) { s with owner := some t } (.notifyChange change)
  | notifyChange {change} :
      Step waits notify t s (.notifyChange change) { s with state := change s.state } .notifyUnlock
  | notifyUnlock : Step waits notify t s .notifyUnlock s.unlock notify.enter
  | notifyOne {r q o} (hr : r.step t s.waiters = some (q, o)) :
      Step waits notify t s (.notifyOne r) { s with waiters := q }
        (o.elim .notifyOne fun _ => .outside)
  | notifyAll {r q o} (hr : r.step t s.waiters = some (q, o)) :
      Step waits notify t s (.notifyAll r) { s with waiters := q } (o.elim .outside .notifyAll)

omit [DecidableEq τ] in
/-- The lock is taken only while nobody has it. -/
theorem lock_eq_some {s s' : Shared τ υ} {t : τ} (h : s.lock t = some s') :
    s.owner = none ∧ s' = { s with owner := some t } := by
  unfold Shared.lock at h
  split at h
  · exact ⟨‹_›, (Option.some.inj h).symm⟩
  · simp at h

/-- Every step is one of these. -/
theorem step_of_next {waits : τ → Bool} {notify : Notify} {t : τ} {a : Act υ} {s s' : Shared τ υ}
    {pc pc' : Pc τ υ} (h : next waits notify t a s pc = some (s', pc')) :
    Step waits notify t s pc s' pc' := by
  cases a with
  | wait pred =>
    cases pc <;> simp only [next, reduceCtorEq] at h
    split at h
    · obtain ⟨rfl, rfl⟩ := by simpa using h
      exact .callWait ‹_›
    · simp at h
  | notify change =>
    cases pc <;> simp only [next, reduceCtorEq, Option.some.injEq, Prod.mk.injEq] at h
    obtain ⟨rfl, rfl⟩ := h
    exact .callNotify
  | step =>
    cases pc with
    | outside => simp [next] at h
    | waitEnter pred | waitRelock pred | notifyEnter change =>
      obtain ⟨s₁, hs, he⟩ := Option.map_eq_some_iff.1 h
      obtain ⟨rfl, rfl⟩ := by simpa using he
      obtain ⟨ho, rfl⟩ := lock_eq_some hs
      constructor
      exact ho
    | waitTest pred =>
      obtain ⟨rfl, rfl⟩ := by simpa [next] using h
      split_ifs with hp
      · exact .waitReturns hp
      · exact .waitGoesOn (by simpa using hp)
    | waitUnlock pred | waitReturned | notifyChange change | notifyUnlock =>
      obtain ⟨rfl, rfl⟩ := by simpa [next] using h
      constructor
    | waitIf pred w =>
      obtain ⟨⟨q, r⟩, hw, he⟩ := Option.map_eq_some_iff.1 h
      obtain ⟨rfl, rfl⟩ := by simpa using he
      exact .wait hw
    | notifyOne r =>
      obtain ⟨⟨q, o⟩, hr, he⟩ := Option.map_eq_some_iff.1 h
      obtain ⟨rfl, rfl⟩ := by simpa using he
      exact .notifyOne hr
    | notifyAll r =>
      obtain ⟨⟨q, o⟩, hr, he⟩ := Option.map_eq_some_iff.1 h
      obtain ⟨rfl, rfl⟩ := by simpa using he
      exact .notifyAll hr

/-- What a step does on the wait queue is an effect of the queue's code. -/
theorem Step.effect {waits : τ → Bool} {notify : Notify} {t : τ} {s s' : Shared τ υ} {pc pc' : Pc τ υ}
    (h : Step waits notify t s pc s' pc') : Effect t s.waiters pc.view s'.waiters pc'.view := by
  cases h with
  | wait hw => rename_i r; cases r <;> exact WaitIf.effect hw
  | notifyOne hr => rename_i o; cases o <;> exact ResumeOne.effect hr
  | notifyAll hr => rename_i o; cases o <;> exact ResumeAll.effect hr
  | notifyUnlock => cases notify <;> exact .stay
  | _ => exact .stay

variable {waits : τ → Bool} {notify : Notify} {state : υ} {t : τ} {s : Shared τ υ} {pc : Pc τ υ}
  {c : Config τ (Shared τ υ) (Pc τ υ)}

/-- What holds of every configuration, notifications apart. -/
structure Inv (waits : τ → Bool) (notify : Notify) (c : Config τ (Shared τ υ) (Pc τ υ)) : Prop where
  /-- The lock names the task that has it. -/
  locks : ∀ t, (c.loc t).locks = true → c.shared.owner = some t
  /-- A task that is about to release the lock in `wait` has found its predicate
  false, and nobody has changed the state since. -/
  tested : ∀ t pred, c.loc t = .waitUnlock pred → pred c.shared.state = false
  waiters : ∀ t, (c.loc t).waiting = true → waits t = true
  kind : ∀ t r, c.loc t = .notifyOne r → notify = .one

/-- A step leaves the lock with the one task that is between `lock()` and `unlock()`. -/
theorem Step.locks (hs : Step waits notify t c.shared (c.loc t) s pc)
    (h : ∀ u, (c.loc u).locks = true → c.shared.owner = some u) (u : τ)
    (hu : (Function.update c.loc t pc u).locks = true) : s.owner = some u := by
  have ht := h t
  generalize hpc : c.loc t = pc₀ at hs ht
  rcases eq_or_ne u t with rfl | hne
  · rw [Function.update_self] at hu
    cases hs with
    | waitEnter | waitRelock | notifyEnter => rfl
    | waitReturns | waitGoesOn | notifyChange => exact ht rfl
    | wait hw => rename_i r; cases r <;> simp [Pc.locks] at hu
    | notifyOne hr => rename_i o; cases o <;> simp [Pc.locks] at hu
    | notifyAll hr => rename_i o; cases o <;> simp [Pc.locks] at hu
    | notifyUnlock => cases notify <;> simp [Pc.locks, Notify.enter] at hu
    | _ => simp [Pc.locks] at hu
  · rw [Function.update_of_ne hne] at hu
    have hown := h u hu
    cases hs with
    | waitEnter ho | waitRelock ho | notifyEnter ho => simp [ho] at hown
    | waitUnlock | waitLeaves | notifyUnlock =>
      -- only the owner releases
      exact absurd (Option.some.inj ((ht rfl).symm.trans hown)) hne.symm
    | _ => exact hown

/-- While a waiter that has found its predicate false has the lock, no step makes it true. -/
theorem Step.tested (hs : Step waits notify t c.shared (c.loc t) s pc)
    (hl : ∀ u, (c.loc u).locks = true → c.shared.owner = some u)
    (h : ∀ u pred, c.loc u = .waitUnlock pred → pred c.shared.state = false) (u : τ)
    (pred : υ → Bool) (hu : Function.update c.loc t pc u = .waitUnlock pred) :
    pred s.state = false := by
  have ht := hl t
  generalize hpc : c.loc t = pc₀ at hs ht
  rcases eq_or_ne u t with rfl | hne
  · rw [Function.update_self] at hu
    subst hu
    generalize hpc' : Pc.waitUnlock pred = pc' at hs
    cases hs with
    | waitGoesOn hp =>
      obtain rfl := Pc.waitUnlock.inj hpc'
      exact hp
    | wait hw => rename_i r; cases r <;> simp at hpc'
    | notifyOne hr => rename_i o; cases o <;> simp at hpc'
    | notifyAll hr => rename_i o; cases o <;> simp at hpc'
    | notifyUnlock => cases notify <;> simp [Notify.enter] at hpc'
    | _ => simp at hpc'
  · rw [Function.update_of_ne hne] at hu
    have hown := hl u (by rw [hu]; rfl)
    cases hs with
    | notifyChange => exact absurd (Option.some.inj ((ht rfl).symm.trans hown)) hne.symm
    | _ => exact h u pred hu

/-- Every step keeps the invariant. -/
theorem inv_step (h : Inv waits notify c) (hs : Step waits notify t c.shared (c.loc t) s pc) :
    Inv waits notify ⟨s, Function.update c.loc t pc⟩ := by
  refine ⟨hs.locks h.locks, hs.tested h.locks h.tested, fun u hu => ?_, fun u r hu => ?_⟩
  · simp only at hu
    have ht := h.waiters t
    rcases eq_or_ne u t with rfl | hne
    · rw [Function.update_self] at hu
      generalize c.loc u = pc₀ at hs ht
      cases hs with
      | callWait hw => exact hw
      | waitEnter | waitReturns | waitGoesOn | waitUnlock | wait | waitRelock => exact ht rfl
      | notifyOne hr => rename_i o; cases o <;> simp [Pc.waiting] at hu
      | notifyAll hr => rename_i o; cases o <;> simp [Pc.waiting] at hu
      | notifyUnlock => cases notify <;> simp [Pc.waiting, Notify.enter] at hu
      | _ => simp [Pc.waiting] at hu
    · rw [Function.update_of_ne hne] at hu
      exact h.waiters u hu
  · simp only at hu
    have ht := h.kind t
    rcases eq_or_ne u t with rfl | hne
    · rw [Function.update_self] at hu
      subst hu
      generalize hpc : c.loc u = pc₀ at hs ht
      generalize hpc' : Pc.notifyOne r = pc' at hs
      cases hs with
      | wait hw => rename_i r; cases r <;> simp at hpc'
      | notifyUnlock =>
        cases notify with
        | one => rfl
        | all => simp [Notify.enter] at hpc'
      | notifyOne hr => exact ht _ rfl
      | notifyAll hr => rename_i o; cases o <;> simp at hpc'
      | _ => simp at hpc'
    · rw [Function.update_of_ne hne] at hu
      exact h.kind u r hu

/-- Every waiter whose predicate is true has a notifier that has changed the state
and not taken the list. -/
def Heard (c : Config τ (Shared τ υ) (Pc τ υ)) : Prop :=
  ∀ u, (c.loc u).unheard c.shared → ∃ v, 0 < (c.loc v).owes

/-- The gap is closed to the notifiers: when one of them takes waiters off the
list, no waiter whose predicate is true is between its `lock.unlock()` and its
`push_back`. -/
def GapClosed (c : Config τ (Shared τ υ) (Pc τ υ)) (t : τ) (_ : Act υ) : Prop :=
  (c.loc t).takes = true → ∀ u, (c.loc u).missing c.shared.state = false

instance [Fintype τ] (c : Config τ (Shared τ υ) (Pc τ υ)) (t : τ) (a : Act υ) :
    Decidable (GapClosed c t a) :=
  inferInstanceAs (Decidable ((c.loc t).takes = true →
    ∀ u, (c.loc u).missing c.shared.state = false))

/-- A step that makes nobody unheard and loses no notification keeps everybody heard. -/
theorem Heard.mono (h : Heard c)
    (hun : ∀ u, (Function.update c.loc t pc u).unheard s → (c.loc u).unheard c.shared)
    (ho : (c.loc t).owes ≤ pc.owes) : Heard ⟨s, Function.update c.loc t pc⟩ := by
  intro u hu
  obtain ⟨v, hv⟩ := h u (hun u hu)
  rcases eq_or_ne v t with rfl | hne
  · exact ⟨v, by simpa using hv.trans_le ho⟩
  · exact ⟨v, by simpa [Function.update_of_ne hne] using hv⟩

variable [Fintype τ]

/-- Only a change of the state makes a waiter one whose predicate is true. -/
theorem Step.unheard (hs : Step waits notify t c.shared (c.loc t) s pc)
    (hL : Ledger c.shared.waiters fun t => (c.loc t).view) (h : Inv waits notify c)
    (hst : s.state = c.shared.state) (u : τ) (hu : (Function.update c.loc t pc u).unheard s) :
    (c.loc u).unheard c.shared := by
  have hmem := fun sp (hsp : sp ∈ s.waiters.waiters) => hs.effect.mem_waiters hsp
  rcases eq_or_ne u t with rfl | hne
  · rw [Function.update_self] at hu
    have ht := h.tested u
    generalize c.loc u = pc₀ at hs ht
    cases hs with
    | @waitUnlock pred =>
      have := ht pred rfl
      simp [Pc.unheard, hst, this] at hu
    | @wait pred w q r hw =>
      cases r with
      | none => simp [Pc.unheard] at hu
      | some w' =>
        refine ⟨hst ▸ hu.1, ?_⟩
        cases w with
        | unlockQueued sp =>
          obtain ⟨rfl, rfl⟩ := by simpa [WaitIf.step] using hw
          simpa [inGap, WaitIf.view] using hu.2
        | unlockResume sp | resume sp =>
          obtain ⟨rfl, rfl⟩ := by simpa [WaitIf.step] using hw
          simp [Pc.unheard, inGap, WaitIf.view] at hu
        | queued sp | selfResumed sp =>
          simp only [WaitIf.step] at hw
          split at hw <;> simp at hw
        | _ => exact .inl rfl
    | notifyOne hr => rename_i o; cases o <;> simp [Pc.unheard] at hu
    | notifyAll hr => rename_i o; cases o <;> simp [Pc.unheard] at hu
    | notifyUnlock => cases notify <;> simp [Pc.unheard, Notify.enter] at hu
    | _ => simp [Pc.unheard] at hu
  · rw [Function.update_of_ne hne] at hu
    have hown := hL.own u
    cases hpc : c.loc u with
    | waitIf pred w =>
      rw [hpc] at hu hown
      refine ⟨hst ▸ hu.1, hu.2.imp id ?_⟩
      rintro ⟨sp, hsp, hv⟩
      refine ⟨sp, ?_, hv⟩
      refine (hmem sp hsp).resolve_right fun hcb => hne ?_
      -- the step pushed its own task
      rw [← (hown sp (by simp [Pc.view, hv, Stage.suspendPoint])).1,
        ← (hL.own t sp (by simp [hcb.1, Stage.suspendPoint])).1]
    | _ => simp [Pc.unheard, hpc] at hu

omit [DecidableEq τ] [Fintype τ] in
/-- Who is in the list is in `wait`. -/
theorem waiting_of_pushed {sp : SuspendPoint τ} (h : pc.view.stage = .pushed sp) :
    pc.waiting = true := by
  cases pc with
  | waitIf pred w => rfl
  | notifyOne r => simp [Pc.view] at h
  | notifyAll r => simp [Pc.view] at h
  | _ => simp [Pc.view, View.idle] at h

/-- With one waiter there is nobody behind the head of the list. -/
theorem tail_eq_nil (hone : ∀ t u, waits t = true → waits u = true → t = u)
    (hL : Ledger c.shared.waiters fun t => (c.loc t).view) (h : Inv waits notify c) :
    c.shared.waiters.waiters.tail = [] := by
  have hnd := hL.waiters_nodup
  have hplaced := hL.placed
  cases hw : c.shared.waiters.waiters with
  | nil => rfl
  | cons sp₀ rest =>
    rw [hw] at hnd hplaced
    cases rest with
    | nil => rfl
    | cons sp₁ rest =>
      have h₀ := hplaced sp₀ (.inl (by simp))
      have h₁ := hplaced sp₁ (.inl (by simp))
      have ht : sp₀.task = sp₁.task :=
        hone _ _ (h.waiters _ (waiting_of_pushed h₀)) (h.waiters _ (waiting_of_pushed h₁))
      rw [ht, h₁] at h₀
      obtain rfl := Stage.pushed.inj h₀
      simp at hnd

omit [Fintype τ] in
/-- A notifier that empties the list leaves nobody unheard if the gap is closed. -/
theorem heard_of_empty {a : Act υ} (hok : GapClosed c t a) (htakes : (c.loc t).takes = true)
    (hpc : ∀ pred w, pc ≠ .waitIf pred w) (hst : s.state = c.shared.state)
    (hnil : s.waiters.waiters = []) : Heard ⟨s, Function.update c.loc t pc⟩ := by
  intro u hu
  have hmiss := hok htakes u
  simp only at hu
  rcases eq_or_ne u t with rfl | hne
  · rw [Function.update_self] at hu
    cases pc <;> first | exact absurd rfl (hpc _ _) | simp [Pc.unheard] at hu
  · rw [Function.update_of_ne hne] at hu
    cases hu' : c.loc u with
    | waitIf pred w =>
      rw [hu'] at hu hmiss
      simp [Pc.unheard, hnil, hst] at hu
      simp [Pc.missing, hu] at hmiss
    | _ => simp [Pc.unheard, hu'] at hu

/-- A step with the gap closed keeps everybody heard. -/
theorem heard_step {a : Act υ}
    (hone : notify = .all ∨ ∀ t u, waits t = true → waits u = true → t = u)
    (hL : Ledger c.shared.waiters fun t => (c.loc t).view) (hI : Inv waits notify c)
    (h : Heard c) (hok : GapClosed c t a) (hs : Step waits notify t c.shared (c.loc t) s pc) :
    Heard ⟨s, Function.update c.loc t pc⟩ := by
  have hun := hs.unheard hL hI
  have hmono := fun hu ho => (h.mono hu ho : Heard ⟨s, Function.update c.loc t pc⟩)
  have hempty := fun ht hp hst hnil =>
    (heard_of_empty hok ht hp hst hnil : Heard ⟨s, Function.update c.loc t pc⟩)
  have hkind := hI.kind t
  generalize c.loc t = pc₀ at hs hmono hempty hkind
  cases hs with
  | notifyChange => exact fun u _ => ⟨t, by simp [Pc.owes]⟩
  | wait hw => rename_i r; exact hmono (hun rfl) (Nat.zero_le _)
  | notifyOne hr =>
    rename_i r q o
    rcases r.step_pops hr with ⟨hq, ho⟩ | ⟨rfl, hq, rfl⟩
    · exact hmono (hun rfl) (by cases o <;> simp_all [Pc.owes])
    · -- there is one waiter, since this is `notify_one`
      have hsingle := hone.resolve_left (by simp [hkind _ rfl])
      exact hempty rfl (by simp) rfl (hq.trans (tail_eq_nil hsingle hL hI))
  | notifyAll hr =>
    rename_i r q o
    rcases r.step_swaps hr with ⟨hq, ho⟩ | ⟨rfl, hq⟩
    · exact hmono (hun rfl) (by cases o <;> simp_all [Pc.owes])
    · exact hempty rfl (by cases o <;> simp) rfl hq
  | notifyUnlock => exact hmono (hun rfl) (by cases notify <;> exact Nat.le_refl 1)
  | _ => exact hmono (hun rfl) (Nat.zero_le _)

/-- The ledger of the queue holds in every run. -/
theorem ledger {ok : Config τ (Shared τ υ) (Pc τ υ) → τ → Act υ → Prop}
    (h : Reach (next waits notify) ok (start τ state) c) :
    Ledger c.shared.waiters fun t => (c.loc t).view :=
  Ledger.of_reach Shared.waiters Pc.view rfl (fun _ => rfl)
    (fun _ _ _ _ _ _ hn => (step_of_next hn).effect) h

omit [Fintype τ] in
/-- The invariant holds in every run. -/
theorem inv_of_reach {ok : Config τ (Shared τ υ) (Pc τ υ) → τ → Act υ → Prop}
    (h : Reach (next waits notify) ok (start τ state) c) : Inv waits notify c := by
  refine h.invariant ⟨?_, ?_, ?_, ?_⟩ fun c t a s l _ hi _ hn => inv_step hi (step_of_next hn)
  · intro t ht
    simp [start, Pc.locks] at ht
  · intro t pred ht
    simp [start] at ht
  · intro t ht
    simp [start, Pc.waiting] at ht
  · intro t r ht
    simp [start] at ht

/-! ### The condition variable as its users see it -/

/-- The task is in `wait(lock, pred)` and suspended: queued and not resumed. -/
def Suspended (c : Config τ (Shared τ υ) (Pc τ υ)) (t : τ) (pred : υ → Bool) : Prop :=
  ∃ sp, c.loc t = .waitIf pred (.queued sp) ∧ sp ∉ c.shared.waiters.resumed

/-- The task has entered `wait` and not returned. -/
def Pc.inWait : Pc τ υ → Bool
  | .waitTest _ | .waitUnlock _ | .waitIf _ _ | .waitRelock _ => true
  | _ => false

omit [DecidableEq τ] [Fintype τ] in
/-- Who has taken a waiter off the list is notifying. -/
theorem notifying_of_hands {sp : SuspendPoint τ} (h : sp ∈ pc.view.hands) :
    pc.notifying = true := by
  cases pc with
  | waitIf pred w => cases w <;> simp [Pc.view, WaitIf.view] at h
  | notifyOne r => rfl
  | notifyAll r => rfl
  | _ => simp [Pc.view, View.idle] at h

omit [DecidableEq τ] [Fintype τ] in
/-- Who is to take the list is notifying. -/
theorem notifying_of_owes (h : 0 < pc.owes) : pc.notifying = true := by
  cases pc <;> first | rfl | simp [Pc.owes] at h

/-- **When no notification is lost.**  Let the notifiers call `notify_all`, or let
one task wait.  In every configuration of a run in which no notifier takes the
list while a waiter whose predicate is true is in the gap, if no notifier is
between its change of the state and the end of its call, no suspended task's
predicate is true. -/
theorem no_notification_lost
    (hone : notify = .all ∨ ∀ t u, waits t = true → waits u = true → t = u)
    (h : Reach (next waits notify) GapClosed (start τ state) c)
    (hquiet : ∀ u, (c.loc u).notifying = false) (t : τ) (pred : υ → Bool)
    (ht : Suspended c t pred) : pred c.shared.state = false := by
  have hheard : Heard c := by
    refine h.invariant (fun u hu => ?_) fun c t a s l hr hh hok hn =>
      heard_step hone (ledger hr) (inv_of_reach hr) hh hok (step_of_next hn)
    simp [start, Pc.unheard] at hu
  obtain ⟨sp, hpc, hnr⟩ := ht
  have hst : (c.loc t).view.stage = .pushed sp := by simp [hpc, Pc.view, WaitIf.view]
  rcases (ledger h).pushed_cases hst with hw | ⟨u, hu⟩ | hr
  · by_contra htrue
    obtain ⟨v, hv⟩ := hheard t (by
      rw [hpc]
      exact ⟨by simpa using htrue, .inr ⟨sp, hw, rfl⟩⟩)
    exact absurd (notifying_of_owes hv) (by simp [hquiet v])
  · exact absurd (notifying_of_hands hu) (by simp [hquiet u])
  · exact absurd hr hnr

/-- Task `1` waits for a state that is `true` and queues. -/
def queues : List (Fin 2 × Act Bool) :=
  turns [(1, 1, .wait id), (1, 9, .step)]

/-- Task `1` queues, is notified of a change that leaves its predicate false, and
queues again. -/
def queuesAgain : List (Fin 2 × Act Bool) :=
  queues ++ turns [(0, 1, .notify id), (0, 9, .step), (1, 10, .step)]

/-- The theorem at a waiter that was notified and is suspended again. -/
theorem no_notification_lost_queues_again :
    ∃ c, (start (Fin 2) false).exec (next (· == 1) .all) queuesAgain = some c ∧
      Suspended c 1 id ∧ c.shared.state = false := by
  have hreach : Reach (next (· == 1) .all) GapClosed (start (Fin 2) false) _ :=
    reach_of_exec (l := queuesAgain) rfl (by decide)
  refine ⟨_, rfl, ⟨⟨1, 1⟩, rfl, by decide⟩, ?_⟩
  exact no_notification_lost (.inl rfl) hreach (by decide) 1 id ⟨⟨1, 1⟩, rfl, by decide⟩

/-- Task `1` has released the lock in `wait` when task `0` takes it, makes the
state `true` and resumes everybody in the empty list; then task `1` queues. -/
def misses : List (Fin 2 × Act Bool) :=
  turns [(1, 1, .wait id), (1, 3, .step), (0, 1, .notify fun _ => true), (0, 7, .step), (1, 6, .step)]

/-- **A notification is lost**: no notifier is in its call, every task in `wait` is
suspended, and the predicate of a suspended task is true. -/
theorem notification_lost : ¬∀ c, Reachable (next (· == 1) .all) (start (Fin 2) false) c →
    (∀ u, (c.loc u).notifying = false) →
    (∀ u, (c.loc u).inWait = true → ∃ pred, Suspended c u pred) →
    ∀ t pred, Suspended c t pred → pred c.shared.state = false := by
  intro hall
  have hreach : Reachable (next (· == 1) .all) (start (Fin 2) false) _ :=
    reachable_of_exec (l := misses) rfl
  have hfalse := hall _ hreach (by decide) (Fin.forall_fin_two.2
    ⟨fun h => absurd h (by decide), fun _ => ⟨id, ⟨1, 0⟩, rfl, by decide⟩⟩) 1 id
    ⟨⟨1, 0⟩, rfl, by decide⟩
  exact absurd hfalse (by decide)

end ConditionVariable
end CoopSync
