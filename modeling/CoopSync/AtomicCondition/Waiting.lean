/-
# Waiting for an atomic value to change

`wait(old)` returns from the head of its loop only, after a load that differed from `old`,
whatever resumed it before.  And no wake-up is lost: a task that is in the queue, or about
to push itself, has an `old` that is the current value, or somebody has modified the value
and is to take the list (`Inv`).  A modification breaks the first and makes the second
hold at once; a `notify_all` that swaps the list leaves nobody in it.  Nothing is said
about how the value came to be what it is, so it may have changed back and forth.
-/

import CoopSync.AtomicCondition.Model
import CoopSync.WaitQueue.Release

namespace CoopSync
namespace AtomicCondition

open WaitQueue

variable {τ α : Type*} {A : Atomic α}

/-- Where a task stands in the code of the queue. -/
def Pc.place : Pc τ α → WaitQueue.Pc τ
  | .notifyAll _ r => .resumeAll r
  | .notifyOne r => .resumeOne r
  | .waitIf _ w => .waitIf w
  | _ => .idle

/-- Between a modification and the end of the `notify_all` that follows it. -/
def Pc.notifying : Pc τ α → Bool
  | .modified | .notifyAll true _ => true
  | _ => false

/-- Has modified the value and is to take the list. -/
def Pc.owes : Pc τ α → Bool
  | .modified | .notifyAll true .lock | .notifyAll true .swap => true
  | _ => false

/-- Not in `wait_if`, or with a value that is still `old`. -/
def Pc.Still (A : Atomic α) (value : α) : Pc τ α → Prop
  | .waitIf old _ => A.bytes old = A.bytes value
  | _ => True

/-- Who is to take the list is in `notify_all()`, or on its way there. -/
theorem Pc.notifying_of_owes {pc : Pc τ α} (h : pc.owes = true) : pc.notifying = true := by
  unfold Pc.owes at h
  split at h <;> simp_all [Pc.notifying]

variable [DecidableEq τ]

/-- The steps of a task. -/
inductive Step (A : Atomic α) (t : τ) (s : Shared τ α) : Pc τ α → Shared τ α → Pc τ α → Prop
  | modify {pc} (hpc : pc = .outside ∨ pc = .modified) (f : α → α) :
      Step A t s pc { s with value := f s.value } .modified
  | callNotifyAll : Step A t s .outside s (.notifyAll false .lock)
  | callNotifyAllModified : Step A t s .modified s (.notifyAll true .lock)
  | callNotifyOne : Step A t s .outside s (.notifyOne .lock)
  | callWait (old : α) : Step A t s .outside s (.head old)
  | notifyAll {m r q o} (hr : ResumeAll.step t s.waiters r = some (q, o)) :
      Step A t s (.notifyAll m r) { s with waiters := q } (o.elim .outside (.notifyAll m))
  | notifyOne {r q o} (hr : ResumeOne.step t s.waiters r = some (q, o)) :
      Step A t s (.notifyOne r) { s with waiters := q } (o.elim .notifyOne fun _ => .outside)
  | returns {old} (h : A.differs s.value old = true) : Step A t s (.head old) s .outside
  | waits {old} (h : A.differs s.value old = false) :
      Step A t s (.head old) s (.waitIf old .fastPath)
  | waitIf {old w q r} (hw : WaitIf.step t (A.same s.value old) s.waiters w = some (q, r)) :
      Step A t s (.waitIf old w) { s with waiters := q } (r.elim (.head old) (.waitIf old))

/-- Every step is one of these. -/
theorem step_of_next {t : τ} {a : Act α} {s s' : Shared τ α} {pc pc' : Pc τ α}
    (hn : next A t a s pc = some (s', pc')) : Step A t s pc s' pc' := by
  cases a with
  | modify f =>
    cases pc <;> simp only [next, reduceCtorEq, Option.some.injEq, Prod.mk.injEq] at hn <;>
    · obtain ⟨rfl, rfl⟩ := hn
      exact .modify (by simp) f
  | notifyAll | notifyOne | wait old =>
    cases pc <;> simp only [next, reduceCtorEq, Option.some.injEq, Prod.mk.injEq] at hn <;>
    · obtain ⟨rfl, rfl⟩ := hn
      constructor
  | step =>
    cases pc with
    | outside | modified => simp [next] at hn
    | notifyAll m r | notifyOne r | waitIf old w =>
      obtain ⟨⟨q, o⟩, hr, he⟩ := Option.map_eq_some_iff.1 hn
      obtain ⟨rfl, rfl⟩ := by simpa using he
      constructor
      exact hr
    | head old =>
      obtain ⟨rfl, rfl⟩ := by simpa [next] using hn
      split_ifs with h
      · exact .returns h
      · exact .waits (by simpa using h)

/-- What a step does in the code of the queue: the predicate is true only if the value is
`old`. -/
theorem Step.queue {t : τ} {s s' : Shared τ α} {pc pc' : Pc τ α} (h : Step A t s pc s' pc') :
    QueueStep t (pc.Still A s.value) s.waiters pc.place s'.waiters pc'.place := by
  cases h with
  | modify hpc f => rcases hpc with rfl | rfl <;> exact .stay
  | callNotifyAll | callNotifyAllModified => exact .call .resumeAll
  | callNotifyOne => exact .call .resumeOne
  | waits => exact .call .waitIf
  | notifyAll hr =>
    rename_i m r q o
    cases o <;> exact .resumeAll hr
  | notifyOne hr =>
    rename_i r q o
    cases o <;> exact .resumeOne hr
  | waitIf hw =>
    rename_i old w q r
    have hp : A.same s.value old = true → (Pc.waitIf old w).Still A s.value := fun h =>
      ((A.same_iff _ _).1 h).symm
    cases r <;> exact .waitIf hw hp
  | _ => exact .stay

/-- Who has modified the value is to take the list until it does. -/
theorem Step.owes {t : τ} {s s' : Shared τ α} {pc pc' : Pc τ α} (h : Step A t s pc s' pc')
    (ho : pc.owes = true) :
    pc'.owes = true ∨ pc.place = .resumeAll .swap ∧ pc'.place ≠ .resumeAll .swap := by
  cases h with
  | modify | callNotifyAllModified => exact .inl rfl
  | notifyAll hr =>
    rename_i m r q o
    cases m with
    | false => simp [Pc.owes] at ho
    | true =>
      cases r with
      | lock =>
        obtain ⟨q₁, -, he⟩ := Option.map_eq_some_iff.1 hr
        obtain ⟨rfl, rfl⟩ := by simpa using he
        exact .inl rfl
      | swap =>
        obtain ⟨rfl, rfl⟩ := by simpa [ResumeAll.step] using hr
        exact .inr ⟨rfl, by simp [Pc.place]⟩
      | _ => simp [Pc.owes] at ho
  | _ => simp [Pc.owes] at ho

/-- A step leaves a task that still waits so, or owes it a wake-up. -/
theorem Step.still {t : τ} {s s' : Shared τ α} {loc : τ → Pc τ α} {pc' : Pc τ α}
    (h : Step A t s (loc t) s' pc') {u : τ} (hu : (loc u).Still A s.value) :
    (Function.update loc t pc' u).Still A s'.value ∨ pc'.owes = true := by
  generalize hpc : loc t = pc at h
  -- a task other than `t` stays where it is
  have hother : s'.value = s.value → u ≠ t → (Function.update loc t pc' u).Still A s'.value := by
    intro hv hne
    rwa [Function.update_of_ne hne, hv]
  rcases eq_or_ne u t with rfl | hne
  · rw [hpc] at hu
    rw [Function.update_self]
    cases h with
    | modify => exact .inr rfl
    | @waits old hd =>
      have hsame : A.bytes s.value = A.bytes old :=
        not_not.1 fun hne => by simp [(A.differs_iff _ _).2 hne] at hd
      exact .inl hsame.symm
    | waitIf hw =>
      rename_i old w q r
      cases r with
      | none => exact .inl trivial
      | some r => exact .inl hu
    | notifyAll hr =>
      rename_i m r q o
      cases o <;> exact .inl trivial
    | notifyOne hr =>
      rename_i r q o
      cases o <;> exact .inl trivial
    | _ => exact .inl trivial
  · cases h with
    | modify => exact .inr rfl
    | _ => exact .inl (hother rfl hne)

variable [Fintype τ] {c : Config τ (Shared τ α) (Pc τ α)} {t : τ}

/-- What holds of every configuration. -/
structure Inv (A : Atomic α) (c : Config τ (Shared τ α) (Pc τ α)) : Prop where
  ledger : Ledger c.shared.waiters fun t => (c.loc t).place.view
  attended : Attended c.shared.waiters (fun t => (c.loc t).place)
    (fun t => (c.loc t).Still A c.shared.value) (∃ t, (c.loc t).owes = true)

/-- The invariant holds before the first call. -/
theorem inv_start (v : α) : Inv A (start τ v) where
  ledger := Ledger.init
  attended := .start

/-- Every step keeps it. -/
theorem inv_step {s : Shared τ α} {pc : Pc τ α} (hs : Step A t c.shared (c.loc t) s pc)
    (h : Inv A c) : Inv A ⟨s, Function.update c.loc t pc⟩ := by
  have hplace := place_update Pc.place c.loc t pc
  have hledger := h.ledger.queueStep hs.queue
  have hattended : Attended s.waiters (Function.update (fun u => (c.loc u).place) t pc.place)
      (fun u => (Function.update c.loc t pc u).Still A s.value)
      (∃ u, (Function.update c.loc t pc u).owes = true) := by
    refine h.attended.step h.ledger hs.queue ?_ fun u hu =>
      (hs.still hu).imp_right fun ho => ⟨t, by simpa using ho⟩
    rintro ⟨u, hu⟩
    rcases eq_or_ne u t with rfl | hne
    · exact (hs.owes hu).imp_left fun ho => ⟨u, by simpa using ho⟩
    · exact .inl ⟨u, by rwa [Function.update_of_ne hne]⟩
  rw [← hplace] at hledger hattended
  exact ⟨hledger, hattended⟩

/-- It holds in every run. -/
theorem inv_of_reach (v : α) (h : Reachable (next A) (start τ v) c) : Inv A c :=
  h.invariant (inv_start v) fun _ _ _ _ _ _ hi _ hn => inv_step (step_of_next hn) hi

/-- A task in the queue is in `wait`. -/
theorem Inv.waiting (h : Inv A c) {sp : SuspendPoint τ} (hsp : sp ∈ c.shared.waiters.waiters) :
    ∃ old w, c.loc sp.task = .waitIf old w := by
  have hst := h.ledger.placed sp (.inl hsp)
  cases hpc : c.loc sp.task with
  | waitIf old w => exact ⟨old, w, rfl⟩
  | notifyAll m r => simp [hpc, Pc.place, WaitQueue.Pc.view] at hst
  | notifyOne r => simp [hpc, Pc.place, WaitQueue.Pc.view] at hst
  | _ => simp [hpc, Pc.place, WaitQueue.Pc.view] at hst

/-- **Atomic waiting loses no wake-up and returns only on a change.**  In every
configuration of every run, of an `atomic_condition`, an `atomic_ref_condition` or an
`atomic_flag`,

* `wait(old)` returns only from the head of its loop, in a step that loads a value whose
  representation is not that of `old`;
* if no task is between a modification and the end of the `notify_all` that follows it,
  every task in the queue waits for a value whose representation is the current one. -/
theorem waits_only_unchanged {v : α} (h : Reachable (next A) (start τ v) c) :
    (∀ t a c' old, c.step (next A) t a = some c' →
      c.loc t = .head old ∨ (∃ w, c.loc t = .waitIf old w) → c'.loc t = .outside →
      A.bytes c.shared.value ≠ A.bytes old) ∧
    ((∀ t, (c.loc t).notifying = false) → ∀ sp ∈ c.shared.waiters.waiters,
      ∃ old w, c.loc sp.task = .waitIf old w ∧ A.bytes old = A.bytes c.shared.value) := by
  have hI := inv_of_reach v h
  refine ⟨fun t a c' old hc hwait hout => ?_, fun hnone sp hsp => ?_⟩
  · obtain ⟨s, pc, hn, rfl⟩ := Config.step_eq_some.1 hc
    simp only [Function.update_self] at hout
    have hs := step_of_next hn
    rcases hwait with hpc | ⟨w, hpc⟩
    · rw [hpc] at hs
      cases hs with
      | returns hd => exact (A.differs_iff _ _).1 hd
      | waits => simp at hout
      | modify hpc' => simp at hpc'
    · rw [hpc] at hs
      cases hs with
      | waitIf hw =>
        rename_i q r
        cases r <;> simp at hout
      | modify hpc' => simp at hpc'
  · obtain ⟨old, w, hpc⟩ := hI.waiting hsp
    refine ⟨old, w, hpc, ?_⟩
    rcases hI.attended.queued sp hsp with hstill | ⟨u, hu⟩
    · simpa only [hpc, Pc.Still] using hstill
    · exact absurd (Pc.notifying_of_owes hu) (by simp [hnone u])

/-- Task `0` queues for a flag that is false; task `1` sets and clears the flag and
notifies both times; task `0` queues again. -/
def setAndCleared : List (Fin 2 × Act Bool) :=
  turns [(0, 1, .wait false), (0, 7, .step), (1, 1, .modify fun _ => true), (1, 1, .notifyAll),
    (1, 6, .step), (1, 1, .modify fun _ => false), (1, 1, .notifyAll), (1, 4, .step), (0, 8, .step)]

/-- The theorem where a task is in the queue after the value has changed and changed back. -/
theorem waits_only_unchanged_set_and_cleared :
    ∃ c, (start (Fin 2) false).exec (next atomicFlag) setAndCleared = some c ∧
      c.shared.waiters.waiters = [⟨0, 1⟩] ∧ ∃ old w, c.loc 0 = .waitIf old w ∧
        atomicFlag.bytes old = atomicFlag.bytes c.shared.value := by
  refine ⟨_, rfl, rfl, ?_⟩
  have hreach : Reachable (next atomicFlag) (start (Fin 2) false) _ :=
    reachable_of_exec (l := setAndCleared) rfl
  exact (waits_only_unchanged hreach).2 (by decide) ⟨0, 1⟩ (by decide)

end AtomicCondition
end CoopSync
