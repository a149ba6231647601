/-
# Waiters and notifiers come to rest

With no new calls the tasks that wait on a condition variable and those that notify come to
rest (`condition_comes_to_rest`).  Nobody holds the lock for ever, since none of them waits
with it; a waiter that is woken while its predicate is false goes round the loop of
`wait(lock, pred)` once more, and whoever woke it has paid for that.

As long as no notifier takes the list while a waiter whose predicate is true is in the
gap, they stop with the lock free and with waiters whose predicates are false.
-/

import CoopSync.ConditionVariable.Notify
import CoopSync.WaitQueue.Rest

namespace CoopSync
namespace ConditionVariable

open WaitQueue

variable {τ υ : Type*}

/-- Where a task stands in the code of the queue. -/
def Pc.place : Pc τ υ → WaitQueue.Pc τ
  | .waitIf _ w => .waitIf w
  | .notifyOne r => .resumeOne r
  | .notifyAll r => .resumeAll r
  | _ => .idle

/-- What a task does on the queue is what its place in the queue's code does. -/
theorem view_eq (pc : Pc τ υ) : pc.view = pc.place.view := by
  cases pc <;> rfl

/-- How often a task can still change the state or take from the list. -/
def Pc.moves (pc : Pc τ υ) : ℕ :=
  pc.place.debt + match pc with
    | .notifyEnter _ | .notifyChange _ => 2
    | .notifyUnlock => 1
    | _ => 0

/-- The steps from `while (!pred())` on: the task leaves, or releases the lock and waits. -/
def test (pred : υ → Bool) (state : υ) : ℕ := if pred state then 2 else 8

variable [DecidableEq τ]

/-- The steps of a task as long as nobody changes the state or wakes it. -/
def Pc.rank (s : Shared τ υ) : Pc τ υ → ℕ
  | .outside => 0
  | .waitEnter pred | .waitRelock pred => test pred s.state + 1
  | .waitTest pred => test pred s.state
  | .waitUnlock _ => 7
  | .waitIf pred w =>
    (WaitQueue.Pc.waitIf w).rank s.waiters.resumed true (test pred s.state + 1)
  | .waitReturned => 1
  | .notifyEnter _ => 1
  | .notifyChange _ => 0
  | .notifyUnlock => 6
  | .notifyOne r => (WaitQueue.Pc.resumeOne r).rank s.waiters.resumed true 0
  | .notifyAll r => (WaitQueue.Pc.resumeAll r).rank s.waiters.resumed true 0

/-- The budget of a task. -/
def budget (τ υ : Type*) [DecidableEq τ] : Budget (Shared τ υ) (Pc τ υ) where
  moves := Pc.moves
  hands pc := pc.place.view.hands.length
  rank := Pc.rank

/-- While the state stays, the rank of a task changes only if it is woken. -/
theorem rank_congr {s s' : Shared τ υ} (pc : Pc τ υ) (hs : s'.state = s.state)
    (hr : ∀ sp, pc.view.stage = .pushed sp →
      (sp ∈ s'.waiters.resumed ↔ sp ∈ s.waiters.resumed)) : pc.rank s' = pc.rank s := by
  cases pc with
  | waitIf pred w =>
    simp only [Pc.rank, hs]
    exact WaitQueue.Pc.rank_congr hr
  | notifyOne r | notifyAll r => exact WaitQueue.Pc.rank_congr hr
  | _ => simp [Pc.rank, hs]

variable [Fintype τ] {waits : τ → Bool} {notify : Notify} {state : υ}
  {c : Config τ (Shared τ υ) (Pc τ υ)} {t : τ} {s : Shared τ υ} {pc : Pc τ υ}

/-- **No step of a task inside is free.** -/
theorem spends (hL : Ledger c.shared.waiters fun t => (c.loc t).view)
    (hn : next waits notify t .step c.shared (c.loc t) = some (s, pc)) :
    (budget τ υ).Spends c t (c.loc t) s pc := by
  have hs := step_of_next hn
  -- a step of the queue raises no other task's rank, unless it wakes
  have hothers : s.state = c.shared.state → (c.loc t).view.hands.length ≤ pc.view.hands.length →
      ∀ u, u ≠ t → (budget τ υ).rank s (c.loc u) ≤ (budget τ υ).rank c.shared (c.loc u) :=
    fun hl hh u hu => (rank_congr _ hl fun sp hsp => hs.effect.resumed_iff hL hh hu hsp).le
  have hcall : ∀ sp, (c.loc t).view.stage = .callback sp → sp ∉ c.shared.waiters.resumed :=
    fun sp hst => hL.not_resumed_of_callback hst
  generalize c.loc t = pc₀ at *
  cases hs with
  | callWait | callNotify => simp [next] at hn
  | waitEnter | waitRelock => exact .walk le_rfl le_rfl (Nat.lt_succ_self _) (hothers rfl le_rfl)
  | waitReturns hp =>
    exact .walk le_rfl le_rfl (by simp [budget, Pc.rank, test, hp]) (hothers rfl le_rfl)
  | waitGoesOn hp =>
    exact .walk le_rfl le_rfl (by simp [budget, Pc.rank, test, hp]) (hothers rfl le_rfl)
  | waitUnlock => exact .walk le_rfl le_rfl (Nat.lt_succ_self 6) (hothers rfl le_rfl)
  | @wait pred w q r hw =>
    have hq : WaitQueue.next t (.step true) c.shared.waiters (.waitIf w) =
        some (q, r.elim .idle .waitIf) := by
      simp [WaitQueue.next, hw]
    have hsp := next_spent (k := test pred c.shared.state + 1) hq hcall
    cases r <;> exact hsp.spends le_rfl le_rfl le_rfl (hothers rfl)
  | waitLeaves => exact .walk le_rfl le_rfl Nat.zero_lt_one (hothers rfl le_rfl)
  | notifyEnter => exact .walk le_rfl le_rfl Nat.zero_lt_one (hothers rfl le_rfl)
  | notifyChange => exact .move Nat.one_lt_two
  | notifyUnlock =>
    cases notify with
    | one => exact .walk le_rfl le_rfl (Nat.lt_of_sub_eq_succ rfl) (hothers rfl le_rfl)
    | all => exact .walk le_rfl le_rfl (Nat.lt_succ_self 5) (hothers rfl le_rfl)
  | @notifyOne r q o hr =>
    have hq : WaitQueue.next t (.step true) c.shared.waiters (.resumeOne r) =
        some (q, o.elim .resumeOne fun _ => .idle) := by
      simp [WaitQueue.next, hr]
    have hsp := next_spent (k := 0) hq hcall
    cases o <;> exact hsp.spends (Nat.add_comm ..).le le_rfl le_rfl (hothers rfl)
  | @notifyAll r q o hr =>
    have hq : WaitQueue.next t (.step true) c.shared.waiters (.resumeAll r) =
        some (q, o.elim .idle .resumeAll) := by
      simp [WaitQueue.next, hr]
    have hsp := next_spent (k := 0) hq hcall
    cases o <;> exact hsp.spends (Nat.add_comm ..).le le_rfl le_rfl (hothers rfl)

/-- The lock names a task that has it. -/
def Held (c : Config τ (Shared τ υ) (Pc τ υ)) : Prop :=
  ∀ t, c.shared.owner = some t → (c.loc t).locks = true

omit [Fintype τ] in
/-- Every step leaves the lock with a task that is about to release it. -/
theorem held_step (h : Held c) (hs : Step waits notify t c.shared (c.loc t) s pc) :
    Held ⟨s, Function.update c.loc t pc⟩ := by
  intro u hu
  have hown := h u
  show (Function.update c.loc t pc u).locks = true
  rcases eq_or_ne u t with rfl | hne
  · rw [Function.update_self]
    generalize c.loc u = pc₀ at hs hown
    cases hs with
    | waitUnlock | waitLeaves | notifyUnlock => simp [Shared.unlock] at hu
    | waitEnter | waitRelock | notifyEnter | waitReturns | waitGoesOn | notifyChange => rfl
    | _ => exact absurd (hown hu) (by simp [Pc.locks])
  · rw [Function.update_of_ne hne]
    generalize c.loc t = pc₀ at hs
    cases hs with
    | waitUnlock | waitLeaves | notifyUnlock => simp [Shared.unlock] at hu
    | waitEnter | waitRelock | notifyEnter => exact absurd (Option.some.inj hu) hne.symm
    | _ => exact hown hu

omit [Fintype τ] in
/-- The lock is held by such a task in every run. -/
theorem held_of_reach {ok : Config τ (Shared τ υ) (Pc τ υ) → τ → Act υ → Prop}
    (h : Reach (next waits notify) ok (start τ state) c) : Held c := by
  refine h.invariant (fun t ht => ?_) fun _ _ _ _ _ _ hi _ hn => held_step hi (step_of_next hn)
  simp [start] at ht

/-- Everybody is heard in every run with the gap closed. -/
theorem heard_of_reach
    (hone : notify = .all ∨ ∀ t u, waits t = true → waits u = true → t = u)
    (h : Reach (next waits notify) GapClosed (start τ state) c) : Heard c := by
  refine h.invariant (fun u hu => ?_) fun _ _ _ _ _ hr hh hok hn =>
    heard_step hone (ledger hr) (inv_of_reach hr) hh hok (step_of_next hn)
  simp [start, Pc.unheard] at hu

/-- A step of a task inside the code, with the gap closed to the notifiers. -/
def Inside (c : Config τ (Shared τ υ) (Pc τ υ)) (t : τ) : Act υ → Prop
  | .step => GapClosed c t .step
  | _ => False

/-- Nothing is left to do without a new call. -/
structure AtRest (c : Config τ (Shared τ υ) (Pc τ υ)) : Prop where
  /-- Every task is outside, or it is suspended in `wait` with its predicate false. -/
  everyone (t : τ) : c.loc t = .outside ∨ ∃ pred sp, c.loc t = .waitIf pred (.queued sp) ∧
    sp ∈ c.shared.waiters.waiters ∧ sp ∉ c.shared.waiters.resumed ∧ pred c.shared.state = false
  /-- The lock is free. -/
  free : c.shared.owner = none
  /-- With every task outside nobody is in the queue, as its destructor asserts. -/
  empty : (∀ t, c.loc t = .outside) → c.shared.waiters.waiters = []

/-- Where nobody can step, waiters and notifiers are at rest. -/
theorem atRest (hL : Ledger c.shared.waiters fun t => (c.loc t).view) (hheld : Held c)
    (hheard : Heard c) (hrest : ∀ t, next waits notify t .step c.shared (c.loc t) = none) :
    AtRest c := by
  -- who has the lock goes on with it
  have hfree : c.shared.owner = none := by
    by_contra hne
    obtain ⟨t, ht⟩ := Option.ne_none_iff_exists'.1 hne
    have hlocks := hheld t ht
    have hn := hrest t
    generalize c.loc t = pc at hlocks hn
    cases pc with
    | waitTest | waitUnlock | waitReturned | notifyChange | notifyUnlock => simp [next] at hn
    | _ => simp [Pc.locks] at hlocks
  have hqueue := (Ledger.at_rest (by simpa only [view_eq] using hL) fun t hne => by
    have := hrest t
    generalize c.loc t = pc at this hne ⊢
    cases pc with
    | waitIf | notifyOne | notifyAll =>
      exact ⟨true, by simpa [Pc.place, WaitQueue.next, next] using this⟩
    | _ => exact absurd rfl hne).2
  have hall (t : τ) : c.loc t = .outside ∨ ∃ pred sp, c.loc t = .waitIf pred (.queued sp) ∧
      sp ∈ c.shared.waiters.waiters ∧ sp ∉ c.shared.waiters.resumed := by
    have hq := hqueue t
    have hn := hrest t
    generalize c.loc t = pc at hq hn
    cases pc with
    | outside => exact .inl rfl
    | waitIf pred w => exact .inr ⟨pred, by simpa [Pc.place] using hq⟩
    | notifyOne | notifyAll => simp [Pc.place] at hq
    | waitEnter | waitRelock | notifyEnter => simp [next, Shared.lock, hfree] at hn
    | _ => simp [next] at hn
  refine ⟨fun t => ?_, hfree, fun hout => ?_⟩
  · rcases hall t with ho | ⟨pred, sp, hpc, hsp, hnr⟩
    · exact .inl ho
    refine .inr ⟨pred, sp, hpc, hsp, hnr, by_contra fun htrue => ?_⟩
    -- a waiter whose predicate is true has a notifier on its way
    obtain ⟨u, hu⟩ := hheard t (by
      rw [hpc]
      exact ⟨by simpa using htrue, .inr ⟨sp, hsp, rfl⟩⟩)
    rcases hall u with ho | ⟨pred', sp', ho, -⟩ <;> simp [ho, Pc.owes] at hu
  · exact hL.waiters_eq_nil fun t => by simp [hout t, Pc.view, View.idle]

/-- **Waiters and notifiers come to rest.**  Let the notifiers call `notify_all`, or let one
task wait.  From every configuration of a run with the gap closed, the steps of the tasks
inside with the gap closed, in whatever order, end.  Where they end a notifier is about to
take the list while a waiter whose predicate is true is in the gap, or the lock is free and
every task is outside or suspended with its predicate false; and with every task outside
the queue is empty. -/
theorem condition_comes_to_rest
    (hone : notify = .all ∨ ∀ t u, waits t = true → waits u = true → t = u)
    (h : Reach (next waits notify) GapClosed (start τ state) c) :
    ComesToRest (next waits notify) Inside (fun c => AtRest c ∨ ∃ t, ¬GapClosed c t .step) c := by
  refine h.comesToRest (budget τ υ).measure (fun c t a ha => ?_) (fun c t a s pc hr ha hn => ?_)
    fun c hr hrest => ?_
  · cases a with
    | step => exact ha
    | _ => exact ha.elim
  · cases a with
    | step => exact (spends (ledger hr) hn).lt
    | _ => exact ha.elim
  · by_cases hgap : ∃ t, ¬GapClosed c t .step
    · exact .inr hgap
    · push Not at hgap
      have hnone (t : τ) : next waits notify t .step c.shared (c.loc t) = none :=
        Option.map_eq_none_iff.1 (hrest t .step (hgap t))
      exact .inl (atRest (ledger hr) (held_of_reach hr) (heard_of_reach hone hr) hnone)

/-- The theorem where a waiter is in the queue and a notifier about to take the list. -/
theorem condition_comes_to_rest_notifying :
    ∃ c, (start (Fin 2) false).exec (next (· == 1) .all) (queuesAgain.take 15) = some c ∧
      c.shared.waiters.waiters = [⟨1, 0⟩] ∧ c.loc 0 = .notifyAll .swap ∧
        ComesToRest (next (· == 1) .all) Inside
          (fun c => AtRest c ∨ ∃ t, ¬GapClosed c t .step) c := by
  have hreach : Reach (next (· == 1) .all) GapClosed (start (Fin 2) false) _ :=
    reach_of_exec (l := queuesAgain.take 15) rfl (by decide)
  refine ⟨_, rfl, rfl, rfl, ?_⟩
  exact condition_comes_to_rest (.inl rfl) hreach

end ConditionVariable
end CoopSync
