/-
# Atomic waiting comes to rest

With no new calls and no new modifications the tasks inside `wait`, `notify_all` and
`notify_one` come to rest (`atomic_comes_to_rest`): a task that is woken while the value is
still `old` goes round the loop of `wait` once more, and whoever woke it has paid for
that.  Where they stop a task is suspended for a value that is the current one, unless
somebody has modified the value and not called `notify_all`.
-/

import CoopSync.AtomicCondition.Waiting
import CoopSync.WaitQueue.Rest

namespace CoopSync
namespace AtomicCondition

open WaitQueue

variable {τ α : Type*}

/-- A step of a task inside the code. -/
def Inside (_ : Config τ (Shared τ α) (Pc τ α)) (_ : τ) : Act α → Prop
  | .step => True
  | _ => False

/-- The steps from the head of the loop of `wait(old)`: it returns, or queues. -/
def again (A : Atomic α) (value old : α) : ℕ := if A.differs value old then 1 else 7

variable [DecidableEq τ] {A : Atomic α}

/-- The steps of a task as long as nobody modifies the value or wakes it. -/
def Pc.rank (A : Atomic α) (s : Shared τ α) : Pc τ α → ℕ
  | .outside | .modified => 0
  | .notifyAll _ r => (WaitQueue.Pc.resumeAll r).rank s.waiters.resumed true 0
  | .notifyOne r => (WaitQueue.Pc.resumeOne r).rank s.waiters.resumed true 0
  | .head old => again A s.value old
  | .waitIf old w =>
    (WaitQueue.Pc.waitIf w).rank s.waiters.resumed (A.same s.value old) (again A s.value old)

/-- The budget of a task. -/
def budget (τ : Type*) [DecidableEq τ] (A : Atomic α) : Budget (Shared τ α) (Pc τ α) where
  moves pc := pc.place.debt
  hands pc := pc.place.view.hands.length
  rank := Pc.rank A

/-- While the value stays, the rank of a task changes only if it is woken. -/
theorem rank_congr {s s' : Shared τ α} (pc : Pc τ α) (hs : s'.value = s.value)
    (hr : ∀ sp, pc.place.view.stage = .pushed sp →
      (sp ∈ s'.waiters.resumed ↔ sp ∈ s.waiters.resumed)) : pc.rank A s' = pc.rank A s := by
  cases pc with
  | notifyAll | notifyOne | waitIf =>
    simp only [Pc.rank, hs]
    exact WaitQueue.Pc.rank_congr hr
  | _ => simp [Pc.rank, hs]

variable [Fintype τ] {c : Config τ (Shared τ α) (Pc τ α)} {t : τ} {s : Shared τ α} {pc : Pc τ α}

/-- **No step of a task inside is free.** -/
theorem spends (hL : Ledger c.shared.waiters fun t => (c.loc t).place.view)
    (hn : next A t .step c.shared (c.loc t) = some (s, pc)) :
    (budget τ A).Spends c t (c.loc t) s pc := by
  have hs := step_of_next hn
  -- a step of the queue raises no other task's rank, unless it wakes
  have hothers : s.value = c.shared.value → (budget τ A).hands (c.loc t) ≤ (budget τ A).hands pc →
      ∀ u, u ≠ t → (budget τ A).rank s (c.loc u) ≤ (budget τ A).rank c.shared (c.loc u) :=
    fun hl hh u hu => (rank_congr _ hl fun sp hsp => hs.queue.effect.resumed_iff hL hh hu hsp).le
  have hcall : ∀ sp, (c.loc t).place.view.stage = .callback sp → sp ∉ c.shared.waiters.resumed :=
    fun sp hst => hL.not_resumed_of_callback hst
  generalize c.loc t = pc₀ at *
  cases hs with
  | modify hpc => rcases hpc with rfl | rfl <;> simp [next] at hn
  | callNotifyAll | callNotifyAllModified | callNotifyOne | callWait => simp [next] at hn
  | @notifyAll m r q o hr =>
    have hq : WaitQueue.next t (.step true) c.shared.waiters (.resumeAll r) =
        some (q, o.elim .idle .resumeAll) := by
      simp [WaitQueue.next, hr]
    have hsp := next_spent (k := 0) hq hcall
    cases o <;> exact hsp.spends (Nat.add_comm ..).le le_rfl le_rfl (hothers rfl)
  | @notifyOne r q o hr =>
    have hq : WaitQueue.next t (.step true) c.shared.waiters (.resumeOne r) =
        some (q, o.elim .resumeOne fun _ => .idle) := by
      simp [WaitQueue.next, hr]
    have hsp := next_spent (k := 0) hq hcall
    cases o <;> exact hsp.spends (Nat.add_comm ..).le le_rfl le_rfl (hothers rfl)
  | returns hd =>
    exact .walk le_rfl le_rfl (by simp [budget, Pc.rank, again, hd]) fun u _ => le_rfl
  | @waits old hd =>
    have hsame : A.same c.shared.value old = true := (A.same_iff _ _).2 <|
      not_not.1 fun hne => by simp [(A.differs_iff _ _).2 hne] at hd
    refine .walk le_rfl le_rfl ?_ fun u _ => le_rfl
    simp [budget, Pc.rank, WaitQueue.Pc.rank, WaitIf.rank, again, hd, hsame]
  | @waitIf old w q r hw =>
    have hq : WaitQueue.next t (.step (A.same c.shared.value old)) c.shared.waiters (.waitIf w) =
        some (q, r.elim .idle .waitIf) := by
      simp [WaitQueue.next, hw]
    have hsp := next_spent (k := again A c.shared.value old) hq hcall
    cases r <;> exact hsp.spends le_rfl le_rfl le_rfl (hothers rfl)

/-- Nothing is left to do without a new call or a modification. -/
structure AtRest (A : Atomic α) (c : Config τ (Shared τ α) (Pc τ α)) : Prop where
  /-- Every task is outside, or it is suspended in `wait` and in the queue. -/
  everyone (t : τ) : c.loc t = .outside ∨ c.loc t = .modified ∨
    ∃ old sp, c.loc t = .waitIf old (.queued sp) ∧
      sp ∈ c.shared.waiters.waiters ∧ sp ∉ c.shared.waiters.resumed
  /-- A suspended task waits for the current value to change, if every modification was
  followed by `notify_all`. -/
  unchanged (t : τ) (old : α) (w : WaitIf τ) : (∀ u, c.loc u ≠ .modified) →
    c.loc t = .waitIf old w → A.bytes old = A.bytes c.shared.value
  /-- With every task outside nobody is in the queue, as its destructor asserts. -/
  empty : (∀ t, c.loc t = .outside) → c.shared.waiters.waiters = []

/-- Where nobody inside can step, the queue is at rest. -/
theorem atRest (hI : Inv A c) (hrest : ∀ t a, Inside c t a → c.step (next A) t a = none) :
    AtRest A c := by
  have hnone (t : τ) : next A t .step c.shared (c.loc t) = none :=
    Option.map_eq_none_iff.1 (hrest t .step trivial)
  have hqueue := (hI.ledger.at_rest fun t hne => by
    have := hnone t
    generalize c.loc t = pc at this hne ⊢
    cases pc with
    | waitIf old w =>
      exact ⟨A.same c.shared.value old, by simpa [Pc.place, WaitQueue.next, next] using this⟩
    | notifyAll | notifyOne =>
      exact ⟨true, by simpa [Pc.place, WaitQueue.next, next] using this⟩
    | _ => exact absurd rfl hne).2
  have hall (t : τ) : c.loc t = .outside ∨ c.loc t = .modified ∨
      ∃ old sp, c.loc t = .waitIf old (.queued sp) ∧
        sp ∈ c.shared.waiters.waiters ∧ sp ∉ c.shared.waiters.resumed := by
    have hq := hqueue t
    have hn := hnone t
    generalize c.loc t = pc at hq hn
    cases pc with
    | outside => exact .inl rfl
    | modified => exact .inr (.inl rfl)
    | waitIf old w => exact .inr (.inr ⟨old, by simpa [Pc.place] using hq⟩)
    | notifyAll | notifyOne => simp [Pc.place] at hq
    | head old => simp [next] at hn
  refine ⟨hall, fun t old w hnone hpc => ?_, fun hout => ?_⟩
  · rcases hall t with ho | ho | ⟨old', sp, ho, hsp, -⟩
    · simp [hpc] at ho
    · simp [hpc] at ho
    obtain ⟨rfl, rfl⟩ := by simpa [hpc] using ho
    have htask : sp.task = t := (hI.ledger.own t sp (by simp [hpc, Pc.place, WaitQueue.Pc.view,
      WaitIf.view, Stage.suspendPoint])).1
    rcases hI.attended.queued sp hsp with hstill | ⟨u, hu⟩
    · simpa [htask, hpc, Pc.Still] using hstill
    · -- who owes a wake-up has not called `notify_all`
      rcases hall u with ho | ho | ⟨old', sp', ho, -⟩
      · simp [ho, Pc.owes] at hu
      · exact absurd ho (hnone u)
      · simp [ho, Pc.owes] at hu
  · exact hI.ledger.waiters_eq_nil fun t => by simp [hout t, Pc.place, WaitQueue.Pc.view]

/-- **Atomic waiting comes to rest.**  From every configuration of every run, of an
`atomic_condition`, an `atomic_ref_condition` or an `atomic_flag`, the steps of the tasks
inside, in whatever order, end.  Where they end every task is outside or suspended in the
queue, for the current value if every modification was followed by `notify_all`; and with
every task outside the queue is empty. -/
theorem atomic_comes_to_rest {v : α} (h : Reachable (next A) (start τ v) c) :
    ComesToRest (next A) Inside (AtRest A) c :=
  h.comesToRest (budget τ A).measure (fun _ _ _ _ => trivial)
    (fun c t a s pc hr ha hn => by
      cases a with
      | step => exact (spends (inv_of_reach v hr).ledger hn).lt
      | _ => exact ha.elim)
    fun _ hr hrest => atRest (inv_of_reach v hr) hrest

/-- The theorem where a task is in the queue and another one, which has changed the value,
in `notify_all`. -/
theorem atomic_comes_to_rest_notifying :
    ∃ c, (start (Fin 2) false).exec (next atomicFlag) (setAndCleared.take 10) = some c ∧
      c.shared.waiters.waiters = [⟨0, 0⟩] ∧ c.loc 1 = .notifyAll true .lock ∧
        ComesToRest (next atomicFlag) Inside (AtRest atomicFlag) c := by
  refine ⟨_, rfl, rfl, rfl, ?_⟩
  have hreach : Reachable (next atomicFlag) (start (Fin 2) false) _ :=
    reachable_of_exec (l := setAndCleared.take 10) rfl
  exact atomic_comes_to_rest hreach

end AtomicCondition
end CoopSync
