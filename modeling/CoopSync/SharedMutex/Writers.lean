/-
# Writers stranded at a free shared mutex

A release first looks for a writer to hand the mutex to and, finding none, stores
`0`.  Between the two a writer can try the exchange, lose it to the `-1` that is
still there, and queue; the store then frees the mutex and only readers are
resumed (`writer_stranded`).  The store is the only step that does this: in a run
in which no writer is queued, or about to be, whenever a release stores `0`, no
writer is queued at a free mutex (`no_writer_stranded`).
-/

import CoopSync.SharedMutex.Readers

namespace CoopSync
namespace SharedMutex

open WaitQueue

variable {τ : Type*}

/-- One for a writer that has failed the re-check and is about to push. -/
def Local.writerPushing (l : Local τ) : ℕ :=
  match l.pc with
  | .lockWait w => w.pushing
  | _ => 0

variable [DecidableEq τ]

/-- The task is in `lock()` and suspended: queued and not resumed. -/
def SuspendedWriter (c : Config τ (Shared τ) (Local τ)) (t : τ) : Prop :=
  ∃ sp, (c.loc t).pc = .lockWait (.queued sp) ∧ sp ∉ c.shared.writerWaiters.resumed

/-- Every task is outside the code or suspended. -/
def Quiescent (c : Config τ (Shared τ) (Local τ)) : Prop :=
  ∀ t, (c.loc t).pc = .outside ∨ SuspendedWriter c t ∨ SuspendedReader c t

/-- No writer comes between the failed hand-off and the store: when a release
stores `0`, no writer is queued and none has failed its re-check without having
pushed. -/
def NoWriterBetween (c : Config τ (Shared τ) (Local τ)) (t : τ) (_ : Act) : Prop :=
  (c.loc t).pc = .handoff .store →
    c.shared.writerWaiters.waiters = [] ∧ ∀ u, (c.loc u).writerPushing = 0

instance [Fintype τ] (c : Config τ (Shared τ) (Local τ)) (t : τ) (a : Act) :
    Decidable (NoWriterBetween c t a) :=
  inferInstanceAs (Decidable ((c.loc t).pc = .handoff .store →
    c.shared.writerWaiters.waiters = [] ∧ ∀ u, (c.loc u).writerPushing = 0))

variable [Fintype τ]

/-- No writer is queued, or about to be, at a free mutex. -/
def Served (c : Config τ (Shared τ) (Local τ)) : Prop :=
  c.shared.state = 0 →
    c.shared.writerWaiters.waiters.length + total Local.writerPushing c.loc = 0

/-- A step that strands no writer leaves none at a free mutex. -/
theorem served_step {c : Config τ (Shared τ) (Local τ)} {t : τ} {a : Act} {s : Shared τ}
    {l : Local τ} (h : Served c) (hok : NoWriterBetween c t a)
    (hs : Step t c.shared (c.loc t) s l) : Served ⟨s, Function.update c.loc t l⟩ := by
  have hp := total_update Local.writerPushing c.loc t l
  have hle := le_total Local.writerPushing c.loc t
  have hnone : (c.loc t).pc = .handoff .store →
      c.shared.writerWaiters.waiters.length + total Local.writerPushing c.loc = 0 := fun hpc => by
    rw [(hok hpc).1, total_eq_zero.2 (hok hpc).2]
    rfl
  unfold Served at h ⊢
  generalize Function.update c.loc t l = loc' at *
  generalize c.loc t = l₀ at *
  intro hfree
  have hk : kWriterLocked = -1 := rfl
  have ht : kTransition = -2 := rfl
  cases hs with
  | tryLockWins | lockWins | fastPathWins | recheckWins | unlockSharedLast | unlockSharedStore =>
    simp only [hk, ht] at hfree
    omega
  | trySharedWins hs | lockSharedWins hs | unlockSharedLeaves hs =>
    -- a shared owner is left
    simp only at hfree
    omega
  | @wait m n h' w q r hs hw =>
    -- the re-check is true only if the mutex is not free
    have hw : w.step t (decide (c.shared.state ≠ 0)) c.shared.writerWaiters = some (q, r) := by
      by_cases he : w.evaluates = true
      · simpa [hs he] using hw
      · rwa [step_of_not_evaluates (by simpa using he)]
    have hp : total Local.writerPushing loc' + w.pushing =
        total Local.writerPushing c.loc + r.elim 0 WaitIf.pushing := by
      cases r <;> simpa [Local.writerPushing] using hp
    simp only at hfree ⊢
    cases w.step_moves hw with
    | stays hq ha hb hpu =>
      have := h hfree
      simp only [Option.elim_some] at hp
      rw [hq]
      omega
    | returns hq hb =>
      have := h hfree
      simp only [Option.elim_none] at hp
      rw [hq]
      omega
    | begins hpred hq ha ha' hb' => simp [hfree] at hpred
    | pushes hq hb hpu' =>
      have : w.pushing ≤ total Local.writerPushing c.loc := hle
      have := h hfree
      omega
  | @waitShared m n h' w q r hw =>
    have hp : total Local.writerPushing loc' = total Local.writerPushing c.loc := by
      cases r <;> simpa [Local.writerPushing] using hp
    simp only [hp]
    exact h hfree
  | resumes hr | handsOver hr | findsNobody hr =>
    have := h hfree
    simp [Local.writerPushing] at hp
    simp only
    cases ResumeOne.step_takes hr with
    | stays hq ho => rw [hq]; omega
    | pops hq ho => omega
    | finds hc hq hq' ho => rw [hq', List.length_nil]; omega
  | store =>
    have := hnone rfl
    simp [Local.writerPushing] at hp
    simp only
    omega
  | @resumeAll m n h' r q o hr =>
    have hp : total Local.writerPushing loc' = total Local.writerPushing c.loc := by
      cases o <;> simpa [Local.writerPushing] using hp
    simp only [hp]
    exact h hfree
  | _ =>
    have := h hfree
    simp [Local.writerPushing, WaitIf.pushing] at hp
    simp only
    omega

variable {c : Config τ (Shared τ) (Local τ)}

/-- **When the shared mutex strands no writer.**  In every configuration of a run
in which no writer comes between a failed hand-off and its store of `0`, queued
writers have an owner to wait for, whether or not anybody is executing. -/
theorem no_writer_stranded (h : Reach next NoWriterBetween (start τ) c)
    (hw : c.shared.writerWaiters.waiters ≠ []) : c.shared.state ≠ 0 := by
  have hserved : Served c := by
    refine h.invariant (fun _ => ?_) fun c t a s l hr hi hok hn =>
      served_step hi hok (step_of_next hn)
    exact Nat.add_eq_zero_iff.2 ⟨rfl, total_const_zero rfl⟩
  intro hfree
  have := hserved hfree
  have := List.length_pos_iff.2 hw
  omega

/-- Task `0` writes and unlocks, finding nobody; it writes again and task `1` queues behind
it. -/
def queues : List (Fin 2 × Act) :=
  turns [(0, 1, .lock), (0, 1, .step false), (0, 1, .unlock), (0, 9, .step false), (0, 1, .lock),
    (0, 1, .step false), (1, 1, .lock), (1, 7, .step false)]

/-- The theorem with a store that meets its condition and a writer in the queue. -/
theorem no_writer_stranded_queues :
    ∃ c, (start (Fin 2)).exec next queues = some c ∧
      c.shared.writerWaiters.waiters = [⟨1, 0⟩] ∧ c.shared.state ≠ 0 := by
  refine ⟨_, rfl, rfl, ?_⟩
  have hreach : Reach next NoWriterBetween (start (Fin 2)) _ :=
    reach_of_exec (l := queues) rfl (by decide)
  exact no_writer_stranded hreach (by decide)

/-- Task `0` writes, and its `unlock` finds no writer to hand the mutex to; task
`1` fails the exchange and queues; task `0` stores `0` and resumes no reader. -/
def strands : List (Fin 2 × Act) :=
  turns [(0, 1, .lock), (0, 1, .step false), (0, 1, .unlock), (0, 4, .step false), (1, 1, .lock),
    (1, 7, .step false), (0, 5, .step false)]

/-- **A writer is left suspended on a free mutex**, with every task outside the
code or suspended. -/
theorem writer_stranded : ¬∀ c, Reachable next (start (Fin 2)) c → Quiescent c →
    c.shared.writerWaiters.waiters ≠ [] → c.shared.state ≠ 0 := by
  intro hall
  have hreach : Reachable next (start (Fin 2)) _ := reachable_of_exec (l := strands) rfl
  refine hall _ hreach (fun t => ?_) (by decide) rfl
  match t with
  | 0 => exact .inl rfl
  | 1 => exact .inr (.inl ⟨⟨1, 0⟩, rfl, by decide⟩)

end SharedMutex
end CoopSync
