/-
# No reader waits at an open shared mutex

A reader queues only after it has seen `m_state` negative, and the only step that
makes a negative `m_state` non-negative is the store of `0` at the end of a
release, whose task goes on to resume all readers.  So a reader that is queued, or
about to be, while readers may enter has a releasing task on its way to empty the
queue (`Awaited`).  Hand-offs from writer to writer never open the mutex and so
owe the readers nothing.
-/

import CoopSync.SharedMutex.Ownership

namespace CoopSync
namespace SharedMutex

open WaitQueue

variable {τ : Type*}

/-- One for a reader that has seen `m_state` negative under the queue's lock. -/
def Local.readerPushing (l : Local τ) : ℕ :=
  match l.pc with
  | .lockSharedWait w => w.pushing
  | _ => 0

/-- One for a releasing task that has stored `0` and not emptied the readers'
queue. -/
def Local.opening (l : Local τ) : ℕ :=
  match l.pc with
  | .handoff (.resumeAll r) => r.owes
  | _ => 0

/-- A reader about to push holds the lock of the readers' queue. -/
theorem readerCritical_of_pushing (l : Local τ) (h : 0 < l.readerPushing) :
    l.readerView.critical = true := by
  obtain ⟨m, n, h', pc⟩ := l
  cases pc with
  | lockSharedWait w => exact w.critical_of_pushing h
  | _ => simp [Local.readerPushing] at h

variable [DecidableEq τ] [Fintype τ]

/-- Readers queued at an open mutex, or about to be, are about to be resumed. -/
def Awaited (c : Config τ (Shared τ) (Local τ)) : Prop :=
  0 ≤ c.shared.state →
    0 < c.shared.readerWaiters.waiters.length + total Local.readerPushing c.loc →
    0 < total Local.opening c.loc

/-- A step keeps every queued reader awaited. -/
theorem awaited_step {c : Config τ (Shared τ) (Local τ)} {t : τ} {s : Shared τ} {l : Local τ}
    (hL : Ledger c.shared.readerWaiters fun t => (c.loc t).readerView) (h : Awaited c)
    (hs : Step t c.shared (c.loc t) s l) : Awaited ⟨s, Function.update c.loc t l⟩ := by
  have hzero := hL.total_eq_zero_of_critical (t := t) readerCritical_of_pushing
  have hle := le_total Local.readerPushing c.loc t
  have hp := total_update Local.readerPushing c.loc t l
  have ho := total_update Local.opening c.loc t l
  unfold Awaited at h ⊢
  generalize Function.update c.loc t l = loc' at *
  generalize c.loc t = l₀ at *
  intro hopen hpos
  have hk : kWriterLocked = -1 := rfl
  have ht : kTransition = -2 := rfl
  cases hs with
  | tryLockWins | lockWins | fastPathWins | recheckWins | unlockSharedLast | unlockSharedStore =>
    -- the mutex is closed
    simp only [hk, ht] at hopen
    omega
  | trySharedWins hs | lockSharedWins hs | unlockSharedLeaves hs =>
    simp [Local.readerPushing, Local.opening] at hp ho hpos
    have := h (by omega) (by omega)
    simp only
    omega
  | @wait m n h' w q r hs hw =>
    have hp : total Local.readerPushing loc' = total Local.readerPushing c.loc := by
      cases r <;> simpa [Local.readerPushing] using hp
    have ho : total Local.opening loc' = total Local.opening c.loc := by
      cases r <;> simpa [Local.opening] using ho
    simp only [hp, ho] at hpos ⊢
    exact h hopen hpos
  | @waitShared m n h' w q r hw =>
    have ho : total Local.opening loc' = total Local.opening c.loc := by
      cases r <;> simpa [Local.opening] using ho
    have hp : total Local.readerPushing loc' + w.pushing =
        total Local.readerPushing c.loc + r.elim 0 WaitIf.pushing := by
      cases r <;> simpa [Local.readerPushing] using hp
    simp only [ho] at hopen hpos ⊢
    cases w.step_moves hw with
    | stays hq ha hb hpu =>
      simp only [Option.elim_some] at hp
      exact h hopen (by rw [hq] at hpos; omega)
    | returns hq hb =>
      simp only [Option.elim_none] at hp
      exact h hopen (by rw [hq] at hpos; omega)
    | begins hpred hq ha ha' hb' =>
      -- the re-check has just seen the mutex closed
      simp only [decide_eq_true_eq] at hpred
      omega
    | pushes hq hb hpu' =>
      have : w.pushing ≤ total Local.readerPushing c.loc := hle
      exact h hopen (by omega)
  | store =>
    simp [Local.readerPushing, Local.opening, ResumeAll.owes] at hp ho
    simp only
    omega
  | @resumeAll m n h' r q o hr =>
    have hp : total Local.readerPushing loc' = total Local.readerPushing c.loc := by
      cases o <;> simpa [Local.readerPushing] using hp
    have ho : total Local.opening loc' + r.owes =
        total Local.opening c.loc + o.elim 0 ResumeAll.owes := by
      cases o <;> simpa [Local.opening] using ho
    simp only [hp] at hopen hpos ⊢
    rcases r.step_swaps hr with ⟨hq, how⟩ | ⟨rfl, hq⟩
    · have := h hopen (by rwa [hq] at hpos)
      omega
    · rw [hq, hzero rfl rfl] at hpos
      simp at hpos
  | _ =>
    simp [Local.readerPushing, Local.opening, WaitIf.pushing] at hp ho hpos
    have := h hopen (by omega)
    simp only
    omega

/-- Every queued reader is awaited in every run. -/
theorem awaited_of_reach {ok : Config τ (Shared τ) (Local τ) → τ → Act → Prop}
    {c : Config τ (Shared τ) (Local τ)} (h : Reach next ok (start τ) c) : Awaited c := by
  refine h.invariant (fun _ hpos => ?_) fun c t a s l hr hi _ hn =>
    awaited_step (readerLedger hr) hi (step_of_next hn)
  rw [show total Local.readerPushing (start τ).loc = 0 from total_const_zero rfl] at hpos
  simp [start, Queue.init] at hpos

/-! ### The readers as their users see them -/

/-- The task has stored `0` and not finished its `resume_all` on the readers. -/
def Local.ResumingReaders (l : Local τ) : Prop := ∃ r, l.pc = .handoff (.resumeAll r)

/-- The task is in `lock_shared()` and suspended: queued and not resumed. -/
def SuspendedReader (c : Config τ (Shared τ) (Local τ)) (t : τ) : Prop :=
  ∃ sp, (c.loc t).pc = .lockSharedWait (.queued sp) ∧ sp ∉ c.shared.readerWaiters.resumed

variable {c : Config τ (Shared τ) (Local τ)}

omit [DecidableEq τ] [Fintype τ] in
/-- Who has taken a reader off the list is in the `resume_all` of a hand-off. -/
theorem resuming_of_hands {l : Local τ} {sp : SuspendPoint τ} (h : sp ∈ l.readerView.hands) :
    l.ResumingReaders := by
  obtain ⟨m, n, h', pc⟩ := l
  cases pc with
  | lockSharedWait w => cases w <;> simp [Local.readerView, WaitIf.view] at h
  | handoff f =>
    cases f with
    | resumeAll r => exact ⟨r, rfl⟩
    | _ => simp [Local.readerView, View.idle] at h
  | _ => simp [Local.readerView, View.idle] at h

omit [DecidableEq τ] in
/-- Readers queued on an open mutex are about to be resumed. -/
theorem exists_resuming (h : Awaited c) (hopen : 0 ≤ c.shared.state)
    (hw : c.shared.readerWaiters.waiters ≠ []) : ∃ t, (c.loc t).ResumingReaders := by
  obtain ⟨t, ht⟩ := total_pos.1 (h hopen (by have := List.length_pos_iff.2 hw; omega))
  refine ⟨t, ?_⟩
  cases hpc : (c.loc t).pc with
  | handoff f =>
    cases f with
    | resumeAll r => exact ⟨r, hpc⟩
    | _ => simp [Local.opening, hpc] at ht
  | _ => simp [Local.opening, hpc] at ht

/-- **No reader stays suspended while readers may enter.**  In every configuration
of every run, readers queued under a non-negative `m_state` have a releasing task
that has stored `0` and not finished resuming them; and a suspended reader has
such a task, or `m_state` is negative and some task owns the mutex exclusively or
is the last reader handing it over. -/
theorem no_reader_stranded (h : Reachable next (start τ) c) :
    (0 ≤ c.shared.state → c.shared.readerWaiters.waiters ≠ [] →
      ∃ t, (c.loc t).ResumingReaders) ∧
    ∀ t, SuspendedReader c t → (∃ u, (c.loc u).ResumingReaders) ∨
      c.shared.state < 0 ∧
        ∃ u, 0 < (c.loc u).exclusive c.shared.writerWaiters ∨ 0 < (c.loc u).handing := by
  have hA := awaited_of_reach h
  have hL := readerLedger h
  refine ⟨exists_resuming hA, fun t ⟨sp, hpc, hnr⟩ => ?_⟩
  have hst : (c.loc t).readerView.stage = .pushed sp := by
    simp [Local.readerView, hpc, WaitIf.view]
  rcases hL.pushed_cases hst with hw | ⟨u, hu⟩ | hr
  · rcases lt_or_ge c.shared.state 0 with hneg | hopen
    · refine .inr ⟨hneg, ?_⟩
      -- a closed mutex has an exclusive owner or a hand-off
      have hm := means (writerLedger h) (inv_of_reach h)
      rcases hm with ⟨hs, -, -⟩ | ⟨-, he, -, -⟩ | ⟨-, -, -, hh⟩
      · omega
      · obtain ⟨u, hu⟩ := total_pos.1 (he ▸ Nat.one_pos)
        exact ⟨u, .inl hu⟩
      · obtain ⟨u, hu⟩ := total_pos.1 (hh ▸ Nat.one_pos)
        exact ⟨u, .inr hu⟩
    · exact .inl (exists_resuming hA hopen (List.ne_nil_of_mem hw))
  · exact .inl ⟨u, resuming_of_hands hu⟩
  · exact absurd hr hnr

/-- Task `0` writes, task `1` queues for reading, task `0` stores `0`. -/
def opens : List (Fin 2 × Act) :=
  turns [(0, 1, .lock), (0, 1, .step false), (1, 1, .lockShared), (1, 8, .step false),
    (0, 1, .unlock), (0, 5, .step false)]

/-- The theorem at an open mutex with a reader in its queue. -/
theorem no_reader_stranded_opens :
    ∃ c, (start (Fin 2)).exec next opens = some c ∧ c.shared.state = 0 ∧
      c.shared.readerWaiters.waiters = [⟨1, 0⟩] ∧ ∃ t, (c.loc t).ResumingReaders := by
  refine ⟨_, rfl, rfl, rfl, ?_⟩
  have hreach : Reachable next (start (Fin 2)) _ := reachable_of_exec (l := opens) rfl
  exact (no_reader_stranded hreach).1 (by decide) (by decide)

end SharedMutex
end CoopSync
