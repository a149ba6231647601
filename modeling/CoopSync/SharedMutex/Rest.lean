/-
# The shared mutex comes to rest

With no new calls the tasks inside a `shared_mutex` come to rest (`shared_comes_to_rest`):
a reader that goes round the loop of `lock_shared()`, or a releasing one that goes round
its exchange, is paid for by a task that changed `m_state` or by one that woke it, and
each call changes `m_state` three times at most.

Where they stop every reader left waits for a writer, and `m_state` is not in transition.
A writer may be left at a free mutex, as `SharedMutex.Writers` shows.
-/

import CoopSync.SharedMutex.Atomic

namespace CoopSync
namespace SharedMutex

open WaitQueue

variable {τ : Type*}

/-- Where a task stands in the code of the writers' queue. -/
def Local.writerPlace (l : Local τ) : WaitQueue.Pc τ :=
  match l.pc with
  | .lockWait w => .waitIf w
  | .handoff (.resumeOne r) => .resumeOne r
  | _ => .idle

/-- Where a task stands in the code of the readers' queue. -/
def Local.readerPlace (l : Local τ) : WaitQueue.Pc τ :=
  match l.pc with
  | .lockSharedWait w => .waitIf w
  | .handoff (.resumeAll r) => .resumeAll r
  | _ => .idle

/-- Where a task stands in the code of one queue or the other. -/
def Local.place (l : Local τ) : WaitQueue.Pc τ :=
  match l.pc with
  | .lockWait w | .lockSharedWait w => .waitIf w
  | .handoff (.resumeOne r) => .resumeOne r
  | .handoff (.resumeAll r) => .resumeAll r
  | _ => .idle

/-- What a task does on the writers' queue is what its place there does. -/
theorem writerView_eq (l : Local τ) : l.writerView = l.writerPlace.view := by
  obtain ⟨m, n, h, pc⟩ := l
  cases pc with
  | handoff f => cases f <;> rfl
  | _ => rfl

/-- So it is for the readers' queue. -/
theorem readerView_eq (l : Local τ) : l.readerView = l.readerPlace.view := by
  obtain ⟨m, n, h, pc⟩ := l
  cases pc with
  | handoff f => cases f <;> rfl
  | _ => rfl

/-! ### The budget -/

/-- How often a task can still change `m_state`, apart from the wake-ups it owes. -/
def Local.stores (l : Local τ) : ℕ :=
  match l.pc with
  | .tryLock | .lockTry | .tryLockShared _ | .lockSharedTry _ | .lockSharedWait _ => 1
  | .lockWait w => 1 - waitHeld w
  | .unlockAssert => 3
  | .unlockSharedLoad | .unlockSharedLoop _ => 5
  | .unlockSharedStore => 4
  -- the store of `0`, and the `resume_all` after it
  | .handoff (.resumeOne _) | .handoff .store => 2
  | _ => 0

/-- The steps of `try_lock_shared` before it takes a share or reaches a place of rank `k`
without one. -/
def TryLockShared.rank (state : ℤ) (k : ℕ) : TryLockShared → ℕ
  | .load => if 0 ≤ state then 1 else k + 2
  | .loop expected =>
    if expected < 0 then k + 1
    else if expected = state then 0
    else if 0 ≤ state then 1
    else k + 2

/-- Failing lowers the rank. -/
theorem TryLockShared.lt_rank {a : TryLockShared} {state : ℤ} {k : ℕ} (h : a.lost = true) :
    k < a.rank state k := by
  cases a with
  | load => simp [TryLockShared.lost] at h
  | loop expected =>
    have hneg : expected < 0 := by simpa [TryLockShared.lost] using h
    simp [TryLockShared.rank, hneg]

/-- Reading `m_state` anew lowers the rank. -/
theorem TryLockShared.rank_again {a : TryLockShared} {state : ℤ} {k : ℕ} (h : a.lost = false)
    (hne : a ≠ .loop state) : (TryLockShared.loop state).rank state k < a.rank state k := by
  cases a with
  | load =>
    simp only [TryLockShared.rank]
    split_ifs <;> omega
  | loop expected =>
    have hexp : ¬expected < 0 := by simpa [TryLockShared.lost] using h
    have hne' : expected ≠ state := fun heq => hne (heq ▸ rfl)
    simp only [TryLockShared.rank, if_neg hexp, if_neg hne']
    split_ifs <;> omega

/-- The steps from `while (!try_lock_shared())` on: an open mutex lets the task in. -/
def again (state : ℤ) : ℕ := if state < 0 then 8 else 1

/-- The rank of the place a task in `lock_shared` reaches without a share. -/
def waits (state : ℤ) : ℕ := if state < 0 then 6 else 2

variable [DecidableEq τ]

/-- The steps of a task as long as nobody changes `m_state` or wakes it. -/
def Local.rank (s : Shared τ) (l : Local τ) : ℕ :=
  match l.pc with
  | .outside | .unlockSharedStore | .handoff .store => 0
  | .tryLock | .lockAssert | .unlockSharedLoad => 1
  | .lockTry => 7
  -- a writer that sees `m_state` at zero takes the mutex
  | .lockWait w => (WaitQueue.Pc.waitIf w).rank s.writerWaiters.resumed true 1
  | .unlockAssert => 4
  | .tryLockShared a => a.rank s.state 0
  | .lockSharedTry a => a.rank s.state (waits s.state)
  | .lockSharedWait w =>
    (WaitQueue.Pc.waitIf w).rank s.readerWaiters.resumed (s.state < 0) (again s.state)
  | .unlockSharedLoop state => if state = s.state then 0 else 1
  | .handoff (.resumeOne r) => (WaitQueue.Pc.resumeOne r).rank s.writerWaiters.resumed true 0
  | .handoff (.resumeAll r) =>
    (WaitQueue.Pc.resumeAll r).rank s.readerWaiters.resumed (s.state < 0) 0

/-- The budget of a task. -/
def budget (τ : Type*) [DecidableEq τ] : Budget (Shared τ) (Local τ) where
  moves l := l.stores + l.place.debt
  hands l := l.place.view.hands.length
  rank := Local.rank

/-- While `m_state` stays, the rank of a task changes only if it is woken. -/
theorem rank_congr {s s' : Shared τ} (l : Local τ) (hs : s'.state = s.state)
    (hw : ∀ sp, l.writerView.stage = .pushed sp →
      (sp ∈ s'.writerWaiters.resumed ↔ sp ∈ s.writerWaiters.resumed))
    (hr : ∀ sp, l.readerView.stage = .pushed sp →
      (sp ∈ s'.readerWaiters.resumed ↔ sp ∈ s.readerWaiters.resumed)) :
    l.rank s' = l.rank s := by
  obtain ⟨m, n, h, pc⟩ := l
  cases pc with
  | lockWait w => simpa only [Local.rank] using WaitQueue.Pc.rank_congr hw
  | lockSharedWait w => simpa only [Local.rank, hs] using WaitQueue.Pc.rank_congr hr
  | handoff f =>
    cases f with
    | resumeOne r => simpa only [Local.rank] using WaitQueue.Pc.rank_congr hw
    | store => rfl
    | resumeAll r => simpa only [Local.rank, hs] using WaitQueue.Pc.rank_congr hr
  | _ => simp [Local.rank, hs]

/-- A writer that waits does not come to hold the mutex by waiting. -/
theorem waitHeld_le {t : τ} {q q' : Queue τ} {w w' : WaitIf τ}
    (h : w.step t true q = some (q', some w')) : waitHeld w ≤ waitHeld w' := by
  cases w with
  | lock sp =>
    obtain ⟨q₁, -, he⟩ := Option.map_eq_some_iff.1 h
    obtain ⟨rfl, rfl⟩ := by simpa using he
    exact le_rfl
  | queued sp | selfResumed sp =>
    simp only [WaitIf.step] at h
    split at h <;> simp at h
  | _ =>
    obtain ⟨rfl, rfl⟩ := by simpa [WaitIf.step] using h
    exact le_rfl

variable [Fintype τ]

/-- **No step of a task inside is free.** -/
theorem spends {c : Config τ (Shared τ) (Local τ)} {t : τ} {s : Shared τ} {l : Local τ}
    (hLw : Ledger c.shared.writerWaiters fun t => (c.loc t).writerView)
    (hLr : Ledger c.shared.readerWaiters fun t => (c.loc t).readerView)
    (hn : next t (.step false) c.shared (c.loc t) = some (s, l)) :
    (budget τ).Spends c t (c.loc t) s l := by
  have hs := step_of_next hn
  -- a step of a queue raises no other task's rank, unless it wakes
  have hothers : s.state = c.shared.state →
      (c.loc t).writerView.hands.length ≤ l.writerView.hands.length →
      (c.loc t).readerView.hands.length ≤ l.readerView.hands.length →
      ∀ u, u ≠ t → (budget τ).rank s (c.loc u) ≤ (budget τ).rank c.shared (c.loc u) :=
    fun hst hw hr u hu => (rank_congr _ hst
      (fun sp hsp => hs.writerEffect.resumed_iff hLw hw hu hsp)
      fun sp hsp => hs.readerEffect.resumed_iff hLr hr hu hsp).le
  have hcallw : ∀ sp, (c.loc t).writerView.stage = .callback sp →
      sp ∉ c.shared.writerWaiters.resumed := fun sp hst => hLw.not_resumed_of_callback hst
  have hcallr : ∀ sp, (c.loc t).readerView.stage = .callback sp →
      sp ∉ c.shared.readerWaiters.resumed := fun sp hst => hLr.not_resumed_of_callback hst
  generalize c.loc t = l₀ at *
  cases hs with
  | callLock | callTryLock | callLockShared | callTryLockShared => simp [next] at hn
  | callUnlock | callUnlockShared => simp [next] at hn
  | tryLockFails => exact .walk (Nat.zero_le _) le_rfl Nat.zero_lt_one fun u _ => le_rfl
  | tryLockWins | lockWins | fastPathWins | recheckWins | trySharedWins | lockSharedWins =>
    exact .move Nat.zero_lt_one
  | lockFails => exact .walk le_rfl le_rfl (Nat.lt_succ_self 6) fun u _ => le_rfl
  | lockAssert => exact .walk le_rfl le_rfl Nat.zero_lt_one fun u _ => le_rfl
  | unlockAssert => exact .walk le_rfl le_rfl (Nat.lt_succ_self 3) fun u _ => le_rfl
  | @wait m n h w q r hs hw =>
    have hq : WaitQueue.next t (.step true) c.shared.writerWaiters (.waitIf w) =
        some (q, r.elim .idle .waitIf) := by
      simp [WaitQueue.next, hw]
    have hsp := next_spent (k := 1) hq hcallw
    cases r with
    | none =>
      exact hsp.spends (Nat.zero_le _) le_rfl le_rfl fun hh => hothers rfl hh le_rfl
    | some w' =>
      have hheld := waitHeld_le hw
      exact hsp.spends (by simp only [budget, Local.stores, Local.place, Option.elim_some]; omega)
        le_rfl le_rfl fun hh => hothers rfl hh le_rfl
  | @trySharedAgain m n h a a' =>
    obtain ⟨hlost, hne, ha⟩ | ⟨-, -, -, ha⟩ | ⟨-, ha⟩ := a.step_outcomes false c.shared.state <;>
      simp [next, ha] at hn
    subst hn
    exact .walk le_rfl le_rfl (TryLockShared.rank_again hlost (hne rfl)) fun u _ => le_rfl
  | @trySharedLoses m n h a =>
    obtain ⟨-, -, ha⟩ | ⟨-, -, -, ha⟩ | ⟨hlost, ha⟩ := a.step_outcomes false c.shared.state <;>
      simp [next, ha] at hn
    exact .walk (Nat.zero_le _) le_rfl (TryLockShared.lt_rank hlost) fun u _ => le_rfl
  | @lockSharedAgain m n h a a' =>
    obtain ⟨hlost, hne, ha⟩ | ⟨-, -, -, ha⟩ | ⟨-, ha⟩ := a.step_outcomes false c.shared.state <;>
      simp [next, ha] at hn
    subst hn
    exact .walk le_rfl le_rfl (TryLockShared.rank_again hlost (hne rfl)) fun u _ => le_rfl
  | @lockSharedLoses m n h a =>
    obtain ⟨-, -, ha⟩ | ⟨-, -, -, ha⟩ | ⟨hlost, ha⟩ := a.step_outcomes false c.shared.state <;>
      simp [next, ha] at hn
    refine .walk le_rfl le_rfl (lt_of_eq_of_lt ?_ (TryLockShared.lt_rank hlost)) fun u _ => le_rfl
    by_cases hneg : c.shared.state < 0 <;>
      simp [budget, Local.rank, WaitQueue.Pc.rank, WaitIf.rank, waits, again, hneg]
  | @waitShared m n h w q r hw =>
    have hq : WaitQueue.next t (.step (c.shared.state < 0)) c.shared.readerWaiters (.waitIf w) =
        some (q, r.elim .idle .waitIf) := by
      simp [WaitQueue.next, hw]
    have hsp := next_spent (k := again c.shared.state) hq hcallr
    cases r with
    | none =>
      refine hsp.spends le_rfl le_rfl ?_ fun hh => hothers rfl le_rfl hh
      -- `while (!try_lock_shared())` starts by reading `m_state`
      by_cases hneg : c.shared.state < 0
      · simp [budget, Local.rank, TryLockShared.rank, WaitQueue.Pc.rank, waits, again, hneg,
          not_le.2 hneg]
      · simp [budget, Local.rank, TryLockShared.rank, WaitQueue.Pc.rank, again, hneg,
          not_lt.1 hneg]
    | some w' => exact hsp.spends le_rfl le_rfl le_rfl fun hh => hothers rfl le_rfl hh
  | unlockSharedLoad =>
    exact .walk le_rfl le_rfl (by simp [budget, Local.rank]) fun u _ => le_rfl
  | @unlockSharedAgain m n h k =>
    refine .walk le_rfl le_rfl ?_ fun u _ => le_rfl
    have hne : k ≠ c.shared.state := by
      rintro rfl
      simp only [next] at hn
      split_ifs at hn <;> simp_all
    simp [budget, Local.rank, hne]
  | unlockSharedLeaves hs => exact .move (by simp [budget, Local.stores, Local.place])
  | unlockSharedLast hs => exact .move (Nat.lt_succ_self 4)
  | unlockSharedStore => exact .move (Nat.lt_succ_self 3)
  | @resumes m n h r q r' hr =>
    have hq : WaitQueue.next t (.step true) c.shared.writerWaiters (.resumeOne r) =
        some (q, .resumeOne r') := by
      simp [WaitQueue.next, hr]
    have hsp := next_spent (k := 0) hq hcallw
    exact hsp.spends (by simp only [budget, Local.stores, Local.place]; omega) le_rfl le_rfl
      fun hh => hothers rfl hh le_rfl
  | @handsOver m n h r q hr | @findsNobody m n h r q hr =>
    have hq : WaitQueue.next t (.step true) c.shared.writerWaiters (.resumeOne r) =
        some (q, .idle) := by
      simp [WaitQueue.next, hr]
    have hsp := next_spent (k := 0) hq hcallw
    exact hsp.spends (by simp only [budget, Local.stores, Local.place]; omega) le_rfl le_rfl
      fun hh => hothers rfl hh le_rfl
  | store => exact .move Nat.one_lt_two
  | @resumeAll m n h r q o hr =>
    have hq : WaitQueue.next t (.step (c.shared.state < 0)) c.shared.readerWaiters (.resumeAll r) =
        some (q, o.elim .idle .resumeAll) := by
      simp [WaitQueue.next, hr]
    have hsp := next_spent (k := 0) hq hcallr
    cases o with
    | none =>
      exact hsp.spends (by simp only [budget, Local.stores, Local.place, Option.elim_none]; omega)
        le_rfl le_rfl fun hh => hothers rfl le_rfl hh
    | some r' =>
      exact hsp.spends (by simp only [budget, Local.stores, Local.place, Option.elim_some]; omega)
        le_rfl le_rfl fun hh => hothers rfl le_rfl hh

/-! ### Rest -/

/-- A step of a task inside the code.  A weak exchange that fails for no reason could go
on failing, so none does. -/
def Inside (_ : Config τ (Shared τ) (Local τ)) (_ : τ) (a : Act) : Prop := a = .step false

/-- The task is suspended and in the list of the queue. -/
def Listed (q : Queue τ) (w : WaitIf τ) : Prop :=
  ∃ sp, w = .queued sp ∧ sp ∈ q.waiters ∧ sp ∉ q.resumed

/-- Nothing is left to do without a new call. -/
structure AtRest (c : Config τ (Shared τ) (Local τ)) : Prop where
  /-- Every task is outside, or it is suspended and in the queue of its call. -/
  everyone (t : τ) : (c.loc t).pc = .outside ∨
    (∃ w, (c.loc t).pc = .lockWait w ∧ Listed c.shared.writerWaiters w) ∨
      ∃ w, (c.loc t).pc = .lockSharedWait w ∧ Listed c.shared.readerWaiters w
  /-- `m_state` is `k_writer_locked` with one writer inside, or it counts the readers
  inside. -/
  owners : c.shared.state = kWriterLocked ∧ (∃ u, 0 < (c.loc u).writes) ∧
      (∀ u, (c.loc u).reads = 0) ∨
    c.shared.state = total Local.reads c.loc ∧ ∀ u, (c.loc u).writes = 0
  /-- A suspended reader waits for a writer. -/
  readers (t : τ) : SuspendedReader c t → c.shared.state = kWriterLocked
  /-- With every task outside nobody is in a queue, as their destructors assert. -/
  empty : (∀ t, (c.loc t).pc = .outside) →
    c.shared.writerWaiters.waiters = [] ∧ c.shared.readerWaiters.waiters = []

omit [Fintype τ] in
/-- A task that the queues hold, or that is outside, owns what it has acquired. -/
theorem owns_of_rest {s : Shared τ} {l : Local τ} (h : l.pc = .outside ∨
      (∃ w, l.pc = .lockWait w ∧ Listed s.writerWaiters w) ∨
        ∃ w, l.pc = .lockSharedWait w ∧ Listed s.readerWaiters w) :
    l.exclusive s.writerWaiters = l.writes ∧ l.shared = l.reads ∧ l.handing = 0 ∧
      l.opening = 0 := by
  rcases h with hpc | ⟨w, hpc, sp, rfl, hsp, -⟩ | ⟨w, hpc, sp, rfl, -⟩
  · simp [Local.exclusive, Local.held, Local.popped, Local.shared, Local.handing,
      Local.opening, hpc]
  · simp [Local.exclusive, Local.held, Local.popped, Local.shared, Local.handing,
      Local.opening, hpc, hsp, waitHeld]
  · simp [Local.exclusive, Local.held, Local.popped, Local.shared, Local.handing,
      Local.opening, hpc]

/-- Where nobody inside can step, the mutex is at rest. -/
theorem atRest {c : Config τ (Shared τ) (Local τ)}
    (hLw : Ledger c.shared.writerWaiters fun t => (c.loc t).writerView)
    (hLr : Ledger c.shared.readerWaiters fun t => (c.loc t).readerView) (hI : Inv c)
    (hA : Awaited c) (hrest : ∀ t a, Inside c t a → c.step next t a = none) : AtRest c := by
  have hnone (t : τ) : next t (.step false) c.shared (c.loc t) = none :=
    Option.map_eq_none_iff.1 (hrest t _ rfl)
  have hwriters := (Ledger.at_rest (by simpa only [writerView_eq] using hLw) fun t hne => by
    have := hnone t
    generalize c.loc t = l at this hne ⊢
    obtain ⟨m, n, h, pc⟩ := l
    cases pc with
    | lockWait w =>
      obtain ⟨b, hb⟩ := WaitIf.exists_step_eq_none (Option.map_eq_none_iff.1 this)
      exact ⟨b, by simp [Local.writerPlace, WaitQueue.next, hb]⟩
    | handoff f =>
      cases f with
      | resumeOne r =>
        exact ⟨true, by simpa [Local.writerPlace, WaitQueue.next, next, Handoff.step] using this⟩
      | _ => exact absurd rfl hne
    | _ => exact absurd rfl hne).2
  have hreaders := (Ledger.at_rest (by simpa only [readerView_eq] using hLr) fun t hne =>
    ⟨c.shared.state < 0, by
    have := hnone t
    generalize c.loc t = l at this hne ⊢
    obtain ⟨m, n, h, pc⟩ := l
    cases pc with
    | lockSharedWait w => simpa [Local.readerPlace, WaitQueue.next, next] using this
    | handoff f =>
      cases f with
      | resumeAll r =>
        simpa [Local.readerPlace, WaitQueue.next, next, Handoff.step] using this
      | _ => exact absurd rfl hne
    | _ => exact absurd rfl hne⟩).2
  have hall (t : τ) : (c.loc t).pc = .outside ∨
      (∃ w, (c.loc t).pc = .lockWait w ∧ Listed c.shared.writerWaiters w) ∨
        ∃ w, (c.loc t).pc = .lockSharedWait w ∧ Listed c.shared.readerWaiters w := by
    have hw := hwriters t
    have hr := hreaders t
    have hn := hnone t
    generalize c.loc t = l at hw hr hn
    obtain ⟨m, n, h, pc⟩ := l
    cases pc with
    | outside => exact .inl rfl
    | lockWait w => exact .inr (.inl (by simpa [Local.writerPlace, Listed] using hw))
    | lockSharedWait w => exact .inr (.inr (by simpa [Local.readerPlace, Listed] using hr))
    | handoff f =>
      cases f with
      | resumeOne r => simp [Local.writerPlace] at hw
      | resumeAll r => simp [Local.readerPlace] at hr
      | store => simp [next, Handoff.step] at hn
    | unlockSharedLoop state =>
      simp only [next] at hn
      split_ifs at hn
    | _ => simp [next] at hn
  have hown (t : τ) := owns_of_rest (hall t)
  have hshared : total Local.shared c.loc = total Local.reads c.loc :=
    Finset.sum_congr rfl fun u _ => (hown u).2.1
  have hhanding : total Local.handing c.loc = 0 := total_eq_zero.2 fun u => (hown u).2.2.1
  have hexclusive : total (Local.exclusive c.shared.writerWaiters) c.loc =
      total Local.writes c.loc :=
    Finset.sum_congr rfl fun u _ => (hown u).1
  have howners : c.shared.state = kWriterLocked ∧ (∃ u, 0 < (c.loc u).writes) ∧
      (∀ u, (c.loc u).reads = 0) ∨
      c.shared.state = total Local.reads c.loc ∧ ∀ u, (c.loc u).writes = 0 := by
    rcases means hLw hI with ⟨hs, he, -⟩ | ⟨hs, he, hz, -⟩ | ⟨-, -, -, hh⟩
    · exact .inr ⟨hshared ▸ hs, total_eq_zero.1 (hexclusive ▸ he)⟩
    · exact .inl ⟨hs, total_pos.1 (by omega), total_eq_zero.1 (hshared ▸ hz)⟩
    · omega
  refine ⟨hall, howners, fun t hsusp => ?_, fun hout => ⟨?_, ?_⟩⟩
  · obtain ⟨sp, hpc, -⟩ := hsusp
    rcases hall t with ho | ⟨w, ho, -⟩ | ⟨w, ho, sp', -, hsp, -⟩
    · simp [hpc] at ho
    · simp [hpc] at ho
    rcases howners with ⟨hs, -⟩ | ⟨hs, -⟩
    · exact hs
    -- at an open mutex somebody would be about to resume the readers
    obtain ⟨u, hu⟩ := total_pos.1 (hA (by omega) (by
      have := List.length_pos_of_mem hsp
      omega))
    exact absurd (hown u).2.2.2 hu.ne'
  · exact hLw.waiters_eq_nil fun t => by simp [Local.writerView, hout t, View.idle]
  · exact hLr.waiters_eq_nil fun t => by simp [Local.readerView, hout t, View.idle]

/-- **The shared mutex comes to rest.**  From every configuration of every run, the steps
of the tasks inside, in whatever order, end: no task goes round a loop of `lock_shared()`,
`try_lock_shared()` or `unlock_shared()` for ever.  Where they end every task is outside
or suspended in a queue, `m_state` tells who owns the mutex and is not in transition, a
suspended reader waits for a writer that owns it; and with every task outside both
queues are empty. -/
theorem shared_comes_to_rest {c : Config τ (Shared τ) (Local τ)}
    (h : Reachable next (start τ) c) : ComesToRest next Inside AtRest c :=
  h.comesToRest (budget τ).measure (fun _ _ _ _ => trivial)
    (fun _ _ _ _ _ hr ha hn => by
      subst ha
      exact (spends (writerLedger hr) (readerLedger hr) hn).lt)
    fun _ hr hrest =>
      atRest (writerLedger hr) (readerLedger hr) (inv_of_reach hr) (awaited_of_reach hr) hrest

/-- The theorem at an open mutex with a reader in its queue. -/
theorem shared_comes_to_rest_opens :
    ∃ c, (start (Fin 2)).exec next opens = some c ∧ c.shared.readerWaiters.waiters = [⟨1, 0⟩] ∧
      ComesToRest next Inside AtRest c :=
  ⟨_, rfl, rfl, shared_comes_to_rest (reachable_of_exec (l := opens) rfl)⟩

end SharedMutex
end CoopSync
