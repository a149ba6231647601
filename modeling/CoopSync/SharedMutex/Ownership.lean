/-
# Who owns the shared mutex

Exclusive ownership moves without a write to `m_state`: a releasing task pops a
writer, and from then on that writer owns the mutex although it has not run.  The
account that survives every step counts a writer as an owner from the moment it
is queued, and takes the length of the queue off again (`Inv.writers`); nothing
then changes when a writer is pushed or popped.  The shared owners and the last
reader's hand-off have accounts of their own (`Inv.readers`, `Inv.handing`), and
the three together determine `m_state`.
-/

import CoopSync.SharedMutex.Steps
import CoopSync.WaitQueue.Wakeups

namespace CoopSync
namespace SharedMutex

open WaitQueue

variable {τ : Type*}

/-- One for a writer in `wait_if` that has won the exchange. -/
def waitHeld : WaitIf τ → ℕ
  | .unlockResume _ | .resume _ | .selfResumed _ => 1
  | _ => 0

/-- One for a releasing task that has not given the mutex to a writer. -/
def resumeHeld : ResumeOne τ → ℕ
  | .lock | .popFront | .unlock none => 1
  | .unlock (some _) | .resume _ => 0

/-- How often a task owns the mutex exclusively, as far as its own place tells: the
acquisitions it has not given to `unlock`, and one for a call that has won the
exchange or has not released yet. -/
def Local.held (l : Local τ) : ℕ :=
  l.writes + match l.pc with
    | .lockWait w => waitHeld w
    | .lockAssert | .unlockAssert | .handoff .store => 1
    | .handoff (.resumeOne r) => resumeHeld r
    | _ => 0

/-- A task's part of the writers' account. -/
def Local.writeShare (l : Local τ) : ℕ := l.held + l.writerView.pushed

/-- How often a task owns the mutex in shared mode: the acquisitions it has not
given to `unlock_shared`, and an `unlock_shared` that has not left `m_state`. -/
def Local.shared (l : Local τ) : ℕ :=
  l.reads + match l.pc with
    | .unlockSharedLoad | .unlockSharedLoop _ => 1
    | _ => 0

/-- One for the last reader between its exchange and its first store. -/
def Local.handing (l : Local τ) : ℕ :=
  match l.pc with
  | .unlockSharedStore => 1
  | _ => 0

/-- What a task has seen in `m_state` when it leaves its share. -/
def Local.Saw (l : Local τ) : Prop :=
  match l.pc with
  | .unlockSharedLoop k => 1 ≤ k
  | _ => True

/-- One for a call of `lock()` without ownership, a queued one included. -/
def Local.unserved (l : Local τ) : ℕ :=
  match l.pc with
  | .lockTry => 1
  | .lockWait (.unlockResume _) | .lockWait (.resume _) | .lockWait (.selfResumed _) => 0
  | .lockWait _ => 1
  | _ => 0

/-- Every call of `lock()` has won an exchange, or gone on after a hand-off, or is
unserved. -/
def Local.Balanced (l : Local τ) : Prop :=
  l.hist.calls = l.hist.wins + l.hist.handoffs + l.unserved

variable [DecidableEq τ]

/-- A step of a writer's `wait_if` that does not win changes its share by what it
pushes. -/
theorem waitHeld_step {t : τ} {q q' : Queue τ} {w : WaitIf τ} {r : Option (WaitIf τ)}
    (h : w.step t true q = some (q', r)) :
    r.elim 1 (fun w => waitHeld w + w.pushed) + q.waiters.length =
      waitHeld w + w.pushed + q'.waiters.length := by
  cases w with
  | lock sp =>
    obtain ⟨q₁, hq, he⟩ := Option.map_eq_some_iff.1 h
    obtain ⟨rfl, rfl⟩ := by simpa using he
    rw [Queue.acquire_waiters hq]
    rfl
  | queued sp | selfResumed sp =>
    simp only [WaitIf.step] at h
    split at h
    · obtain ⟨rfl, rfl⟩ := by simpa using h
      rfl
    · simp at h
  | pushBack sp =>
    obtain ⟨rfl, rfl⟩ := by simpa [WaitIf.step] using h
    simp [waitHeld, WaitIf.pushed]
    omega
  | _ =>
    obtain ⟨rfl, rfl⟩ := by simpa [WaitIf.step] using h
    rfl

omit [DecidableEq τ] in
/-- A step of `resume_one` changes the releasing task's share by what it pops. -/
theorem resumeHeld_step {t : τ} {q q' : Queue τ} {r : ResumeOne τ} {o : ResumeOne τ ⊕ Bool}
    (h : r.step t q = some (q', o)) :
    (o.elim resumeHeld fun served => if served then 0 else 1) + q.waiters.length =
      resumeHeld r + q'.waiters.length := by
  cases r with
  | lock =>
    obtain ⟨q₁, hq, he⟩ := Option.map_eq_some_iff.1 h
    obtain ⟨rfl, rfl⟩ := by simpa using he
    rw [Queue.acquire_waiters hq]
    rfl
  | popFront =>
    obtain ⟨rfl, rfl⟩ := by simpa [ResumeOne.step] using h
    cases hw : q.waiters with
    | nil => rfl
    | cons waiter rest =>
      simp [resumeHeld]
      omega
  | unlock waiter =>
    cases waiter <;>
    · obtain ⟨rfl, rfl⟩ := by simpa [ResumeOne.step] using h
      rfl
  | resume waiter =>
    obtain ⟨rfl, rfl⟩ := by simpa [ResumeOne.step] using h
    rfl

/-- The history stays balanced in every step. -/
theorem Step.balanced {t : τ} {s s' : Shared τ} {l l' : Local τ} (h : Step t s l s' l')
    (hb : l.Balanced) : l'.Balanced := by
  unfold Local.Balanced at hb ⊢
  cases h with
  | @wait m n h w q r hs hw =>
    cases w with
    | queued sp | selfResumed sp =>
      simp only [WaitIf.step] at hw
      split at hw
      · obtain ⟨rfl, rfl⟩ := by simpa using hw
        simp [Local.unserved, continued] at hb ⊢
        omega
      · simp at hw
    | lock sp =>
      obtain ⟨q₁, hq, he⟩ := Option.map_eq_some_iff.1 hw
      obtain ⟨rfl, rfl⟩ := by simpa using he
      simpa [Local.unserved, continued] using hb
    | _ =>
      obtain ⟨rfl, rfl⟩ := by simpa [WaitIf.step] using hw
      simpa [Local.unserved, continued] using hb
  | waitShared hw => rename_i r; cases r <;> simpa [Local.unserved] using hb
  | resumeAll hr => rename_i o; cases o <;> simpa [Local.unserved] using hb
  | _ =>
    simp only [Local.unserved] at hb ⊢
    omega

variable [Fintype τ]

/-- What `m_state` says of the numbers of exclusive owners, shared owners and last
readers in their hand-off. -/
def Means (state : ℤ) (exclusive shared handing : ℕ) : Prop :=
  state = shared ∧ exclusive = 0 ∧ handing = 0 ∨
    state = kWriterLocked ∧ exclusive = 1 ∧ shared = 0 ∧ handing = 0 ∨
    state = kTransition ∧ exclusive = 0 ∧ shared = 0 ∧ handing = 1

/-- What `m_state` means depends on the numbers only. -/
theorem Means.congr {state : ℤ} {e s s' k k' : ℕ} (h : Means state e s k) (hs : s' = s)
    (hk : k' = k) : Means state e s' k' :=
  hs ▸ hk ▸ h

/-- What holds of every configuration. -/
structure Inv (c : Config τ (Shared τ) (Local τ)) : Prop where
  /-- The writers' account is the queued writers and the exclusive owners that
  `m_state` stands for. -/
  owners : ∃ e, total Local.writeShare c.loc = c.shared.writerWaiters.waiters.length + e ∧
    Means c.shared.state e (total Local.shared c.loc) (total Local.handing c.loc)
  saw : ∀ t, (c.loc t).Saw
  balanced : ∀ t, (c.loc t).Balanced

/-- The queued writers and what a task holds are all in the writers' account. -/
theorem length_add_held_le {c : Config τ (Shared τ) (Local τ)}
    (hL : Ledger c.shared.writerWaiters fun t => (c.loc t).writerView) (t : τ) :
    c.shared.writerWaiters.waiters.length + (c.loc t).held ≤ total Local.writeShare c.loc := by
  have hlen : _ ≤ total (fun l => l.writerView.pushed) c.loc := hL.length_le_pushed
  have hheld := le_total Local.held c.loc t
  have hsum : total Local.writeShare c.loc = _ :=
    total_add Local.held (fun l => l.writerView.pushed) c.loc
  omega

/-- A step keeps the invariant. -/
theorem inv_step {c : Config τ (Shared τ) (Local τ)} {t : τ} {s : Shared τ} {l : Local τ}
    (hL : Ledger c.shared.writerWaiters fun t => (c.loc t).writerView) (h : Inv c)
    (hs : Step t c.shared (c.loc t) s l) : Inv ⟨s, Function.update c.loc t l⟩ := by
  have hbal : ∀ u, (Function.update c.loc t l u).Balanced := by
    intro u
    rcases eq_or_ne u t with rfl | hne
    · rw [Function.update_self]
      exact hs.balanced (h.balanced u)
    · rw [Function.update_of_ne hne]
      exact h.balanced u
  have hlen := length_add_held_le hL t
  obtain ⟨⟨e, he, hm⟩, hsaw, -⟩ := h
  have hw := total_update Local.writeShare c.loc t l
  have hr := total_update Local.shared c.loc t l
  have hh := total_update Local.handing c.loc t l
  have hsaw' : l.Saw → ∀ u, (Function.update c.loc t l u).Saw := by
    intro hl u
    rcases eq_or_ne u t with rfl | hne
    · rwa [Function.update_self]
    · rw [Function.update_of_ne hne]
      exact hsaw u
  have hst := hsaw t
  have hone := le_total Local.shared c.loc t
  have hlast := le_total Local.handing c.loc t
  generalize Function.update c.loc t l = loc' at *
  generalize c.loc t = l₀ at *
  cases hs with
  | callLock | callTryLock | callUnlock | callLockShared | callTryLockShared | callUnlockShared |
    tryLockFails | lockFails | lockAssert | unlockAssert | trySharedAgain | trySharedLoses |
    lockSharedAgain | lockSharedLoses =>
    simp [Local.writeShare, Local.held, Local.writerView, waitHeld, resumeHeld, WaitIf.pushed,
      Local.shared, Local.handing] at hw hr hh
    exact ⟨⟨e, by simp only; omega, hm.congr (by simp only; omega) (by simp only; omega)⟩,
      hsaw' trivial, hbal⟩
  | tryLockWins hs | lockWins hs | fastPathWins hs | recheckWins hs =>
    simp [Local.writeShare, Local.held, Local.writerView, waitHeld, WaitIf.pushed,
      Local.shared, Local.handing] at hw hr hh
    simp only [Means, kWriterLocked, kTransition] at hm
    exact ⟨⟨1, by simp only; omega,
      .inr (.inl ⟨rfl, rfl, by simp only; omega, by simp only; omega⟩)⟩, hsaw' trivial, hbal⟩
  | @wait m n h w q r hs hw' =>
    have hshare := waitHeld_step hw'
    have hw : total Local.writeShare loc' + (waitHeld w + w.pushed) =
        total Local.writeShare c.loc + r.elim 1 fun w => waitHeld w + w.pushed := by
      cases r <;> simp [Local.writeShare, Local.held, Local.writerView] at hw ⊢ <;> omega
    have hr : total Local.shared loc' = total Local.shared c.loc := by
      cases r <;> simpa [Local.shared] using hr
    have hh : total Local.handing loc' = total Local.handing c.loc := by
      cases r <;> simpa [Local.handing] using hh
    exact ⟨⟨e, by simp only; omega, hm.congr (by simp only; omega) (by simp only; omega)⟩,
      hsaw' (by cases r <;> trivial), hbal⟩
  | @waitShared m n h w q r hw' =>
    have hw : total Local.writeShare loc' = total Local.writeShare c.loc := by
      cases r <;> simpa [Local.writeShare, Local.held, Local.writerView, View.idle] using hw
    have hr : total Local.shared loc' = total Local.shared c.loc := by
      cases r <;> simpa [Local.shared] using hr
    have hh : total Local.handing loc' = total Local.handing c.loc := by
      cases r <;> simpa [Local.handing] using hh
    exact ⟨⟨e, by simp only; omega, hm.congr (by simp only; omega) (by simp only; omega)⟩,
      hsaw' (by cases r <;> trivial), hbal⟩
  | trySharedWins hs | lockSharedWins hs =>
    simp [Local.writeShare, Local.held, Local.writerView, Local.shared,
      Local.handing] at hw hr hh
    simp only [Means, kWriterLocked, kTransition] at hm
    exact ⟨⟨0, by simp only; omega, .inl ⟨by simp only; omega, rfl, by simp only; omega⟩⟩,
      hsaw' trivial, hbal⟩
  | unlockSharedLoad | unlockSharedAgain =>
    simp [Local.writeShare, Local.held, Local.writerView, Local.shared,
      Local.handing] at hw hr hh hone
    simp only [Means, kWriterLocked, kTransition] at hm
    exact ⟨⟨0, by simp only; omega, .inl ⟨by simp only; omega, rfl, by simp only; omega⟩⟩,
      hsaw' (by simp only [Local.Saw]; omega), hbal⟩
  | unlockSharedLeaves hs =>
    simp [Local.writeShare, Local.held, Local.writerView, Local.shared,
      Local.handing] at hw hr hh
    simp only [Means, kWriterLocked, kTransition] at hm
    exact ⟨⟨0, by simp only; omega, .inl ⟨by simp only; omega, rfl, by simp only; omega⟩⟩,
      hsaw' trivial, hbal⟩
  | unlockSharedLast hs =>
    simp [Local.writeShare, Local.held, Local.writerView, Local.shared,
      Local.handing] at hw hr hh
    simp only [Means, kWriterLocked, kTransition] at hm
    simp only [Local.Saw] at hst
    exact ⟨⟨0, by simp only; omega,
      .inr (.inr ⟨rfl, rfl, by simp only; omega, by simp only; omega⟩)⟩, hsaw' trivial, hbal⟩
  | unlockSharedStore =>
    simp [Local.writeShare, Local.held, Local.writerView, Local.shared,
      Local.handing, resumeHeld] at hw hr hh hlast
    simp only [Means, kWriterLocked, kTransition] at hm
    exact ⟨⟨1, by simp only; omega,
      .inr (.inl ⟨rfl, rfl, by simp only; omega, by simp only; omega⟩)⟩, hsaw' trivial, hbal⟩
  | store =>
    simp [Local.writeShare, Local.held, Local.writerView, Local.shared,
      Local.handing] at hw hr hh
    simp only [Means, kWriterLocked, kTransition] at hm
    simp only [Local.held] at hlen
    exact ⟨⟨0, by simp only; omega, .inl ⟨by simp only; omega, rfl, by simp only; omega⟩⟩,
      hsaw' trivial, hbal⟩
  | resumes hr' | handsOver hr' | findsNobody hr' =>
    have hshare := resumeHeld_step hr'
    simp [Local.writeShare, Local.held, Local.writerView, Local.shared,
      Local.handing] at hw hr hh hshare
    exact ⟨⟨e, by simp only; omega, hm.congr (by simp only; omega) (by simp only; omega)⟩,
      hsaw' trivial, hbal⟩
  | @resumeAll m n h r q o hr' =>
    have hw : total Local.writeShare loc' = total Local.writeShare c.loc := by
      cases o <;> simpa [Local.writeShare, Local.held, Local.writerView, View.idle] using hw
    have hr : total Local.shared loc' = total Local.shared c.loc := by
      cases o <;> simpa [Local.shared] using hr
    have hh : total Local.handing loc' = total Local.handing c.loc := by
      cases o <;> simpa [Local.handing] using hh
    exact ⟨⟨e, by simp only; omega, hm.congr (by simp only; omega) (by simp only; omega)⟩,
      hsaw' (by cases o <;> trivial), hbal⟩

/-- The invariant holds in every run. -/
theorem inv_of_reach {ok : Config τ (Shared τ) (Local τ) → τ → Act → Prop}
    {c : Config τ (Shared τ) (Local τ)} (h : Reach next ok (start τ) c) : Inv c := by
  refine h.invariant ⟨⟨0, ?_, ?_⟩, fun _ => trivial, fun _ => rfl⟩ fun c t a s l hr hi _ hn =>
    inv_step (writerLedger hr) hi (step_of_next hn)
  · exact total_const_zero rfl
  · exact .inl ⟨congrArg _ (total_const_zero rfl).symm, rfl, total_const_zero rfl⟩

/-! ### The mutex as its users see it -/

/-- One for a call of `lock()` that was handed the mutex and has not gone on: its
task has been popped from the queue. -/
def Local.popped (q : Queue τ) (l : Local τ) : ℕ :=
  match l.pc with
  | .lockWait (.unlockQueued sp) | .lockWait (.queued sp) => if sp ∈ q.waiters then 0 else 1
  | _ => 0

/-- How often a task owns the mutex exclusively: it has won the exchange and not
handed over or stored `0`, or it has been popped. -/
def Local.exclusive (q : Queue τ) (l : Local τ) : ℕ := l.held + l.popped q

/-- One for a call of `lock()` that does not own the mutex. -/
def Local.waiting (q : Queue τ) (l : Local τ) : ℕ :=
  match l.pc with
  | .lockTry => 1
  | .lockWait (.unlockResume _) | .lockWait (.resume _) | .lockWait (.selfResumed _) => 0
  | .lockWait (.unlockQueued sp) | .lockWait (.queued sp) => if sp ∈ q.waiters then 1 else 0
  | .lockWait _ => 1
  | _ => 0

/-- The task has won the exchange in the re-check of its suspension `sp`. -/
def Local.WonInRecheck (l : Local τ) (sp : SuspendPoint τ) : Prop :=
  l.pc = .lockWait (.unlockResume sp) ∨ l.pc = .lockWait (.resume sp) ∨
    l.pc = .lockWait (.selfResumed sp)

/-- The task is about to store into `m_state`. -/
def Local.Storing (l : Local τ) : Prop :=
  l.pc = .handoff .store ∨ l.pc = .unlockSharedStore

/-- Who owns the mutex in a configuration. -/
structure Owned (c : Config τ (Shared τ) (Local τ)) : Prop where
  /-- A state `k ≥ 0` is `k` shared owners. -/
  shared (k : ℕ) : c.shared.state = k ↔ total Local.shared c.loc = k ∧
    total (Local.exclusive c.shared.writerWaiters) c.loc = 0 ∧ total Local.handing c.loc = 0
  /-- `k_writer_locked` is one exclusive owner. -/
  exclusive : c.shared.state = kWriterLocked ↔
    total (Local.exclusive c.shared.writerWaiters) c.loc = 1 ∧ total Local.shared c.loc = 0 ∧
      total Local.handing c.loc = 0
  /-- `k_transition` is one last reader in its hand-off. -/
  transition : c.shared.state = kTransition ↔
    total Local.handing c.loc = 1 ∧ total Local.shared c.loc = 0 ∧
      total (Local.exclusive c.shared.writerWaiters) c.loc = 0
  range : 0 ≤ c.shared.state ∨ c.shared.state = kWriterLocked ∨ c.shared.state = kTransition
  /-- A writer overlaps nobody. -/
  alone (t u : τ) : 0 < (c.loc t).exclusive c.shared.writerWaiters →
    (c.loc u).shared = 0 ∧ (c.loc u).handing = 0 ∧
      (c.loc u).exclusive c.shared.writerWaiters = if u = t then 1 else 0
  /-- Each call of `lock()` has obtained the mutex once, by an exchange or by a
  hand-off, or waits for it. -/
  once (t : τ) : (c.loc t).hist.calls = (c.loc t).hist.wins + (c.loc t).hist.handoffs +
    (c.loc t).popped c.shared.writerWaiters + (c.loc t).waiting c.shared.writerWaiters
  /-- A writer that won in the re-check cannot be handed the mutex. -/
  apart (t : τ) (sp : SuspendPoint τ) : (c.loc t).WonInRecheck sp →
    sp ∉ c.shared.writerWaiters.waiters ∧ ∀ u, sp ∉ (c.loc u).writerView.hands
  /-- A store into `m_state` meets no other owner. -/
  store (t u : τ) : (c.loc t).Storing → u ≠ t → (c.loc u).shared = 0 ∧
    (c.loc u).handing = 0 ∧ (c.loc u).exclusive c.shared.writerWaiters = 0
  assertLock (t : τ) : (c.loc t).pc = .lockAssert ∨ (c.loc t).pc = .unlockAssert →
    c.shared.state = kWriterLocked
  assertUnlockShared (t : τ) (k : ℤ) : (c.loc t).pc = .unlockSharedLoop k → 1 ≤ k

omit [Fintype τ] in
/-- A task's part of the writers' account is what it owns and its place in the list. -/
theorem exclusive_add_waitingIn (q : Queue τ) (l : Local τ) :
    l.exclusive q + (if l.writerView.waitingIn q = true then 1 else 0) = l.writeShare := by
  obtain ⟨m, n, h, pc⟩ := l
  cases pc with
  | lockWait w =>
    cases w with
    | unlockQueued sp | queued sp =>
      by_cases hsp : sp ∈ q.waiters <;>
        simp [Local.exclusive, Local.popped, Local.writeShare, Local.writerView, WaitIf.view,
          View.waitingIn, View.pushed, hsp]
    | _ => rfl
  | handoff f =>
    cases f with
    | resumeOne r =>
      simp [Local.exclusive, Local.popped, Local.writeShare, Local.writerView, View.waitingIn]
    | _ => rfl
  | _ => rfl

omit [Fintype τ] in
/-- A call of `lock()` without ownership of its own has been popped or waits. -/
theorem popped_add_waiting (q : Queue τ) (l : Local τ) :
    l.popped q + l.waiting q = l.unserved := by
  obtain ⟨m, n, h, pc⟩ := l
  cases pc with
  | lockWait w =>
    cases w with
    | unlockQueued sp | queued sp =>
      by_cases hsp : sp ∈ q.waiters <;> simp [Local.popped, Local.waiting, Local.unserved, hsp]
    | _ => rfl
  | _ => rfl

variable {c : Config τ (Shared τ) (Local τ)}

/-- The exclusive owners are those of the writers' account that are not queued. -/
theorem total_exclusive (hL : Ledger c.shared.writerWaiters fun t => (c.loc t).writerView) :
    total (Local.exclusive c.shared.writerWaiters) c.loc + c.shared.writerWaiters.waiters.length =
      total Local.writeShare c.loc := by
  rw [← hL.card_waiting, Finset.card_filter, total, ← Finset.sum_add_distrib]
  exact Finset.sum_congr rfl fun t _ => exclusive_add_waitingIn _ (c.loc t)

/-- What `m_state` means in every run, with the writers that were popped among the owners. -/
theorem means (hL : Ledger c.shared.writerWaiters fun t => (c.loc t).writerView) (h : Inv c) :
    Means c.shared.state (total (Local.exclusive c.shared.writerWaiters) c.loc)
      (total Local.shared c.loc) (total Local.handing c.loc) := by
  obtain ⟨e, he, hm⟩ := h.owners
  obtain rfl : total (Local.exclusive c.shared.writerWaiters) c.loc = e := by
    have := total_exclusive hL
    omega
  exact hm

/-- **The shared mutex and its owners.**  In every configuration of every run
`m_state` tells exactly who owns the mutex, a writer overlaps no other owner, each
call of `lock()` obtains the mutex once, no store into `m_state` overwrites an
acquisition, and no assertion fails. -/
theorem owned_of_reachable (h : Reachable next (start τ) c) : Owned c := by
  have hL := writerLedger h
  have hI := inv_of_reach h
  have hm := means hL hI
  simp only [Means] at hm
  have hk : kWriterLocked = -1 := rfl
  have ht : kTransition = -2 := rfl
  have hex := le_total (Local.exclusive c.shared.writerWaiters) c.loc
  have hsh := le_total Local.shared c.loc
  have hha := le_total Local.handing c.loc
  have htwo := fun t u => add_le_total (t := t) (u := u)
    (Local.exclusive c.shared.writerWaiters) c.loc
  constructor
  case shared => intro k; omega
  case exclusive => omega
  case transition => omega
  case range => omega
  case alone => 
    intro t u hpos
    have := hex t
    have := hsh u
    have := hha u
    split_ifs with hu
    · subst hu
      omega
    · have := htwo t u (Ne.symm hu)
      omega
  case once =>
    intro t
    have := popped_add_waiting c.shared.writerWaiters (c.loc t)
    have := hI.balanced t
    unfold Local.Balanced at this
    omega
  case apart =>
    intro t sp hwon
    have hst : (c.loc t).writerView.stage.suspendPoint = some sp ∧
        (c.loc t).writerView.stage ≠ .pushed sp := by
      rcases hwon with hpc | hpc | hpc <;>
        simp [Local.writerView, hpc, WaitIf.view, Stage.suspendPoint]
    -- a waiter in the list or in hands is a task that has pushed itself
    have hnot : ¬(sp ∈ c.shared.writerWaiters.waiters ∨
        ∃ u, sp ∈ (c.loc u).writerView.hands) := fun hp => by
      have hpl := hL.placed sp hp
      rw [(hL.own t sp hst.1).1] at hpl
      exact hst.2 hpl
    exact ⟨fun hw => hnot (.inl hw), fun u hu => hnot (.inr ⟨u, hu⟩)⟩
  case store =>
    intro t u hpc hu
    have := hsh u
    have := hha u
    have := hex u
    rcases hpc with hpc | hpc
    · have := htwo t u hu.symm
      have : 0 < (c.loc t).exclusive c.shared.writerWaiters := by
        simp [Local.exclusive, Local.held, hpc]
      omega
    · have := add_le_total Local.handing c.loc hu
      have : (c.loc t).handing = 1 := by simp [Local.handing, hpc]
      omega
  case assertLock =>
    intro t hpc
    have := hex t
    have : 0 < (c.loc t).exclusive c.shared.writerWaiters := by
      rcases hpc with hpc | hpc <;> simp [Local.exclusive, Local.held, hpc]
    omega
  case assertUnlockShared =>
    intro t k hpc
    have := hI.saw t
    simpa [Local.Saw, hpc] using this

/-- Task `0` reads, task `1` queues for writing, task `0` leaves as the last reader
and pops task `1`. -/
def readerHandsOver : List (Fin 2 × Act) :=
  turns [(0, 1, .lockShared), (0, 2, .step false), (1, 1, .lock), (1, 7, .step false),
    (0, 1, .unlockShared), (0, 5, .step false)]

/-- The theorem where the owner is a writer that was popped and has not run. -/
theorem owned_of_reachable_popped :
    ∃ c, (start (Fin 2)).exec next readerHandsOver = some c ∧ c.shared.state = kWriterLocked ∧
      (c.loc 1).popped c.shared.writerWaiters = 1 ∧ Owned c := by
  refine ⟨_, rfl, rfl, rfl, ?_⟩
  have hreach : Reachable next (start (Fin 2)) _ := reachable_of_exec (l := readerHandsOver) rfl
  exact owned_of_reachable hreach

end SharedMutex
end CoopSync
