/-
# The shared mutex is an atomic readers-writer lock

From outside `shared_mutex` cannot be told from a lock that many tasks may share or
one task may have, taken and given back at one instant (`shared_linearizable`).

Most operations take effect at an exchange of their own.  A hand-off does not: where a
releasing task pops a writer from the queue, its own release and the acquisition of that
writer take effect together, one after the other, and the writer may return much later.
Until then, or until the store of `0`, the last reader counts as a reader still, although
`m_state` already says that the mutex is locked for writing (`Local.stand`).
-/

import CoopSync.Linearize
import CoopSync.SharedMutex.Writers
import CoopSync.WaitQueue.Rest

namespace CoopSync
namespace SharedMutex

open WaitQueue

variable {τ : Type*}

/-! ### The readers-writer lock -/

inductive Op
  | lock
  | tryLock
  | unlock
  | lockShared
  | tryLockShared
  | unlockShared
deriving DecidableEq, Repr

/-- Who has a readers-writer lock: one task, or how often each task shares it. -/
@[ext]
structure Holders (τ : Type*) where
  writer : Option τ
  readers : τ → ℕ

/-- Nobody has the lock. -/
def Holders.free : Holders τ := ⟨none, fun _ => 0⟩

variable [DecidableEq τ]

/-- One task has the lock: for writing, or with the only share. -/
inductive Holders.Single : Holders τ → Prop
  | writer (t : τ) : Single ⟨some t, fun _ => 0⟩
  | reader (t : τ) : Single ⟨none, Function.update (fun _ => 0) t 1⟩

/-- What the operations of a readers-writer lock do.  `try_lock` may return `false` wherever
anybody has the lock, `try_lock_shared` where one task has it, which may be a last reader
that hands it over. -/
inductive Serves (t : τ) : Op → Holders τ → Option Bool → Holders τ → Prop
  | lock : Serves t .lock .free none ⟨some t, fun _ => 0⟩
  | tryLock : Serves t .tryLock .free (some true) ⟨some t, fun _ => 0⟩
  | tryLockFails {x : Holders τ} : x ≠ .free → Serves t .tryLock x (some false) x
  | unlock : Serves t .unlock ⟨some t, fun _ => 0⟩ none .free
  | lockShared {r : τ → ℕ} :
      Serves t .lockShared ⟨none, r⟩ none ⟨none, Function.update r t (r t + 1)⟩
  | tryLockShared {r : τ → ℕ} :
      Serves t .tryLockShared ⟨none, r⟩ (some true) ⟨none, Function.update r t (r t + 1)⟩
  | tryLockSharedFails {x : Holders τ} : x.Single → Serves t .tryLockShared x (some false) x
  | unlockShared {r : τ → ℕ} {k : ℕ} (hk : r t = k + 1) :
      Serves t .unlockShared ⟨none, r⟩ none ⟨none, Function.update r t k⟩

/-- A readers-writer lock nobody has.  Functions that return `void` return `none`. -/
def readersWriterLock (τ : Type*) [DecidableEq τ] : Object τ Op (Option Bool) (Holders τ) :=
  ⟨.free, Serves⟩

/-- What is seen of a step: a call, or the return with its value. -/
def observe : Object.Observe τ Act (Shared τ) (Local τ) Op (Option Bool)
  | t, .lock, _, _, _ => [.call t .lock]
  | t, .tryLock, _, _, _ => [.call t .tryLock]
  | t, .unlock, _, _, _ => [.call t .unlock]
  | t, .lockShared, _, _, _ => [.call t .lockShared]
  | t, .tryLockShared, _, _, _ => [.call t .tryLockShared]
  | t, .unlockShared, _, _, _ => [.call t .unlockShared]
  | t, .step _, s, ⟨_, _, _, .tryLock⟩, ⟨_, _, _, .outside⟩ =>
    [.ret t (some (SharedMutex.tryLock s.state).1)]
  -- `try_lock_shared` returns whether it has taken a share
  | t, .step _, _, ⟨_, n, _, .tryLockShared _⟩, ⟨_, n', _, .outside⟩ =>
    [.ret t (some (n' ≠ n))]
  | t, .step _, _, _, ⟨_, _, _, .outside⟩ => [.ret t none]
  | _, _, _, _, _ => []

/-! ### Where a task stands on it -/

omit [DecidableEq τ] in
/-- `try_lock_shared` has read that the mutex is closed. -/
def TryLockShared.lost : TryLockShared → Bool
  | .load => false
  | .loop state => state < 0

omit [DecidableEq τ] in
/-- What a step of `try_lock_shared` does: it reads `m_state`, takes a share, or returns
`false` for having read that the mutex is closed. -/
theorem TryLockShared.step_outcomes (spurious : Bool) (state : ℤ) (a : TryLockShared) :
    a.lost = false ∧ (spurious = false → a ≠ .loop state) ∧
      a.step spurious state = (state, .inl (.loop state)) ∨
    a.lost = false ∧ a = .loop state ∧ 0 ≤ state ∧ a.step spurious state = (state + 1, .inr true) ∨
    a.lost = true ∧ a.step spurious state = (state, .inr false) := by
  cases a with
  | load => exact .inl ⟨rfl, by simp, rfl⟩
  | loop expected =>
    by_cases hopen : 0 ≤ expected
    · have hlost : (TryLockShared.loop expected).lost = false := by
        simpa [TryLockShared.lost] using hopen
      by_cases heq : state = expected ∧ spurious = false
      · obtain ⟨rfl, hsp⟩ := heq
        exact .inr (.inl ⟨hlost, rfl, hopen, by simp [TryLockShared.step, hopen, hsp]⟩)
      · refine .inl ⟨hlost, fun hsp hc => heq ⟨(TryLockShared.loop.inj hc).symm, hsp⟩, ?_⟩
        simp only [TryLockShared.step, hopen, heq, if_true, if_false]
    · exact .inr (.inr ⟨by simpa [TryLockShared.lost] using hopen, by
        simp [TryLockShared.step, hopen]⟩)

omit [DecidableEq τ] in
/-- One for a releasing task that has not given the mutex to a writer and not stored
`0`. -/
def Handoff.held : Handoff τ → ℕ
  | .resumeOne r => resumeHeld r
  | .store => 1
  | .resumeAll _ => 0

/-- One for a last reader between its second store and the end of its hand-off;
`sharing` tells its hand-off from a writer's. -/
def Local.last (sharing : Bool) (l : Local τ) : ℕ :=
  match l.pc with
  | .handoff f => if sharing then f.held else 0
  | _ => 0

/-- The release a hand-off belongs to. -/
def released (sharing : Bool) : Op := if sharing then .unlockShared else .unlock

/-- Where a task stands on the lock.  A writer that was popped from the queue has its
lock already. -/
def Local.phase (q : Queue τ) (sharing : Bool) (l : Local τ) : Object.Phase Op (Option Bool) :=
  match l.pc with
  | .outside => .idle
  | .tryLock => .called .tryLock
  | .lockTry => .called .lock
  | .lockWait (.unlockQueued sp) | .lockWait (.queued sp) =>
    if sp ∈ q.waiters then .called .lock else .done none
  | .lockWait w => if waitHeld w = 1 then .done none else .called .lock
  | .lockAssert => .done none
  | .unlockAssert => .called .unlock
  | .tryLockShared a => if a.lost then .done (some false) else .called .tryLockShared
  | .lockSharedTry _ | .lockSharedWait _ => .called .lockShared
  | .unlockSharedLoad | .unlockSharedLoop _ | .unlockSharedStore => .called .unlockShared
  | .handoff f => if f.held = 1 then .called (released sharing) else .done none

/-- A task on the lock: where it stands, whether it has the lock as its writer, and how
often it shares it. -/
def Local.stand (q : Queue τ) (sharing : Bool) (l : Local τ) :
    Object.Phase Op (Option Bool) × ℕ × ℕ :=
  (l.phase q sharing, l.exclusive q - l.last sharing, l.shared + l.handing + l.last sharing)

@[simp] theorem stand_outside (q : Queue τ) (sharing : Bool) (m n : ℕ) (h : History) :
    (⟨m, n, h, .outside⟩ : Local τ).stand q sharing = (.idle, m, n) := rfl

/-- The lock behind a configuration. -/
structure Implements (sharing : τ → Bool) (c : Config τ (Shared τ) (Local τ))
    (d : Config τ (Holders τ) (Object.Phase Op (Option Bool))) : Prop where
  phase (t : τ) : d.loc t = ((c.loc t).stand c.shared.writerWaiters (sharing t)).1
  writer (t : τ) :
    d.shared.writer = some t ↔ 0 < ((c.loc t).stand c.shared.writerWaiters (sharing t)).2.1
  readers (t : τ) :
    d.shared.readers t = ((c.loc t).stand c.shared.writerWaiters (sharing t)).2.2

/-- A task stands on the lock as before unless its own place in the queue changes. -/
theorem stand_congr {q q' : Queue τ} {l : Local τ} (sharing : Bool)
    (h : ∀ sp, l.writerView.stage = .pushed sp → (sp ∈ q'.waiters ↔ sp ∈ q.waiters)) :
    l.stand q' sharing = l.stand q sharing := by
  obtain ⟨m, n, h', pc⟩ := l
  cases pc with
  | lockWait w =>
    cases w with
    | unlockQueued sp | queued sp =>
      have := h sp rfl
      simp [Local.stand, Local.phase, Local.exclusive, Local.popped, this]
    | _ => rfl
  | _ => rfl

/-- A step that takes no waiter off the list leaves the others in their places. -/
theorem waiters_iff [Fintype τ] {q q' : Queue τ} {v : τ → View τ} {t u : τ} {v' : View τ}
    {sp : SuspendPoint τ} (e : Effect t q (v t) q' v') (hL : Ledger q v)
    (hh : v'.hands.length ≤ (v t).hands.length) (hu : u ≠ t) (hsp : (v u).stage = .pushed sp) :
    sp ∈ q'.waiters ↔ sp ∈ q.waiters := by
  have htask := (hL.own u sp (by rw [hsp]; rfl)).1
  generalize hv : v t = v₀ at e hh
  cases e with
  | @push _ sp₁ =>
    have hown := (hL.own t sp₁ (by rw [hv]; rfl)).1
    have hne : sp ≠ sp₁ := fun heq => hu (htask ▸ heq ▸ hown)
    simp [hne]
  | take k =>
    have hnil : q.waiters.take k = [] := by
      simp only [List.length_append] at hh
      exact List.length_eq_zero_iff.1 (by omega)
    rw [show q.waiters.drop k = q.waiters by
      simpa [hnil] using List.take_append_drop k q.waiters]
  | _ => exact Iff.rfl

namespace Implements

variable {sharing : τ → Bool} {c : Config τ (Shared τ) (Local τ)}
  {d : Config τ (Holders τ) (Object.Phase Op (Option Bool))} {t : τ} {s : Shared τ} {l : Local τ}
  {b : Bool}

/-- A step the lock does not see. -/
theorem quiet (h : Implements sharing c d)
    (hothers : ∀ u, u ≠ t → (c.loc u).stand s.writerWaiters (sharing u) =
      (c.loc u).stand c.shared.writerWaiters (sharing u))
    (hst : l.stand s.writerWaiters b = (c.loc t).stand c.shared.writerWaiters (sharing t)) :
    Implements (Function.update sharing t b) ⟨s, Function.update c.loc t l⟩ d := by
  have hall (u : τ) : (Function.update c.loc t l u).stand s.writerWaiters
      (Function.update sharing t b u) = (c.loc u).stand c.shared.writerWaiters (sharing u) := by
    rcases eq_or_ne u t with rfl | hne
    · simpa using hst
    · simpa [Function.update_of_ne hne] using hothers u hne
  exact ⟨fun u => by rw [hall]; exact h.phase u, fun u => by rw [hall]; exact h.writer u,
    fun u => by rw [hall]; exact h.readers u⟩

/-- Where the tasks stand after a step in which only its own task goes on. -/
theorem phases (h : Implements sharing c d)
    (hothers : ∀ u, u ≠ t → (c.loc u).stand s.writerWaiters (sharing u) =
      (c.loc u).stand c.shared.writerWaiters (sharing u)) (u : τ) :
    Function.update d.loc t (l.stand s.writerWaiters b).1 u =
      ((Function.update c.loc t l u).stand s.writerWaiters (Function.update sharing t b u)).1 := by
  rcases eq_or_ne u t with rfl | hne
  · simp
  · simpa [Function.update_of_ne hne, hothers u hne] using h.phase u

/-- A step in which its task goes on, and nobody gets or loses the lock. -/
theorem seen (h : Implements sharing c d)
    (hothers : ∀ u, u ≠ t → (c.loc u).stand s.writerWaiters (sharing u) =
      (c.loc u).stand c.shared.writerWaiters (sharing u))
    (hst : (l.stand s.writerWaiters b).2 =
      ((c.loc t).stand c.shared.writerWaiters (sharing t)).2) :
    Implements (Function.update sharing t b) ⟨s, Function.update c.loc t l⟩
      ⟨d.shared, Function.update d.loc t (l.stand s.writerWaiters b).1⟩ := by
  have hall (u : τ) : ((Function.update c.loc t l u).stand s.writerWaiters
      (Function.update sharing t b u)).2 =
        ((c.loc u).stand c.shared.writerWaiters (sharing u)).2 := by
    rcases eq_or_ne u t with rfl | hne
    · simpa using hst
    · simpa [Function.update_of_ne hne] using congrArg Prod.snd (hothers u hne)
  exact ⟨h.phases hothers, fun u => by rw [hall]; exact h.writer u,
    fun u => by rw [hall]; exact h.readers u⟩

end Implements

/-! ### What `m_state` says of the lock -/

/-- A last reader in its hand-off is an exclusive owner of the mutex. -/
theorem last_le (sharing : Bool) (q : Queue τ) (l : Local τ) : l.last sharing ≤ l.exclusive q := by
  obtain ⟨m, n, h, pc⟩ := l
  cases pc with
  | handoff f =>
    have : f.held ≤ (⟨m, n, h, .handoff f⟩ : Local τ).held := by
      cases f <;> simp [Handoff.held, Local.held]
    cases sharing
    · exact Nat.zero_le _
    · exact Nat.le_add_right_of_le this
  | _ => exact Nat.zero_le _

section Means

variable [Fintype τ] {sharing : τ → Bool} {c : Config τ (Shared τ) (Local τ)}
  {d : Config τ (Holders τ) (Object.Phase Op (Option Bool))}

/-- Where nobody owns the mutex nobody has the lock. -/
theorem stand_of_free (sharing : τ → Bool)
    (hm : Means c.shared.state (total (Local.exclusive c.shared.writerWaiters) c.loc)
      (total Local.shared c.loc) (total Local.handing c.loc)) (hs : c.shared.state = 0) (u : τ) :
    ((c.loc u).stand c.shared.writerWaiters (sharing u)).2 = (0, 0) := by
  have hex := le_total (Local.exclusive c.shared.writerWaiters) c.loc u
  have hsh := le_total Local.shared c.loc u
  have hha := le_total Local.handing c.loc u
  have hla := last_le (sharing u) c.shared.writerWaiters (c.loc u)
  simp only [Means, kWriterLocked, kTransition] at hm
  refine Prod.ext ?_ ?_
  · show (c.loc u).exclusive c.shared.writerWaiters - (c.loc u).last (sharing u) = 0
    omega
  · show (c.loc u).shared + (c.loc u).handing + (c.loc u).last (sharing u) = 0
    omega

/-- An exclusive owner has the lock alone: as its writer, or as its last reader. -/
theorem stand_of_exclusive (sharing : τ → Bool)
    (hm : Means c.shared.state (total (Local.exclusive c.shared.writerWaiters) c.loc)
      (total Local.shared c.loc) (total Local.handing c.loc)) {t : τ}
    (ht : 0 < (c.loc t).exclusive c.shared.writerWaiters) (u : τ) :
    ((c.loc u).stand c.shared.writerWaiters (sharing u)).2 =
      if u = t then (1 - (c.loc t).last (sharing t), (c.loc t).last (sharing t)) else (0, 0) := by
  have hex := le_total (Local.exclusive c.shared.writerWaiters) c.loc t
  have hsh := le_total Local.shared c.loc u
  have hha := le_total Local.handing c.loc u
  have hla := last_le (sharing u) c.shared.writerWaiters (c.loc u)
  simp only [Means, kWriterLocked, kTransition] at hm
  split_ifs with hu
  · subst hu
    refine Prod.ext ?_ ?_
    · show (c.loc u).exclusive c.shared.writerWaiters - (c.loc u).last (sharing u) = _
      simp only
      omega
    · show (c.loc u).shared + (c.loc u).handing + (c.loc u).last (sharing u) = _
      simp only
      omega
  · have htwo := add_le_total (Local.exclusive c.shared.writerWaiters) c.loc (Ne.symm hu)
    refine Prod.ext ?_ ?_
    · show (c.loc u).exclusive c.shared.writerWaiters - (c.loc u).last (sharing u) = 0
      omega
    · show (c.loc u).shared + (c.loc u).handing + (c.loc u).last (sharing u) = 0
      omega

namespace Implements

omit [Fintype τ] in
/-- The places of the tasks determine who has the lock. -/
theorem shared_eq (h : Implements sharing c d) {x : Holders τ}
    (hw : ∀ u, x.writer = some u ↔
      0 < ((c.loc u).stand c.shared.writerWaiters (sharing u)).2.1)
    (hr : ∀ u, x.readers u = ((c.loc u).stand c.shared.writerWaiters (sharing u)).2.2) :
    d.shared = x :=
  Holders.ext (Option.ext fun u => (h.writer u).trans (hw u).symm)
    (funext fun u => (h.readers u).trans (hr u).symm)

/-- Nobody has the lock of a free mutex. -/
theorem free (h : Implements sharing c d)
    (hm : Means c.shared.state (total (Local.exclusive c.shared.writerWaiters) c.loc)
      (total Local.shared c.loc) (total Local.handing c.loc)) (hs : c.shared.state = 0) :
    d.shared = .free := by
  have hfree := stand_of_free sharing hm hs
  refine h.shared_eq (fun u => ?_) fun u => ?_
  · rw [hfree]
    simp [Holders.free]
  · rw [hfree]
    rfl

/-- Somebody has the lock of a mutex that is not free. -/
theorem ne_free (h : Implements sharing c d)
    (hm : Means c.shared.state (total (Local.exclusive c.shared.writerWaiters) c.loc)
      (total Local.shared c.loc) (total Local.handing c.loc)) (hs : c.shared.state ≠ 0) :
    d.shared ≠ .free := by
  intro hfree
  have hw (u : τ) : ((c.loc u).stand c.shared.writerWaiters (sharing u)).2.1 = 0 := by
    have := h.writer u
    rw [hfree] at this
    simpa [Holders.free] using this
  have hr (u : τ) : (c.loc u).shared + (c.loc u).handing + (c.loc u).last (sharing u) = 0 := by
    have := h.readers u
    rw [hfree] at this
    exact this.symm
  rcases hm with ⟨hst, he, hh⟩ | ⟨-, he, -⟩ | ⟨-, -, -, hh⟩
  · have : total Local.shared c.loc = 0 := total_eq_zero.2 fun u => by have := hr u; omega
    omega
  · obtain ⟨u, hu⟩ := total_pos.1 (he ▸ Nat.one_pos)
    have hw : (c.loc u).exclusive c.shared.writerWaiters - (c.loc u).last (sharing u) = 0 := hw u
    have := hr u
    omega
  · obtain ⟨u, hu⟩ := total_pos.1 (hh ▸ Nat.one_pos)
    have := hr u
    omega

/-- A mutex that readers may enter has no writer. -/
theorem writer_eq_none (h : Implements sharing c d)
    (hm : Means c.shared.state (total (Local.exclusive c.shared.writerWaiters) c.loc)
      (total Local.shared c.loc) (total Local.handing c.loc)) (hs : 0 ≤ c.shared.state) :
    d.shared.writer = none := by
  refine Option.eq_none_iff_forall_ne_some.2 fun u hu => ?_
  have hpos : 0 < (c.loc u).exclusive c.shared.writerWaiters - (c.loc u).last (sharing u) :=
    (h.writer u).1 hu
  have := le_total (Local.exclusive c.shared.writerWaiters) c.loc u
  simp only [Means, kWriterLocked, kTransition] at hm
  omega

/-- An exclusive owner has the lock, alone. -/
theorem held (h : Implements sharing c d)
    (hm : Means c.shared.state (total (Local.exclusive c.shared.writerWaiters) c.loc)
      (total Local.shared c.loc) (total Local.handing c.loc)) {t : τ}
    (ht : 0 < (c.loc t).exclusive c.shared.writerWaiters) :
    d.shared = if (c.loc t).last (sharing t) = 0 then ⟨some t, fun _ => 0⟩
      else ⟨none, Function.update (fun _ => 0) t 1⟩ := by
  have halone := stand_of_exclusive sharing hm ht
  have hex := le_total (Local.exclusive c.shared.writerWaiters) c.loc t
  have hla := last_le (sharing t) c.shared.writerWaiters (c.loc t)
  simp only [Means, kWriterLocked, kTransition] at hm
  rcases show (c.loc t).last (sharing t) = 0 ∨ (c.loc t).last (sharing t) = 1 by omega with h0 | h1
  · rw [if_pos h0]
    refine h.shared_eq (fun u => ?_) fun u => ?_
    · rcases eq_or_ne u t with rfl | hne
      · simp [halone, h0]
      · simp [halone, hne, hne.symm]
    · rcases eq_or_ne u t with rfl | hne
      · simp [halone, h0]
      · simp [halone, hne]
  · rw [if_neg (by omega)]
    refine h.shared_eq (fun u => ?_) fun u => ?_
    · rcases eq_or_ne u t with rfl | hne
      · simp [halone, h1]
      · simp [halone, hne]
    · rcases eq_or_ne u t with rfl | hne
      · simp [halone, h1]
      · simp [halone, hne]

/-- One task has the lock of a mutex that is closed to readers. -/
theorem single (h : Implements sharing c d)
    (hm : Means c.shared.state (total (Local.exclusive c.shared.writerWaiters) c.loc)
      (total Local.shared c.loc) (total Local.handing c.loc)) (hs : c.shared.state < 0) :
    d.shared.Single := by
  rcases hm with ⟨hst, -, -⟩ | hm | ⟨hst, he, hsh, hh⟩
  · omega
  · obtain ⟨t, ht⟩ := total_pos.1 (hm.2.1 ▸ Nat.one_pos)
    rw [h.held (.inr (.inl hm)) ht]
    split_ifs
    · exact .writer t
    · exact .reader t
  · -- the last reader between its exchange and its first store
    obtain ⟨t, ht⟩ := total_pos.1 (hh ▸ Nat.one_pos)
    have hnone (u : τ) : (c.loc u).exclusive c.shared.writerWaiters = 0 := total_eq_zero.1 he u
    have hlast (u : τ) : (c.loc u).last (sharing u) = 0 :=
      Nat.le_zero.1 ((last_le ..).trans_eq (hnone u))
    have hzero (u : τ) : (c.loc u).shared = 0 := total_eq_zero.1 hsh u
    have hle := le_total Local.handing c.loc t
    rw [h.shared_eq (x := ⟨none, Function.update (fun _ => 0) t 1⟩)]
    · exact .reader t
    · intro u
      simp [Local.stand, hnone u]
    · intro u
      rcases eq_or_ne u t with rfl | hne
      · have : (c.loc u).handing = 1 := by omega
        simp [Local.stand, hzero, hlast, this]
      · have := add_le_total Local.handing c.loc hne
        have : (c.loc u).handing = 0 := by omega
        simp [Local.stand, hzero, hlast, this, Function.update_of_ne hne]

/-- A task in a hand-off has called its release, which the lock allows. -/
theorem release (h : Implements sharing c d)
    (hm : Means c.shared.state (total (Local.exclusive c.shared.writerWaiters) c.loc)
      (total Local.shared c.loc) (total Local.handing c.loc)) {t : τ} {f : Handoff τ}
    (hpc : (c.loc t).pc = .handoff f) (hf : f.held = 1) :
    d.loc t = .called (released (sharing t)) ∧
      Serves t (released (sharing t)) d.shared none .free := by
  constructor
  · rw [h.phase t]
    simp [Local.stand, Local.phase, hpc, hf]
  · have hex : 0 < (c.loc t).exclusive c.shared.writerWaiters := by
      cases f <;> simp_all [Local.exclusive, Local.held, Handoff.held]
    rw [h.held hm hex]
    cases hsh : sharing t
    · simpa [Local.last, hpc, released] using Serves.unlock
    · have := Serves.unlockShared (t := t) (r := Function.update (fun _ => 0) t 1) (k := 0)
        (by simp)
      simpa [Local.last, hpc, released, hf, Holders.free] using this

/-- A configuration in which nobody owns the mutex. -/
theorem of_free {p : τ → Object.Phase Op (Option Bool)}
    (hm : Means c.shared.state (total (Local.exclusive c.shared.writerWaiters) c.loc)
      (total Local.shared c.loc) (total Local.handing c.loc)) (hs : c.shared.state = 0)
    (hp : ∀ u, p u = ((c.loc u).stand c.shared.writerWaiters (sharing u)).1) :
    Implements sharing c ⟨.free, p⟩ := by
  have hfree := stand_of_free sharing hm hs
  refine ⟨hp, fun u => ?_, fun u => ?_⟩
  · simp [hfree, Holders.free]
  · simp [hfree, Holders.free]

/-- A configuration with an exclusive owner that is no last reader. -/
theorem of_exclusive {p : τ → Object.Phase Op (Option Bool)}
    (hm : Means c.shared.state (total (Local.exclusive c.shared.writerWaiters) c.loc)
      (total Local.shared c.loc) (total Local.handing c.loc)) {t : τ}
    (ht : 0 < (c.loc t).exclusive c.shared.writerWaiters) (hl : (c.loc t).last (sharing t) = 0)
    (hp : ∀ u, p u = ((c.loc u).stand c.shared.writerWaiters (sharing u)).1) :
    Implements sharing c ⟨⟨some t, fun _ => 0⟩, p⟩ := by
  have halone := stand_of_exclusive sharing hm ht
  refine ⟨hp, fun u => ?_, fun u => ?_⟩
  · rcases eq_or_ne u t with rfl | hne
    · simp [halone, hl]
    · simp [halone, hne, hne.symm]
  · rcases eq_or_ne u t with rfl | hne
    · simp [halone, hl]
    · simp [halone, hne]

/-- A step after which readers may enter, and in which only the shares of its task
change. -/
theorem share {t : τ} {s : Shared τ} {l : Local τ} {b : Bool} (h : Implements sharing c d)
    (hothers : ∀ u, u ≠ t → (c.loc u).stand s.writerWaiters (sharing u) =
      (c.loc u).stand c.shared.writerWaiters (sharing u))
    (hm : Means s.state (total (Local.exclusive s.writerWaiters) (Function.update c.loc t l))
      (total Local.shared (Function.update c.loc t l))
      (total Local.handing (Function.update c.loc t l))) (hs : 0 ≤ s.state) :
    Implements (Function.update sharing t b) ⟨s, Function.update c.loc t l⟩
      ⟨⟨none, Function.update d.shared.readers t (l.stand s.writerWaiters b).2.2⟩,
        Function.update d.loc t (l.stand s.writerWaiters b).1⟩ := by
  refine ⟨h.phases hothers, fun u => iff_of_false (by simp) (Nat.not_lt.2 ?_), fun u => ?_⟩
  · have := le_total (Local.exclusive s.writerWaiters) (Function.update c.loc t l) u
    simp only [Means, kWriterLocked, kTransition] at hm
    show (Function.update c.loc t l u).exclusive s.writerWaiters - _ ≤ 0
    omega
  · rcases eq_or_ne u t with rfl | hne
    · simp
    · simpa [Function.update_of_ne hne, hothers u hne] using h.readers u

end Implements

end Means

/-! ### The steps on the lock -/

/-- A writer that waits stands on the lock as before. -/
theorem stand_wait {t : τ} {q q' : Queue τ} {w : WaitIf τ} {r : Option (WaitIf τ)} {m n : ℕ}
    {h h' : History} {b b' : Bool} (hw : w.step t true q = some (q', r))
    (hres : ∀ sp, sp ∈ q.resumed → sp ∉ q.waiters) :
    (⟨m, n, h', r.elim .lockAssert .lockWait⟩ : Local τ).stand q' b' =
      (⟨m, n, h, .lockWait w⟩ : Local τ).stand q b := by
  cases w with
  | lock sp =>
    obtain ⟨q₁, hq, he⟩ := Option.map_eq_some_iff.1 hw
    obtain ⟨rfl, rfl⟩ := by simpa using he
    rfl
  | queued sp =>
    simp only [WaitIf.step] at hw
    split at hw
    · rename_i hr
      obtain ⟨rfl, rfl⟩ := by simpa using hw
      simp [Local.stand, Local.phase, Local.exclusive, Local.popped, Local.held, waitHeld,
        Local.shared, Local.handing, Local.last, hres sp hr]
    · simp at hw
  | selfResumed sp =>
    simp only [WaitIf.step] at hw
    split at hw
    · obtain ⟨rfl, rfl⟩ := by simpa using hw
      rfl
    · simp at hw
  | pushBack sp =>
    obtain ⟨rfl, rfl⟩ := by simpa [WaitIf.step] using hw
    simp [Local.stand, Local.phase, Local.exclusive, Local.popped, Local.held, waitHeld,
      Local.shared, Local.handing, Local.last]
  | unlockQueued sp | unlockResume sp | resume sp | fastPath | suspend | recheck sp =>
    obtain ⟨rfl, rfl⟩ := by simpa [WaitIf.step] using hw
    rfl

omit [DecidableEq τ] in
/-- A writer that was pushed and has not gone on. -/
theorem writer_of_pushed {l : Local τ} {sp : SuspendPoint τ} (h : l.writerView.stage = .pushed sp) :
    l.pc = .lockWait (.unlockQueued sp) ∨ l.pc = .lockWait (.queued sp) := by
  obtain ⟨m, n, h', pc⟩ := l
  cases pc with
  | lockWait w => cases w <;> simp_all [Local.writerView, WaitIf.view]
  | handoff f => cases f <;> simp [Local.writerView, View.idle] at h
  | _ => simp [Local.writerView, View.idle] at h

variable [Fintype τ]

/-- A hand-off: the release of its task and the acquisition of the writer it pops take
effect, one after the other. -/
theorem implements_handover {sharing : τ → Bool} {c : Config τ (Shared τ) (Local τ)}
    {d : Config τ (Holders τ) (Object.Phase Op (Option Bool))} {t : τ} {s : Shared τ} {l : Local τ}
    {sp : SuspendPoint τ} {rest : List (SuspendPoint τ)}
    (hL : Ledger c.shared.writerWaiters fun t => (c.loc t).writerView)
    (hm : Means c.shared.state (total (Local.exclusive c.shared.writerWaiters) c.loc)
      (total Local.shared c.loc) (total Local.handing c.loc))
    (h : Implements sharing c d) (hpc : (c.loc t).pc = .handoff (.resumeOne .popFront))
    (hl : l.pc = .handoff (.resumeOne (.unlock (some sp))))
    (hw : c.shared.writerWaiters.waiters = sp :: rest) (hs : s.writerWaiters.waiters = rest)
    (hm' : Means s.state (total (Local.exclusive s.writerWaiters) (Function.update c.loc t l))
      (total Local.shared (Function.update c.loc t l))
      (total Local.handing (Function.update c.loc t l))) :
    ∃ ops d', (readersWriterLock τ).Moves d [] ops d' ∧
      Implements sharing ⟨s, Function.update c.loc t l⟩ d' := by
  set u := sp.task with hu
  have hstage : (c.loc u).writerView.stage = .pushed sp := hL.placed sp (.inl (by simp [hw]))
  have hne : u ≠ t := by
    rintro heq
    rw [heq] at hstage
    simp [Local.writerView, hpc] at hstage
  have hmem : sp ∈ c.shared.writerWaiters.waiters := by simp [hw]
  have hnodup := hL.waiters_nodup
  rw [hw, List.nodup_cons] at hnodup
  obtain ⟨hnot, -⟩ := hnodup
  -- the two operations, one after the other
  obtain ⟨hpt, hrelease⟩ := h.release hm hpc rfl
  have hpu : d.loc u = .called .lock := by
    rw [h.phase u]
    rcases writer_of_pushed hstage with hpc' | hpc' <;>
      simp [Local.stand, Local.phase, hpc', hmem]
  have hfirst : (readersWriterLock τ).Moves d [] _ ⟨.free, Function.update d.loc t (.done none)⟩ :=
    .effect .refl hpt hrelease
  have hlock : Serves u .lock .free none ⟨some u, fun _ => 0⟩ := .lock
  refine ⟨_, _, hfirst.effect ((Function.update_of_ne hne ..).trans hpu) hlock, ?_⟩
  have hself : Function.update c.loc t l u = c.loc u := Function.update_of_ne hne ..
  refine .of_exclusive hm' (t := u) ?_ ?_ fun x => ?_
  · simp only [hself]
    rcases writer_of_pushed hstage with hpc' | hpc' <;>
      simp [Local.exclusive, Local.popped, hpc', hs, hnot]
  · simp only [hself]
    rcases writer_of_pushed hstage with hpc' | hpc' <;> simp [Local.last, hpc']
  · rcases eq_or_ne x u with rfl | hxu
    · simp only [hself, Function.update_self]
      rcases writer_of_pushed hstage with hpc' | hpc' <;>
        simp [Local.stand, Local.phase, hpc', hs, hnot]
    rw [Function.update_of_ne hxu]
    rcases eq_or_ne x t with rfl | hxt
    · simp [hl, Local.stand, Local.phase, Handoff.held, resumeHeld]
    · simp only [Function.update_of_ne hxt]
      rw [h.phase x, stand_congr]
      intro sp' hsp'
      have hne' : sp' ≠ sp := fun heq => hxu (by
        rw [hu, ← heq]
        exact ((hL.own x sp' (by rw [hsp']; rfl)).1).symm)
      simp [hw, hs, hne']

/-- A step is matched on the lock. -/
def Matched (c : Config τ (Shared τ) (Local τ))
    (d : Config τ (Holders τ) (Object.Phase Op (Option Bool))) (t : τ) (a : Act) (l₀ : Local τ)
    (s : Shared τ) (l : Local τ) : Prop :=
  ∃ sharing' ops d', (readersWriterLock τ).Moves d (observe t a c.shared l₀ l) ops d' ∧
    Implements sharing' ⟨s, Function.update c.loc t l⟩ d'

/-- A step from `l₀` to `l`, with the lock before it and what `m_state` means before and
after. -/
structure AtStep (sharing : τ → Bool) (c : Config τ (Shared τ) (Local τ))
    (d : Config τ (Holders τ) (Object.Phase Op (Option Bool))) (t : τ) (l₀ : Local τ)
    (s : Shared τ) (l : Local τ) : Prop where
  place : c.loc t = l₀
  step : Step t c.shared l₀ s l
  ledger : Ledger c.shared.writerWaiters fun t => (c.loc t).writerView
  before : Means c.shared.state (total (Local.exclusive c.shared.writerWaiters) c.loc)
    (total Local.shared c.loc) (total Local.handing c.loc)
  after : Means s.state (total (Local.exclusive s.writerWaiters) (Function.update c.loc t l))
    (total Local.shared (Function.update c.loc t l))
    (total Local.handing (Function.update c.loc t l))
  lock : Implements sharing c d

namespace AtStep

variable {sharing : τ → Bool} {c : Config τ (Shared τ) (Local τ)}
  {d : Config τ (Holders τ) (Object.Phase Op (Option Bool))} {t : τ} {a : Act} {l₀ l : Local τ}
  {s : Shared τ} {m n : ℕ} {h' : History} {spurious : Bool}

/-- Where the task stands on the lock. -/
theorem phase (k : AtStep sharing c d t l₀ s l) :
    d.loc t = (l₀.stand c.shared.writerWaiters (sharing t)).1 :=
  k.place ▸ k.lock.phase t

/-- How often the task shares the lock. -/
theorem readers (k : AtStep sharing c d t l₀ s l) :
    d.shared.readers t = (l₀.stand c.shared.writerWaiters (sharing t)).2.2 :=
  k.place ▸ k.lock.readers t

/-- Where readers may enter, the lock has none but them. -/
theorem shared_eq (k : AtStep sharing c d t l₀ s l) (hs : 0 ≤ c.shared.state) :
    d.shared = ⟨none, d.shared.readers⟩ :=
  Holders.ext (k.lock.writer_eq_none k.before hs) rfl

/-- A step that takes nobody off the list moves its own task only. -/
theorem others (k : AtStep sharing c d t l₀ s l)
    (hh : l.writerView.hands.length ≤ l₀.writerView.hands.length) (u : τ) (hu : u ≠ t) :
    (c.loc u).stand s.writerWaiters (sharing u) =
      (c.loc u).stand c.shared.writerWaiters (sharing u) := by
  have heffect := k.step.writerEffect
  rw [← k.place] at heffect hh
  exact stand_congr _ fun sp hsp => waiters_iff heffect k.ledger hh hu hsp

/-- A step the lock does not see. -/
theorem quiet (k : AtStep sharing c d t l₀ s l) (b : Bool)
    (hobs : observe t a c.shared l₀ l = [])
    (hh : l.writerView.hands.length ≤ l₀.writerView.hands.length)
    (hst : l.stand s.writerWaiters b = l₀.stand c.shared.writerWaiters (sharing t)) :
    Matched c d t a l₀ s l :=
  ⟨_, [], d, hobs ▸ .refl, k.lock.quiet (k.others hh) (k.place ▸ hst)⟩

/-- A step in which its task goes on, and nobody gets or loses the lock. -/
theorem seen (k : AtStep sharing c d t l₀ s l) (b : Bool)
    (hh : l.writerView.hands.length ≤ l₀.writerView.hands.length)
    (hst : (l.stand s.writerWaiters b).2 =
      (l₀.stand c.shared.writerWaiters (sharing t)).2) :
    Implements (Function.update sharing t b) ⟨s, Function.update c.loc t l⟩
      ⟨d.shared, Function.update d.loc t (l.stand s.writerWaiters b).1⟩ :=
  k.lock.seen (k.others hh) (k.place ▸ hst)

/-- A step after which its task is the writer. -/
theorem taken (k : AtStep sharing c d t l₀ s l)
    (hh : l.writerView.hands.length ≤ l₀.writerView.hands.length)
    (hx : 0 < l.exclusive s.writerWaiters) (hl : l.last false = 0) :
    Implements (Function.update sharing t false) ⟨s, Function.update c.loc t l⟩
      ⟨⟨some t, fun _ => 0⟩, Function.update d.loc t (l.stand s.writerWaiters false).1⟩ :=
  .of_exclusive k.after (t := t) (by simpa using hx) (by simpa using hl)
    (k.lock.phases (k.others hh))

/-- A step in which only the shares of its task change. -/
theorem shared (k : AtStep sharing c d t l₀ s l) (b : Bool)
    (hh : l.writerView.hands.length ≤ l₀.writerView.hands.length) (hs : 0 ≤ s.state) :
    Implements (Function.update sharing t b) ⟨s, Function.update c.loc t l⟩
      ⟨⟨none, Function.update d.shared.readers t (l.stand s.writerWaiters b).2.2⟩,
        Function.update d.loc t (l.stand s.writerWaiters b).1⟩ :=
  k.lock.share (k.others hh) k.after hs

/-- A call. -/
theorem call (k : AtStep sharing c d t l₀ s l) (ha : ∀ b, a ≠ .step b)
    (hn : next t a c.shared l₀ = some (s, l)) : Matched c d t a l₀ s l := by
  have hp := k.phase
  obtain ⟨m, n, h', pc⟩ := l₀
  cases a with
  | step b => exact absurd rfl (ha b)
  | lock | tryLock | lockShared | tryLockShared =>
    cases pc <;> simp only [next, reduceCtorEq, Option.some.injEq, Prod.mk.injEq] at hn
    obtain ⟨rfl, rfl⟩ := hn
    exact ⟨_, _, _, .call _ .refl hp, k.seen false le_rfl rfl⟩
  | unlock =>
    cases pc <;> cases m <;> simp only [next, reduceCtorEq, Option.some.injEq, Prod.mk.injEq] at hn
    obtain ⟨rfl, rfl⟩ := hn
    exact ⟨_, _, _, .call _ .refl hp, k.seen false le_rfl rfl⟩
  | unlockShared =>
    cases pc <;> cases n <;> simp only [next, reduceCtorEq, Option.some.injEq, Prod.mk.injEq] at hn
    obtain ⟨rfl, rfl⟩ := hn
    exact ⟨_, _, _, .call _ .refl hp, k.seen false le_rfl rfl⟩

/-- `try_lock()` takes effect at its exchange. -/
theorem tryLock (k : AtStep sharing c d t ⟨m, n, h', .tryLock⟩ s l) :
    Matched c d t (.step spurious) ⟨m, n, h', .tryLock⟩ s l := by
  have hp := k.phase
  have hstep := k.step
  cases hstep with
  | tryLockFails hs =>
    have hv : (SharedMutex.tryLock c.shared.state).1 = false := by simp [SharedMutex.tryLock, hs]
    refine ⟨_, [(t, .tryLock, some false)], _, ?_, k.seen false le_rfl rfl⟩
    simpa [observe, hv] using Object.Moves.serve (O := readersWriterLock τ) hp
      (Serves.tryLockFails (k.lock.ne_free k.before hs))
  | tryLockWins hs =>
    have hv : (SharedMutex.tryLock c.shared.state).1 = true := by simp [SharedMutex.tryLock, hs]
    refine ⟨_, [(t, .tryLock, some true)], _, ?_, k.taken le_rfl (Nat.succ_pos _) rfl⟩
    simpa [observe, hv] using Object.Moves.serve (O := readersWriterLock τ) hp
      (k.lock.free k.before hs ▸ Serves.tryLock)

/-- `lock()` takes effect where its first exchange wins; else it waits. -/
theorem lockTry (k : AtStep sharing c d t ⟨m, n, h', .lockTry⟩ s l) :
    Matched c d t (.step spurious) ⟨m, n, h', .lockTry⟩ s l := by
  have hp := k.phase
  have hstep := k.step
  cases hstep with
  | lockFails hs => exact k.quiet false rfl le_rfl rfl
  | lockWins hs =>
    refine ⟨_, [(t, .lock, none)], _, ?_, k.taken le_rfl (Nat.succ_pos _) rfl⟩
    simpa [observe] using Object.Moves.serve (O := readersWriterLock τ) hp
      (k.lock.free k.before hs ▸ Serves.lock)

/-- A waiting `lock()` takes effect where an evaluation of its predicate wins the exchange;
a writer popped by somebody else has the lock already. -/
theorem lockWait {w : WaitIf τ} (k : AtStep sharing c d t ⟨m, n, h', .lockWait w⟩ s l) :
    Matched c d t (.step spurious) ⟨m, n, h', .lockWait w⟩ s l := by
  have hp := k.phase
  have hstep := k.step
  cases hstep with
  | fastPathWins hs | recheckWins hs =>
    exact ⟨_, _, _, .effect .refl hp (k.lock.free k.before hs ▸ Serves.lock),
      k.taken le_rfl (Nat.succ_pos _) rfl⟩
  | @wait _ _ _ _ q r hs hw =>
    refine k.quiet false ?_ ?_ (stand_wait hw fun sp hsp hmem =>
      k.ledger.not_placed_of_resumed hsp (.inl hmem))
    · cases r <;> rfl
    · cases r <;> simp [Local.writerView, View.idle]

/-- `try_lock_shared()` takes effect at its exchange, or where it reads that the mutex is
closed to readers. -/
theorem tryLockShared {x : TryLockShared}
    (k : AtStep sharing c d t ⟨m, n, h', .tryLockShared x⟩ s l)
    (hn : next t (.step spurious) c.shared ⟨m, n, h', .tryLockShared x⟩ = some (s, l)) :
    Matched c d t (.step spurious) ⟨m, n, h', .tryLockShared x⟩ s l := by
  have hp := k.phase
  have hreaders := k.readers
  have hstep := k.step
  cases hstep with
  | trySharedAgain =>
    obtain ⟨hlost, -, hx⟩ | ⟨-, -, -, hx⟩ | ⟨-, hx⟩ := x.step_outcomes spurious c.shared.state <;>
      simp [next, hx] at hn
    subst hn
    by_cases hs : 0 ≤ c.shared.state
    · have hlost' : (TryLockShared.loop c.shared.state).lost = false := by
        simpa [TryLockShared.lost] using hs
      exact k.quiet false rfl le_rfl
        (Prod.ext (by simp [Local.stand, Local.phase, hlost, hlost']) rfl)
    · have hp : d.loc t = .called .tryLockShared := by
        simpa [Local.stand, Local.phase, hlost] using hp
      have hphase : ((⟨m, n, h', .tryLockShared (.loop c.shared.state)⟩ : Local τ).stand
          c.shared.writerWaiters false).1 = .done (some false) := by
        simpa [Local.stand, Local.phase, TryLockShared.lost] using hs
      refine ⟨_, [(t, .tryLockShared, some false)], _, ?_, k.seen false le_rfl rfl⟩
      rw [hphase]
      exact .effect .refl hp
        (Serves.tryLockSharedFails (k.lock.single k.before (Int.not_le.1 hs)))
  | trySharedWins hs =>
    obtain ⟨-, -, hx⟩ | ⟨hlost, -, -, hx⟩ | ⟨-, hx⟩ := x.step_outcomes spurious c.shared.state <;>
      simp [next, hx] at hn
    have hp : d.loc t = .called .tryLockShared := by
      simpa [Local.stand, Local.phase, hlost] using hp
    have hserves : Serves t .tryLockShared d.shared (some true)
        ⟨none, Function.update d.shared.readers t (n + 1)⟩ := by
      have := Serves.tryLockShared (t := t) (r := d.shared.readers)
      rwa [hreaders, ← k.shared_eq hs] at this
    refine ⟨_, [(t, .tryLockShared, some true)], _, ?_,
      k.shared false le_rfl (by simp only; omega)⟩
    simpa [observe] using Object.Moves.serve (O := readersWriterLock τ) hp hserves
  | trySharedLoses =>
    obtain ⟨-, -, hx⟩ | ⟨-, -, -, hx⟩ | ⟨hlost, hx⟩ := x.step_outcomes spurious c.shared.state <;>
      simp [next, hx] at hn
    have hp : d.loc t = .done (some false) := by
      simpa [Local.stand, Local.phase, hlost] using hp
    refine ⟨_, [], _, ?_, k.seen false le_rfl rfl⟩
    simpa [observe] using Object.Moves.ret (O := readersWriterLock τ) .refl hp

/-- `lock_shared()` takes effect at its exchange. -/
theorem lockSharedTry {x : TryLockShared}
    (k : AtStep sharing c d t ⟨m, n, h', .lockSharedTry x⟩ s l) :
    Matched c d t (.step spurious) ⟨m, n, h', .lockSharedTry x⟩ s l := by
  have hp := k.phase
  have hreaders := k.readers
  have hstep := k.step
  cases hstep with
  | lockSharedAgain | lockSharedLoses => exact k.quiet false rfl le_rfl rfl
  | lockSharedWins hs =>
    have hserves : Serves t .lockShared d.shared none
        ⟨none, Function.update d.shared.readers t (n + 1)⟩ := by
      have := Serves.lockShared (t := t) (r := d.shared.readers)
      rwa [hreaders, ← k.shared_eq hs] at this
    refine ⟨_, [(t, .lockShared, none)], _, ?_, k.shared false le_rfl (by simp only; omega)⟩
    simpa [observe] using Object.Moves.serve (O := readersWriterLock τ) hp hserves

/-- `unlock_shared()` takes effect where it leaves other readers behind; the last reader
goes on to its hand-off. -/
theorem unlockSharedLoop {state : ℤ}
    (k : AtStep sharing c d t ⟨m, n, h', .unlockSharedLoop state⟩ s l) :
    Matched c d t (.step spurious) ⟨m, n, h', .unlockSharedLoop state⟩ s l := by
  have hp := k.phase
  have hreaders := k.readers
  have hstep := k.step
  cases hstep with
  | unlockSharedAgain => exact k.quiet false rfl le_rfl rfl
  | unlockSharedLeaves hs =>
    have hserves : Serves t .unlockShared d.shared none
        ⟨none, Function.update d.shared.readers t n⟩ := by
      have := Serves.unlockShared (t := t) (r := d.shared.readers) (k := n) hreaders
      rwa [← k.shared_eq (by omega)] at this
    refine ⟨_, [(t, .unlockShared, none)], _, ?_, k.shared false le_rfl (by simp only; omega)⟩
    simpa [observe] using Object.Moves.serve (O := readersWriterLock τ) hp hserves
  | unlockSharedLast hs => exact k.quiet false rfl le_rfl rfl

/-- In a hand-off the release takes effect at the pop, with the acquisition of the writer
that is popped. -/
theorem resumeOne {r : ResumeOne τ}
    (k : AtStep sharing c d t ⟨m, n, h', .handoff (.resumeOne r)⟩ s l) :
    Matched c d t (.step spurious) ⟨m, n, h', .handoff (.resumeOne r)⟩ s l := by
  have hp := k.phase
  have hstep := k.step
  cases hstep with
  | resumes hr =>
    cases r with
    | lock =>
      obtain ⟨q₁, hq, he⟩ := Option.map_eq_some_iff.1 hr
      obtain ⟨rfl, rfl⟩ := by simpa using he
      exact k.quiet (sharing t) rfl le_rfl rfl
    | popFront =>
      obtain ⟨rfl, rfl⟩ := by simpa [ResumeOne.step] using hr
      by_cases hw : c.shared.writerWaiters.waiters = []
      · exact k.quiet (sharing t) rfl (by simp [hw, Local.writerView, ResumeOne.view])
          (by simp only [hw]; rfl)
      · obtain ⟨sp, rest, hw⟩ := List.exists_cons_of_ne_nil hw
        obtain ⟨ops, d', hops, hd'⟩ := implements_handover k.ledger k.before k.lock
          (by rw [k.place]) (by simp [hw]) hw (by simp [hw]) k.after
        exact ⟨_, ops, d', hops, hd'⟩
    | unlock waiter =>
      cases waiter with
      | none => simp [ResumeOne.step] at hr
      | some waiter =>
        obtain ⟨rfl, rfl⟩ := by simpa [ResumeOne.step] using hr
        exact k.quiet (sharing t) rfl le_rfl rfl
    | resume waiter => simp [ResumeOne.step] at hr
  | handsOver hr =>
    obtain ⟨⟨waiter, rfl⟩, -⟩ | ⟨-, hfalse⟩ := ResumeOne.step_returns hr
    · exact ⟨_, _, _, .ret .refl hp, k.seen (sharing t) (Nat.zero_le _) (by
        cases sharing t <;> rfl)⟩
    · simp at hfalse
  | findsNobody hr =>
    obtain ⟨-, htrue⟩ | ⟨rfl, -⟩ := ResumeOne.step_returns hr
    · simp at htrue
    · obtain rfl : _ = c.shared.writerWaiters.release := by
        simpa [ResumeOne.step] using hr.symm
      exact k.quiet (sharing t) rfl le_rfl rfl

/-- Without a writer in the queue the release takes effect at the store of `0`. -/
theorem store (k : AtStep sharing c d t ⟨m, n, h', .handoff .store⟩ s l) :
    Matched c d t (.step spurious) ⟨m, n, h', .handoff .store⟩ s l := by
  have hstep := k.step
  cases hstep with
  | store =>
    obtain ⟨hpt, hrelease⟩ := k.lock.release k.before (by rw [k.place]) rfl
    have hphases := k.lock.phases (b := false) (l := ⟨m, n, h', .handoff (.resumeAll .lock)⟩)
      (k.others le_rfl)
    exact ⟨_, _, _, .effect .refl hpt hrelease, .of_free k.after rfl hphases⟩

end AtStep

/-- Every step is matched on the lock. -/
theorem implements_step {sharing : τ → Bool} {c : Config τ (Shared τ) (Local τ)}
    {d : Config τ (Holders τ) (Object.Phase Op (Option Bool))} {t : τ} {a : Act} {s : Shared τ}
    {l : Local τ} (hr : Reachable next (start τ) c) (h : Implements sharing c d)
    (hn : next t a c.shared (c.loc t) = some (s, l)) : Matched c d t a (c.loc t) s l := by
  have hr' : Reachable next (start τ) ⟨s, Function.update c.loc t l⟩ :=
    hr.step (t := t) (a := a) trivial (Config.step_eq_some.2 ⟨s, l, hn, rfl⟩)
  have k : AtStep sharing c d t (c.loc t) s l :=
    ⟨rfl, step_of_next hn, writerLedger hr, means (writerLedger hr) (inv_of_reach hr),
      means (writerLedger hr') (inv_of_reach hr'), h⟩
  generalize c.loc t = l₀ at hn k ⊢
  have hp := k.phase
  cases a with
  | step spurious =>
    obtain ⟨m, n, h', pc⟩ := l₀
    cases pc with
    | outside => simp [next] at hn
    | tryLock => exact k.tryLock
    | lockTry => exact k.lockTry
    | lockWait w => exact k.lockWait
    | tryLockShared x => exact k.tryLockShared hn
    | lockSharedTry x => exact k.lockSharedTry
    | unlockSharedLoop state => exact k.unlockSharedLoop
    | handoff f =>
      cases f with
      | resumeOne r => exact k.resumeOne
      | store => exact k.store
      | resumeAll r =>
        cases k.step with
        | @resumeAll _ _ _ _ q o hr =>
          cases o with
          | none =>
            exact ⟨_, _, _, .ret .refl hp, k.seen (sharing t) le_rfl (by cases sharing t <;> rfl)⟩
          | some r' => exact k.quiet (sharing t) rfl le_rfl (by cases sharing t <;> rfl)
    | lockAssert =>
      cases k.step
      exact ⟨_, _, _, .ret .refl hp, k.seen false le_rfl rfl⟩
    | lockSharedWait w =>
      cases k.step with
      | @waitShared _ _ _ _ q r hw => cases r <;> exact k.quiet false rfl le_rfl rfl
    | unlockSharedStore =>
      cases k.step
      exact k.quiet true rfl le_rfl rfl
    | unlockAssert | unlockSharedLoad =>
      cases k.step
      exact k.quiet false rfl le_rfl rfl
  | _ => exact k.call (by simp) hn

/-- **The shared mutex is an atomic readers-writer lock.**  Whatever the tasks do, what
they see can be explained by a readers-writer lock whose operations take effect at one
instant, each between its call and its return: `lock` gives the lock to its task alone
where nobody has it, `lock_shared` gives its task one more share where there is no writer,
the `try` operations do the same or return `false`, `try_lock` where somebody has the lock
and `try_lock_shared` where one task has it, and the releases take back what their tasks
have. -/
theorem shared_linearizable (sched : List (τ × Act)) :
    (readersWriterLock τ).Linearizable ((start τ).history next observe sched) := by
  refine Object.linearizable_of_simulation observe (fun c d => ∃ sharing, Implements sharing c d)
    ⟨fun _ => false, ?_⟩ ?_ sched (Config.admits_true ..)
  · refine ⟨fun t => rfl, fun t => ?_, fun t => rfl⟩
    simp [readersWriterLock, Object.start, Holders.free, start]
  · rintro c d t a s l hr ⟨sharing, h⟩ _ hn
    obtain ⟨sharing', ops, d', hops, hd'⟩ := implements_step hr h hn
    exact ⟨ops, d', hops, sharing', hd'⟩

/-- The last reader hands over to a queued writer: the two operations take effect at the
pop, before either task returns. -/
example : (start (Fin 2)).history next observe (readerHandsOver ++ turns [(0, 2, .step false),
      (1, 2, .step false)]) =
    [.call 0 .lockShared, .ret 0 none, .call 1 .lock, .call 0 .unlockShared, .ret 0 none,
      .ret 1 none] := by
  decide

end SharedMutex
end CoopSync
