/-
# The bookkeeping of `scoped_lock`

`m_mutex` and `m_is_writer_lock` are written at different moments than the mutex is locked
and unlocked.  Each member function, line by line, has a precondition that is true
wherever the fields agree with what the lock owns (`SharedMutex.ScopedLock.code_lawful`,
`Mutex.ScopedLock.code_lawful`), so they agree whenever the lock is outside its functions
(`bookkeeping`).
-/

import CoopSync.Holder.Rules
import CoopSync.Mutex.Exclusion
import CoopSync.ScopedLock.Model
import CoopSync.SharedMutex.Ownership

namespace CoopSync

open Holder

namespace SharedMutex

variable {κ : Type*} [DecidableEq κ]

/-- A step of a task in a call is one of the call, and returns with what it is to own. -/
theorem lockable_step {k : κ} {spurious : Bool} {p : Phase Bool} {s s' : Shared κ}
    {l l' : Local κ} (hn : next k (.step spurious) s l = some (s', l'))
    (hp : l.pc.phase = some p) :
    l'.pc.phase = some p ∧ (lockable κ).owns l' = (lockable κ).owns l ∧
        (p.tries = true → s' = s) ∨
      l'.pc.phase = none ∧
        ((∀ v, (lockable κ).owns l' v = (lockable κ).owns l v + p.gains v) ∨
          p.tries = true ∧ (lockable κ).owns l' = (lockable κ).owns l ∧ s' = s) := by
  cases step_of_next hn with
  | callLock | callTryLock | callUnlock | callLockShared | callTryLockShared | callUnlockShared =>
    nomatch hp
  | tryLockFails | trySharedLoses =>
    obtain rfl := Option.some.inj hp
    exact .inr ⟨rfl, .inr ⟨rfl, rfl, rfl⟩⟩
  | trySharedAgain =>
    obtain rfl := Option.some.inj hp
    exact .inl ⟨rfl, rfl, fun _ => rfl⟩
  | tryLockWins | lockWins | lockAssert | trySharedWins | lockSharedWins =>
    obtain rfl := Option.some.inj hp
    refine .inr ⟨rfl, .inl fun v => ?_⟩
    cases v <;> rfl
  | unlockSharedLeaves | handsOver =>
    obtain rfl := Option.some.inj hp
    exact .inr ⟨rfl, .inl fun _ => rfl⟩
  | lockFails | fastPathWins | recheckWins | unlockAssert | lockSharedAgain | lockSharedLoses |
    unlockSharedLoad | unlockSharedAgain | unlockSharedLast | unlockSharedStore | resumes |
    findsNobody | store =>
    obtain rfl := Option.some.inj hp
    exact .inl ⟨rfl, rfl, nofun⟩
  | @wait _ _ _ _ _ r | @waitShared _ _ _ _ _ r =>
    obtain rfl := Option.some.inj hp
    cases r <;> exact .inl ⟨rfl, rfl, nofun⟩
  | @resumeAll _ _ _ _ _ o =>
    obtain rfl := Option.some.inj hp
    cases o with
    | none => exact .inr ⟨rfl, .inl fun _ => rfl⟩
    | some r => exact .inl ⟨rfl, rfl, nofun⟩

omit [DecidableEq κ] in
/-- A task in no phase of a call is outside. -/
theorem outside_of_phase {pc : Pc κ} (h : pc.phase = none) : pc = .outside := by
  cases pc with
  | outside => rfl
  | _ => nomatch h

/-- `shared_mutex` keeps the rules of a mutex that a holder may use. -/
theorem lockable_lawful : (lockable κ).Lawful where
  start_during _ := rfl
  start_owns _ w := by cases w <;> rfl
  call_isSome {k c s l} hl hpos := by
    obtain ⟨m, n, h, pc⟩ := l
    obtain rfl : pc = .outside := outside_of_phase hl
    cases c with
    | lock w | tryLock w => cases w <;> rfl
    | unlock w =>
      have hpos := hpos w rfl
      cases w with
      | true =>
        obtain ⟨m, rfl⟩ := Nat.exists_eq_succ_of_ne_zero hpos.ne'
        rfl
      | false =>
        obtain ⟨n, rfl⟩ := Nat.exists_eq_succ_of_ne_zero hpos.ne'
        rfl
  call {k c s s' l l'} hn := by
    obtain ⟨m, n, h, pc⟩ := l
    cases c with
    | lock w | tryLock w =>
      cases w <;> cases pc <;> simp [lockable, next] at hn <;> obtain ⟨rfl, rfl⟩ := hn <;>
        exact ⟨rfl, rfl, fun _ => rfl⟩
    | unlock w =>
      cases w with
      | true =>
        cases pc <;> cases m <;> simp [lockable, next] at hn
        obtain ⟨rfl, rfl⟩ := hn
        exact ⟨rfl, rfl, fun v => by cases v <;> rfl⟩
      | false =>
        cases pc <;> cases n <;> simp [lockable, next] at hn
        obtain ⟨rfl, rfl⟩ := hn
        exact ⟨rfl, rfl, fun v => by cases v <;> rfl⟩
  step hn hp := lockable_step hn hp

namespace ScopedLock

variable {M : Type*} {own : Option (M × Bool)} {f : Fields M Bool} {m : M} {write : Bool}

/-- `acquire` meets its specification. -/
theorem acquire_wp (hm : Holder.Means own f) :
    wp ((code M).Post (.acquire m write)) (acquire m write) own True f := by
  cases hm with
  | free => exact ⟨rfl, Code.post_void .held nofun⟩
  | held => exact Code.post_threw .held nofun trivial

/-- So does `try_acquire`. -/
theorem tryAcquire_wp (hm : Holder.Means own f) :
    wp ((code M).Post (.tryAcquire m write)) (tryAcquire m write) own True f := by
  cases hm with
  | free =>
    exact ⟨rfl, Code.post_false .free nofun fun _ => ⟨trivial, rfl⟩, Code.post_true .held nofun⟩
  | held => exact Code.post_threw .held nofun trivial

/-- `release` unlocks in the mode of the flag, which is the one that is held. -/
theorem release_wp {op : Op M} (hm : Holder.Means own f) :
    wp ((code M).Post op) release own True f := by
  cases hm with
  | free => exact Code.post_void .free fun _ => rfl
  | held => exact ⟨rfl, Code.post_void .free fun _ => rfl⟩

/-- So does `upgrade_to_writer`. -/
theorem upgradeToWriter_wp (hm : Holder.Means own f) :
    wp ((code M).Post .upgradeToWriter) upgradeToWriter own True f := by
  cases hm with
  | free => exact Code.post_threw .free nofun trivial
  | @held m w =>
    cases w with
    | true => exact Code.post_true .held nofun
    | false => exact ⟨rfl, rfl, Code.post_false .held nofun nofun⟩

/-- So does `downgrade_to_reader`. -/
theorem downgradeToReader_wp (hm : Holder.Means own f) :
    wp ((code M).Post .downgradeToReader) downgradeToReader own True f := by
  cases hm with
  | free => exact Code.post_threw .free nofun trivial
  | @held m w =>
    cases w with
    | true => exact ⟨rfl, rfl, Code.post_false .held nofun nofun⟩
    | false => exact Code.post_true .held nofun

/-- **Every member function of `shared_mutex::scoped_lock` keeps the fields in agreement**
with what the lock owns. -/
theorem code_lawful : (code M).Lawful where
  init {op f} hop := by
    cases op with
    | default =>
      obtain rfl := Option.some.inj hop
      exact Code.post_void .free nofun
    | construct m write =>
      obtain rfl := Option.some.inj hop
      exact ⟨rfl, Code.post_void .held nofun⟩
    | _ => nomatch hop
  body {op own f} hop hm := by
    cases op with
    | default | construct => nomatch hop
    | acquire m write => exact acquire_wp hm
    | tryAcquire m write => exact tryAcquire_wp hm
    | release | destroy => exact release_wp hm
    | upgradeToWriter => exact upgradeToWriter_wp hm
    | downgradeToReader => exact downgradeToReader_wp hm

end ScopedLock

section Owners

variable [Fintype κ] {c : Config κ (Shared κ) (Local κ)}

end Owners

end SharedMutex

namespace Mutex

variable {κ : Type*} [DecidableEq κ]

/-- A step of a task in a call is one of the call, and returns with what it is to own. -/
theorem lockable_step {k : κ} {p : Phase Unit} {s s' : Shared κ} {l l' : Local κ}
    (hn : next k .step s l = some (s', l')) (hp : l.pc.phase = some p) :
    l'.pc.phase = some p ∧ (lockable κ).owns l' = (lockable κ).owns l ∧
        (p.tries = true → s' = s) ∨
      l'.pc.phase = none ∧
        ((∀ v, (lockable κ).owns l' v = (lockable κ).owns l v + p.gains v) ∨
          p.tries = true ∧ (lockable κ).owns l' = (lockable κ).owns l ∧ s' = s) := by
  cases step_of_next hn with
  | callLock | callTryLock | callUnlock => nomatch hp
  | tryLockFails =>
    obtain rfl := Option.some.inj hp
    exact .inr ⟨rfl, .inr ⟨rfl, rfl, rfl⟩⟩
  | tryLockWins | lockWins =>
    obtain rfl := Option.some.inj hp
    exact .inr ⟨rfl, .inl fun _ => rfl⟩
  | lockFails | unlockAssert | unlockStore =>
    obtain rfl := Option.some.inj hp
    exact .inl ⟨rfl, rfl, nofun⟩
  | @wait _ _ _ r =>
    obtain rfl := Option.some.inj hp
    cases r <;> exact .inl ⟨rfl, rfl, nofun⟩
  | @resume _ _ _ o =>
    obtain rfl := Option.some.inj hp
    cases o with
    | inl r => exact .inl ⟨rfl, rfl, nofun⟩
    | inr b => exact .inr ⟨rfl, .inl fun _ => rfl⟩

omit [DecidableEq κ] in
/-- A task in no phase of a call is outside. -/
theorem outside_of_phase {pc : Pc κ} (h : pc.phase = none) : pc = .outside := by
  cases pc with
  | outside => rfl
  | _ => nomatch h

/-- `mutex` keeps the rules of a mutex that a holder may use. -/
theorem lockable_lawful : (lockable κ).Lawful where
  start_during _ := rfl
  start_owns _ _ := rfl
  call_isSome {k c s l} hl hpos := by
    obtain ⟨n, pc⟩ := l
    obtain rfl : pc = .outside := outside_of_phase hl
    cases c with
    | lock w | tryLock w => rfl
    | unlock w =>
      obtain ⟨n, rfl⟩ := Nat.exists_eq_succ_of_ne_zero (hpos w rfl).ne'
      rfl
  call {k c s s' l l'} hn := by
    obtain ⟨n, pc⟩ := l
    cases c with
    | lock w | tryLock w =>
      cases pc <;> simp [lockable, next] at hn
      obtain ⟨rfl, rfl⟩ := hn
      exact ⟨rfl, rfl, fun _ => rfl⟩
    | unlock w =>
      cases pc <;> cases n <;> simp [lockable, next] at hn
      obtain ⟨rfl, rfl⟩ := hn
      exact ⟨rfl, rfl, fun _ => rfl⟩
  step hn hp := lockable_step hn hp

namespace ScopedLock

variable {N : Type*} {own : Option (N × Unit)} {f : Fields N Unit} {m : N}

/-- `acquire` meets its specification. -/
theorem acquire_wp (hm : Means own f) :
    wp ((code N).Post (.acquire m)) (acquire m) own True f := by
  cases hm with
  | free => exact ⟨rfl, Code.post_void .held nofun⟩
  | held => exact Code.post_threw .held nofun trivial

/-- So does `try_acquire`. -/
theorem tryAcquire_wp (hm : Means own f) :
    wp ((code N).Post (.tryAcquire m)) (tryAcquire m) own True f := by
  cases hm with
  | free =>
    exact ⟨rfl, Code.post_false .free nofun fun _ => ⟨trivial, rfl⟩, Code.post_true .held nofun⟩
  | held => exact Code.post_threw .held nofun trivial

/-- So does `release`. -/
theorem release_wp {op : Op N} (hm : Means own f) : wp ((code N).Post op) release own True f := by
  cases hm with
  | free => exact Code.post_void .free fun _ => rfl
  | held => exact ⟨rfl, Code.post_void .free fun _ => rfl⟩

/-- **Every member function of `mutex::scoped_lock` keeps the field in agreement** with what
the lock owns. -/
theorem code_lawful : (code N).Lawful where
  init {op f} hop := by
    cases op with
    | default =>
      obtain rfl := Option.some.inj hop
      exact Code.post_void .free nofun
    | construct m =>
      obtain rfl := Option.some.inj hop
      exact ⟨rfl, Code.post_void .held nofun⟩
    | _ => nomatch hop
  body {op own f} hop hm := by
    cases op with
    | default | construct => nomatch hop
    | acquire m => exact acquire_wp hm
    | tryAcquire m => exact tryAcquire_wp hm
    | release | destroy => exact release_wp hm

end ScopedLock

section Owners

variable [Fintype κ] {c : Config κ (Shared κ) (Local κ)}

end Owners

end Mutex

/-! ### The whole system -/

namespace ScopedLock

variable {τ κ κ' M N : Type*} [DecidableEq τ] [DecidableEq κ] [DecidableEq κ'] [DecidableEq M]
  [DecidableEq N] {c : Config τ (System κ κ' M N) (Option (κ ⊕ κ'))}

omit [DecidableEq τ] in
/-- A step of a task is at most one step of one lock. -/
theorem frame_of_next {t : τ} {a : Act κ κ' M N} {s s' : System κ κ' M N} {l l' : Option (κ ⊕ κ')}
    (hn : next t a s l = some (s', l')) :
    (s'.sharedMutexes = s.sharedMutexes ∨
        ∃ k b, s.sharedMutexes.step nextShared k b = some s'.sharedMutexes) ∧
      (s'.mutexes = s.mutexes ∨ ∃ k b, s.mutexes.step nextMutex k b = some s'.mutexes) := by
  unfold next at hn
  split at hn
  · obtain ⟨d, hd, he⟩ := Option.map_eq_some_iff.1 hn
    obtain ⟨rfl, -⟩ := Prod.mk.inj he
    exact ⟨.inr ⟨_, _, hd⟩, .inl rfl⟩
  · obtain ⟨d, hd, he⟩ := Option.map_eq_some_iff.1 hn
    obtain ⟨rfl, -⟩ := Prod.mk.inj he
    exact ⟨.inl rfl, .inr ⟨_, _, hd⟩⟩
  · obtain ⟨d, hd, he⟩ := Option.map_eq_some_iff.1 hn
    obtain ⟨rfl, -⟩ := Prod.mk.inj he
    exact ⟨.inr ⟨_, _, hd⟩, .inl rfl⟩
  · obtain ⟨d, hd, he⟩ := Option.map_eq_some_iff.1 hn
    obtain ⟨rfl, -⟩ := Prod.mk.inj he
    exact ⟨.inl rfl, .inr ⟨_, _, hd⟩⟩
  · nomatch hn

/-- **The locks of either kind are in a run of their own.** -/
theorem parts_reachable (h : Reachable next (start τ κ κ' M N) c) :
    Reachable nextShared (Holder.start (SharedMutex.lockable κ) _ M) c.shared.sharedMutexes ∧
      Reachable nextMutex (Holder.start (Mutex.lockable κ') _ N) c.shared.mutexes := by
  refine h.invariant (I := fun c : Config τ (System κ κ' M N) (Option (κ ⊕ κ')) =>
    Reachable nextShared (Holder.start (SharedMutex.lockable κ) _ M) c.shared.sharedMutexes ∧
      Reachable nextMutex (Holder.start (Mutex.lockable κ') _ N) c.shared.mutexes)
    ⟨.start, .start⟩ fun c t a s l _ ⟨ihs, ihm⟩ _ hn => ?_
  obtain ⟨hs, hm⟩ := frame_of_next hn
  constructor
  · rcases hs with he | ⟨k, b, hs⟩
    · exact he ▸ ihs
    · exact ihs.step trivial hs
  · rcases hm with he | ⟨k, b, hm⟩
    · exact he ▸ ihm
    · exact ihm.step trivial hm

/-- Task `1` destroys both locks. -/
def destroys : List (Fin 2 × Act (Fin 2) (Fin 1) (Fin 1) (Fin 1)) :=
  turns [(1, 1, .shared 0 .destroy), (1, 16, .step false), (1, 1, .shared 1 .destroy),
    (1, 1, .step false)]

end ScopedLock

end CoopSync
