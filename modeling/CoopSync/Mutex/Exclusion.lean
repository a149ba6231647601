/-
# The mutex is exclusive and strands nobody

`unlock` stores `false` and then wakes at most one waiter; the woken task tries
the flag again and can lose it to a task that never waited.  What keeps the rest of the
queue safe is a count (`Inv.wakes`): a clear flag is one free permit, and while
somebody waits, some task is on its way to the flag or owes a wake-up for it.  A
wake-up is used up only by a task that sees the flag set, and whoever set it owes
the next one.
-/

import CoopSync.Mutex.Model
import CoopSync.WaitQueue.Wakeups

namespace CoopSync
namespace Mutex

open WaitQueue

variable {τ : Type*}

/-- How often a task owns the mutex: the acquisitions it has not called `unlock`
for, and an `unlock` that has not stored `false`. -/
def Local.owner (l : Local τ) : ℕ :=
  l.owns + match l.pc with
    | .unlockAssert | .unlockStore => 1
    | _ => 0

/-- One for a task that will look at the flag again, or owes a wake-up. -/
def Local.awake (l : Local τ) : ℕ :=
  match l.pc with
  | .lockTry => 1
  | .lockWait w => w.awake
  | .unlockResume r => r.owes
  | _ => 0

/-- One for a task that has found the flag set under the queue's lock. -/
def Local.pushing (l : Local τ) : ℕ :=
  match l.pc with
  | .lockWait w => w.pushing
  | _ => 0

/-- What a task does on the wait queue. -/
def Local.view (l : Local τ) : View τ :=
  match l.pc with
  | .lockWait w => w.view
  | .unlockResume r => r.view
  | _ => View.idle

/-- One for a task that has been queued and has not continued. -/
def Local.pushed (l : Local τ) : ℕ := l.view.pushed

variable [DecidableEq τ]

/-- The steps of a task, one case for each outcome of a line of the source. -/
inductive Step (t : τ) (s : Shared τ) : Local τ → Shared τ → Local τ → Prop
  | callLock {n} : Step t s ⟨n, .outside⟩ s ⟨n, .lockTry⟩
  | callTryLock {n} : Step t s ⟨n, .outside⟩ s ⟨n, .tryLock⟩
  | callUnlock {n} : Step t s ⟨n + 1, .outside⟩ s ⟨n, .unlockAssert⟩
  | tryLockFails {n} (hs : s.locked = true) : Step t s ⟨n, .tryLock⟩ s ⟨n, .outside⟩
  | tryLockWins {n} (hs : s.locked = false) :
      Step t s ⟨n, .tryLock⟩ { s with locked := true } ⟨n + 1, .outside⟩
  | lockFails {n} (hs : s.locked = true) : Step t s ⟨n, .lockTry⟩ s ⟨n, .lockWait .fastPath⟩
  | lockWins {n} (hs : s.locked = false) :
      Step t s ⟨n, .lockTry⟩ { s with locked := true } ⟨n + 1, .outside⟩
  | wait {n w q r} (hw : w.step t s.locked s.waitQueue = some (q, r)) :
      Step t s ⟨n, .lockWait w⟩ { s with waitQueue := q } ⟨n, r.elim .lockTry .lockWait⟩
  | unlockAssert {n} : Step t s ⟨n, .unlockAssert⟩ s ⟨n, .unlockStore⟩
  | unlockStore {n} :
      Step t s ⟨n, .unlockStore⟩ { s with locked := false } ⟨n, .unlockResume .lock⟩
  | resume {n r q o} (hr : r.step t s.waitQueue = some (q, o)) :
      Step t s ⟨n, .unlockResume r⟩ { s with waitQueue := q }
        ⟨n, o.elim .unlockResume fun _ => .outside⟩

/-- Every step is one of these. -/
theorem step_of_next {t : τ} {a : Act} {s s' : Shared τ} {l l' : Local τ}
    (h : next t a s l = some (s', l')) : Step t s l s' l' := by
  obtain ⟨n, pc⟩ := l
  cases a with
  | lock | tryLock =>
    cases pc <;> simp only [next, reduceCtorEq, Option.some.injEq, Prod.mk.injEq] at h
    obtain ⟨rfl, rfl⟩ := h
    constructor
  | unlock =>
    cases pc <;> cases n <;> simp only [next, reduceCtorEq, Option.some.injEq, Prod.mk.injEq] at h
    obtain ⟨rfl, rfl⟩ := h
    exact .callUnlock
  | step =>
    cases pc with
    | outside => simp [next] at h
    | tryLock | lockTry =>
      cases hs : s.locked <;> simp [next, Shared.tryLock, hs] at h <;> obtain ⟨rfl, rfl⟩ := h <;>
        constructor <;> exact hs
    | lockWait w =>
      obtain ⟨⟨q, r⟩, hw, he⟩ := Option.map_eq_some_iff.1 h
      obtain ⟨rfl, rfl⟩ := by simpa using he
      exact .wait hw
    | unlockAssert =>
      obtain ⟨rfl, rfl⟩ := by simpa [next] using h
      exact .unlockAssert
    | unlockStore =>
      obtain ⟨rfl, rfl⟩ := by simpa [next] using h
      exact .unlockStore
    | unlockResume r =>
      obtain ⟨⟨q, o⟩, hr, he⟩ := Option.map_eq_some_iff.1 h
      obtain ⟨rfl, rfl⟩ := by simpa using he
      exact .resume hr

/-- What a step does on the wait queue is an effect of the queue's code. -/
theorem Step.effect {t : τ} {s s' : Shared τ} {l l' : Local τ} (h : Step t s l s' l') :
    Effect t s.waitQueue l.view s'.waitQueue l'.view := by
  cases h with
  | @wait n w q r hw => cases r <;> exact w.effect hw
  | @resume n r q o hr => cases o <;> exact r.effect hr
  | _ => exact .stay

variable [Fintype τ]

/-- The ledger of the queue holds in every run. -/
theorem ledger {ok : Config τ (Shared τ) (Local τ) → τ → Act → Prop}
    {c : Config τ (Shared τ) (Local τ)} (h : Reach next ok (start τ) c) :
    Ledger c.shared.waitQueue fun t => (c.loc t).view :=
  Ledger.of_reach Shared.waitQueue Local.view rfl (fun _ => rfl)
    (fun _ _ _ _ _ _ hn => (step_of_next hn).effect) h

/-- What holds of every configuration. -/
structure Inv (c : Config τ (Shared τ) (Local τ)) : Prop where
  /-- The flag counts the owners. -/
  owners : total Local.owner c.loc = c.shared.locked.toNat
  /-- A clear flag that somebody waits for has somebody coming. -/
  wakes : Supply (!c.shared.locked).toNat c.shared.waitQueue (total Local.awake c.loc)
    (total Local.pushing c.loc) (total Local.pushed c.loc)

omit [DecidableEq τ] [Fintype τ] in
/-- Who is about to push holds the queue's lock. -/
theorem critical_of_pushing {l : Local τ} (h : 0 < l.pushing) : l.view.critical = true := by
  obtain ⟨n, pc⟩ := l
  cases pc with
  | lockWait w => exact w.critical_of_pushing h
  | _ => simp [Local.pushing] at h

/-- A step keeps the invariant. -/
theorem inv_step {c : Config τ (Shared τ) (Local τ)} {t : τ} {s : Shared τ} {l : Local τ}
    (hL : Ledger c.shared.waitQueue fun t => (c.loc t).view) (h : Inv c)
    (hs : Step t c.shared (c.loc t) s l) : Inv ⟨s, Function.update c.loc t l⟩ := by
  obtain ⟨hown, hwake⟩ := h
  have hlen : c.shared.waitQueue.waiters.length ≤ total Local.pushed c.loc := hL.length_le_pushed
  have hzero := hL.total_eq_zero_of_critical (t := t) fun _ => critical_of_pushing
  have ho := total_update Local.owner c.loc t l
  have ha := total_update Local.awake c.loc t l
  have hb := total_update Local.pushing c.loc t l
  have hp := total_update Local.pushed c.loc t l
  generalize Function.update c.loc t l = loc' at *
  generalize c.loc t = l₀ at *
  cases hs with
  | callLock | callTryLock | callUnlock | unlockAssert | tryLockFails =>
    simp [Local.owner, Local.awake, Local.pushing, Local.pushed, Local.view] at ho ha hb hp
    refine ⟨by simp only; omega, fun hpos => ?_⟩
    have := hwake (by simp only at hpos; omega)
    simp only
    omega
  | lockFails hs =>
    simp [Local.owner, Local.awake, Local.pushing, Local.pushed, Local.view, WaitIf.awake,
      WaitIf.pushing, WaitIf.pushed] at ho ha hb hp
    refine ⟨by simp only; omega, fun hpos => ?_⟩
    have := hwake (by simp only at hpos; omega)
    simp only
    omega
  | tryLockWins hs | lockWins hs =>
    simp [Local.owner, Local.awake, Local.pushing, Local.pushed, Local.view] at ho ha hb hp
    refine ⟨by simp [hs] at hown ⊢; omega, fun hpos => ?_⟩
    -- no permit is left, and the list is no longer than the pushed tasks are many
    simp
    omega
  | @wait n w q r hw =>
    refine ⟨by cases r <;> simpa [Local.owner] using ho.trans (congrArg (· + n) hown),
      hwake.wait (w.step_moves hw) (fun hs => by simp [hs]) hlen ?_ ?_ ?_⟩
    · cases r <;> simpa [Local.awake] using ha
    · cases r <;> simpa [Local.pushing] using hb
    · cases r <;> simpa [Local.pushed, Local.view] using hp
  | unlockStore =>
    simp [Local.owner, Local.awake, Local.pushing, Local.pushed, Local.view, ResumeOne.owes]
      at ho ha hb hp
    have hle := Bool.toNat_le c.shared.locked
    refine ⟨by simp; omega, fun _ => ?_⟩
    simp
    omega
  | @resume n r q o hr =>
    have hb' : total Local.pushing loc' = total Local.pushing c.loc := by
      cases o <;> simpa [Local.pushing] using hb
    have hp' : total Local.pushed loc' = total Local.pushed c.loc := by
      cases o <;> simpa [Local.pushed, Local.view] using hp
    refine ⟨by cases o <;> simpa [Local.owner] using ho.trans (congrArg (· + n) hown), ?_⟩
    rw [hb', hp']
    refine hwake.resume (r.step_takes hr) (fun hc => hzero hc rfl) ?_
    cases o <;> simpa [Local.awake] using ha

/-- The invariant holds in every configuration of every run. -/
theorem inv_of_reach {ok : Config τ (Shared τ) (Local τ) → τ → Act → Prop}
    {c : Config τ (Shared τ) (Local τ)} (h : Reach next ok (start τ) c) : Inv c := by
  refine h.invariant ⟨?_, ?_⟩ fun c t a s l hr hi _ hn => inv_step (ledger hr) hi (step_of_next hn)
  · exact total_const_zero rfl
  · intro hpos
    rw [show total Local.pushing (start τ).loc = 0 from total_const_zero rfl] at hpos
    simp [start, Queue.init] at hpos

/-! ### The mutex as its users see it -/

/-- The task owns the mutex. -/
def Local.Owns (l : Local τ) : Prop := 0 < l.owner

/-- The task is in `lock()` and suspended: queued and not resumed. -/
def Suspended (c : Config τ (Shared τ) (Local τ)) (t : τ) : Prop :=
  ∃ sp, (c.loc t).pc = .lockWait (.queued sp) ∧ sp ∉ c.shared.waitQueue.resumed

/-- The task is in `lock()`. -/
def InLock (c : Config τ (Shared τ) (Local τ)) (t : τ) : Prop :=
  (c.loc t).pc = .lockTry ∨ ∃ w, (c.loc t).pc = .lockWait w

/-- The task's `unlock` has stored `false` and not finished its `resume_one`. -/
def Unlocking (c : Config τ (Shared τ) (Local τ)) (t : τ) : Prop :=
  ∃ r, (c.loc t).pc = .unlockResume r

variable {c : Config τ (Shared τ) (Local τ)}

omit [DecidableEq τ] in
/-- Nobody owns the mutex twice. -/
theorem owner_le_one (h : Inv c) (t : τ) : (c.loc t).owner ≤ 1 := by
  have := le_total Local.owner c.loc t
  have := Bool.toNat_le c.shared.locked
  have := h.owners
  omega

/-- Two owners are one. -/
theorem owns_unique (h : Inv c) {t u : τ} (ht : (c.loc t).Owns) (hu : (c.loc u).Owns) : t = u := by
  by_contra hne
  have := add_le_total Local.owner c.loc hne
  have := Bool.toNat_le c.shared.locked
  have := h.owners
  simp only [Local.Owns] at ht hu
  omega

omit [DecidableEq τ] in
/-- The flag is set exactly while somebody owns the mutex. -/
theorem locked_iff_owned (h : Inv c) : c.shared.locked = true ↔ ∃ t, (c.loc t).Owns := by
  rw [show (∃ t, (c.loc t).Owns) ↔ 0 < total Local.owner c.loc from total_pos.symm, h.owners]
  cases c.shared.locked <;> simp

omit [DecidableEq τ] [Fintype τ] in
/-- Who has taken a waiter off the list is in `unlock()`. -/
theorem pc_of_hands {l : Local τ} {sp : SuspendPoint τ} (h : sp ∈ l.view.hands) :
    ∃ r, l.pc = .unlockResume r := by
  obtain ⟨n, pc⟩ := l
  cases pc with
  | unlockResume r => exact ⟨r, rfl⟩
  | lockWait w => cases w <;> simp [Local.view, WaitIf.view] at h
  | _ => simp [Local.view, View.idle] at h

omit [DecidableEq τ] [Fintype τ] in
/-- Who is on the list is in `wait_if`, behind its push. -/
theorem pc_of_pushed {l : Local τ} {sp : SuspendPoint τ} (h : l.view.stage = .pushed sp) :
    ∃ w, l.pc = .lockWait w ∧ (w = .unlockQueued sp ∨ w = .queued sp) := by
  obtain ⟨n, pc⟩ := l
  cases pc with
  | lockWait w => cases w <;> simp_all [Local.view, WaitIf.view]
  | unlockResume r => cases r <;> simp [Local.view, ResumeOne.view] at h
  | _ => simp [Local.view, View.idle] at h

/-- While the flag is clear and somebody is queued, a task in `lock()` is not
suspended or an `unlock` has not finished. -/
theorem exists_coming (hL : Ledger c.shared.waitQueue fun t => (c.loc t).view) (h : Inv c)
    (hf : c.shared.locked = false) (hw : c.shared.waitQueue.waiters ≠ []) :
    ∃ t, InLock c t ∧ ¬Suspended c t ∨ Unlocking c t := by
  rcases h.wakes.exists_taker hL hw (by simp [hf]) with hpos | ⟨u, sp, hu⟩ | ⟨t, sp, hst, hres⟩
  · obtain ⟨t, ht⟩ := total_pos.1 hpos
    refine ⟨t, ?_⟩
    cases hpc : (c.loc t).pc with
    | lockTry => exact .inl ⟨.inl hpc, fun ⟨sp, hs, _⟩ => by simp [hpc] at hs⟩
    | lockWait w =>
      refine .inl ⟨.inr ⟨w, hpc⟩, fun ⟨sp, hs, _⟩ => ?_⟩
      obtain rfl : w = .queued sp := by simpa [hpc] using hs
      simp [Local.awake, hpc, WaitIf.awake] at ht
    | unlockResume r => exact .inr ⟨r, hpc⟩
    | _ => simp [Local.awake, hpc] at ht
  · exact ⟨u, .inr (pc_of_hands hu)⟩
  · obtain ⟨w, hpc, rfl | rfl⟩ := pc_of_pushed hst
    · exact ⟨t, .inl ⟨.inr ⟨_, hpc⟩, fun ⟨sp', hs, _⟩ => by simp [hpc] at hs⟩⟩
    · refine ⟨t, .inl ⟨.inr ⟨_, hpc⟩, fun ⟨sp', hs, hn⟩ => hn ?_⟩⟩
      obtain rfl : sp = sp' := by simpa [hpc] using hs
      exact hres

/-- **The mutex is exclusive and strands nobody.**  In every configuration of
every run the flag is set exactly if a task owns the mutex, one task owns it at
most and only once, and the assertion of `unlock` holds.  While the flag is clear
and the queue is not empty, a task in `lock()` is awake or an `unlock` has stored
`false` and not finished its `resume_one`; so a free mutex with all tasks outside
or suspended has nobody suspended. -/
theorem exclusive_and_nobody_stranded (h : Reachable next (start τ) c) :
    (c.shared.locked = true ↔ ∃ t, (c.loc t).Owns) ∧
      (∀ t u, (c.loc t).Owns → (c.loc u).Owns → t = u) ∧ (∀ t, (c.loc t).owner ≤ 1) ∧
      (∀ t, (c.loc t).pc = .unlockAssert → c.shared.locked = true) ∧
      (c.shared.locked = false → c.shared.waitQueue.waiters ≠ [] →
        ∃ t, InLock c t ∧ ¬Suspended c t ∨ Unlocking c t) ∧
      ¬(c.shared.locked = false ∧ (∀ t, (c.loc t).pc = .outside ∨ Suspended c t) ∧
        ∃ t, Suspended c t) := by
  have hL := ledger h
  have hI := inv_of_reach h
  refine ⟨locked_iff_owned hI, fun t u => owns_unique hI, owner_le_one hI, fun t ht => ?_,
    exists_coming hL hI, fun ⟨hf, hall, t, ht⟩ => ?_⟩
  · refine (locked_iff_owned hI).2 ⟨t, ?_⟩
    simp [Local.Owns, Local.owner, ht]
  · -- the suspended task is in the list: nobody is in a call that could hold it
    have hbusy : ∀ u, ¬Unlocking c u := fun u ⟨r, hr⟩ => by
      rcases hall u with ho | ⟨sp, hs, -⟩
      · simp [hr] at ho
      · simp [hr] at hs
    obtain ⟨sp, hpc, hnr⟩ := ht
    have hst : (c.loc t).view.stage = .pushed sp := by simp [Local.view, hpc, WaitIf.view]
    have hmem : sp ∈ c.shared.waitQueue.waiters := by
      rcases hL.pushed_cases hst with hmem | ⟨u, hu⟩ | hres
      · exact hmem
      · exact absurd (pc_of_hands hu) (hbusy u)
      · exact absurd hres hnr
    obtain ⟨u, ⟨hin, hns⟩ | hun⟩ := exists_coming hL hI hf (List.ne_nil_of_mem hmem)
    · rcases hall u with ho | hsu
      · rcases hin with hin | ⟨w, hin⟩ <;> simp [hin] at ho
      · exact hns hsu
    · exact hbusy u hun

/-- Task `0` locks, task `1` queues behind it, task `0` stores `false`. -/
def handover : List (Fin 2 × Act) :=
  turns [(0, 1, .lock), (0, 1, .step), (1, 1, .lock), (1, 7, .step), (0, 1, .unlock), (0, 2, .step)]

/-- The theorem at a free mutex with a task in its queue. -/
theorem exclusive_and_nobody_stranded_handover :
    ∃ c, (start (Fin 2)).exec next handover = some c ∧ c.shared.locked = false ∧
      c.shared.waitQueue.waiters ≠ [] ∧ ∃ t, InLock c t ∧ ¬Suspended c t ∨ Unlocking c t :=
  ⟨_, rfl, rfl, by decide,
    (exclusive_and_nobody_stranded (reachable_of_exec (l := handover) rfl)).2.2.2.2.1 rfl
      (by decide)⟩

/-- A woken task can lose to a barging one: task `0` takes the mutex again before
task `1`, already woken, has run, and task `1` queues a second time. -/
example : ∃ c, (start (Fin 2)).exec next (handover ++
      turns [(0, 4, .step), (0, 1, .tryLock), (0, 1, .step), (1, 8, .step)]) = some c ∧
    c.shared.locked = true ∧ c.shared.waitQueue.waiters = [⟨1, 1⟩] :=
  ⟨_, rfl, rfl, rfl⟩

end Mutex
end CoopSync
