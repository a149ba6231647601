/-
# Counting wake-ups

A primitive that lets a woken task try again keeps its waiters safe by counting.
Tasks inside `wait_if` fall into three kinds: those that will look at the
predicate again (`WaitIf.awake`), the one that has found it true under the lock
and is about to push (`WaitIf.pushing`), and those that have been pushed
(`WaitIf.pushed`).  `WaitIf.step_moves` says what a step does to the kinds and to
the length of the list; `ResumeOne.step_moves` and `ResumeN.step_moves` say the
same of the wake-ups a resumer still owes.

What is kept is `Supply`: as long as somebody is queued or about to be, the
permits that are free are no more than the tasks on their way to take one, a
pushed task that has left the list counting as one of them.  The steps of
`wait_if` and of the resumers keep it whatever the permits are (`Supply.wait`,
`Supply.resumeOne`, `Supply.resumeN`), provided that a task queues only when it
has seen no permit.
-/

import CoopSync.WaitQueue.Ledger

namespace CoopSync
namespace WaitQueue

variable {τ : Type*}

/-- One for a task that evaluates the predicate again, here or after returning. -/
def WaitIf.awake : WaitIf τ → ℕ
  | .pushBack _ | .unlockQueued _ | .queued _ => 0
  | _ => 1

/-- One for a task that has found the predicate true under the lock. -/
def WaitIf.pushing : WaitIf τ → ℕ
  | .pushBack _ => 1
  | _ => 0

/-- One for a task that has been pushed. -/
def WaitIf.pushed : WaitIf τ → ℕ
  | .unlockQueued _ | .queued _ => 1
  | _ => 0

/-- The kind and the view of a waiter agree on whether it has been pushed. -/
@[simp] theorem WaitIf.view_pushed (w : WaitIf τ) : w.view.pushed = w.pushed := by
  cases w <;> rfl

/-- The kinds exclude each other and leave nothing out. -/
theorem WaitIf.kinds (w : WaitIf τ) : w.awake + w.pushing + w.pushed = 1 := by
  cases w <;> rfl

/-- Who is about to push holds the queue's lock. -/
theorem WaitIf.critical_of_pushing {w : WaitIf τ} (h : 0 < w.pushing) : w.view.critical = true := by
  cases w <;> simp_all [WaitIf.pushing, WaitIf.view]

variable [DecidableEq τ]

/-- What a step of `wait_if` does to the kinds and to the list. -/
inductive WaitIf.Moves (pred : Bool) (q : Queue τ) (w : WaitIf τ) (q' : Queue τ) :
    Option (WaitIf τ) → Prop
  /-- the task stays of its kind -/
  | stays {w' : WaitIf τ} (hq : q'.waiters = q.waiters) (ha : w'.awake = w.awake)
      (hb : w'.pushing = w.pushing) (hp : w'.pushed = w.pushed) : Moves pred q w q' (some w')
  /-- `wait_if` returns to a task that was awake or had been pushed -/
  | returns (hq : q'.waiters = q.waiters) (hb : w.pushing = 0) : Moves pred q w q' none
  /-- the re-check came out true -/
  | begins {w' : WaitIf τ} (hpred : pred = true) (hq : q'.waiters = q.waiters) (ha : w.awake = 1)
      (ha' : w'.awake = 0) (hb' : w'.pushing = 1) : Moves pred q w q' (some w')
  /-- the task is queued -/
  | pushes {w' : WaitIf τ} {sp : SuspendPoint τ} (hq : q'.waiters = q.waiters ++ [sp])
      (hb : w.pushing = 1) (hp' : w'.pushed = 1) : Moves pred q w q' (some w')

/-- Every step of `wait_if` moves in one of these ways. -/
theorem WaitIf.step_moves {t : τ} {pred : Bool} {q q' : Queue τ} {w : WaitIf τ}
    {r : Option (WaitIf τ)} (h : w.step t pred q = some (q', r)) : WaitIf.Moves pred q w q' r := by
  cases w with
  | fastPath =>
    obtain ⟨rfl, rfl⟩ := by simpa [WaitIf.step] using h
    cases pred
    · exact .returns rfl rfl
    · exact .stays rfl rfl rfl rfl
  | suspend =>
    obtain ⟨rfl, rfl⟩ := by simpa [WaitIf.step] using h
    exact .stays rfl rfl rfl rfl
  | lock sp =>
    obtain ⟨q₁, hq, he⟩ := Option.map_eq_some_iff.1 h
    obtain ⟨rfl, rfl⟩ := by simpa using he
    exact .stays (Queue.acquire_waiters hq) rfl rfl rfl
  | recheck sp =>
    obtain ⟨rfl, rfl⟩ := by simpa [WaitIf.step] using h
    cases pred
    · exact .stays rfl rfl rfl rfl
    · exact .begins rfl rfl rfl rfl rfl
  | pushBack sp =>
    obtain ⟨rfl, rfl⟩ := by simpa [WaitIf.step] using h
    exact .pushes rfl rfl rfl
  | unlockQueued sp | unlockResume sp | resume sp =>
    obtain ⟨rfl, rfl⟩ := by simpa [WaitIf.step] using h
    exact .stays rfl rfl rfl rfl
  | queued sp | selfResumed sp =>
    simp only [WaitIf.step] at h
    split at h
    · obtain ⟨rfl, rfl⟩ := by simpa using h
      exact .returns rfl rfl
    · simp at h

omit [DecidableEq τ] in
/-- A waiter takes nobody off the list. -/
theorem WaitIf.Moves.mem_waiters {pred : Bool} {q q' : Queue τ} {w : WaitIf τ}
    {r : Option (WaitIf τ)} (h : WaitIf.Moves pred q w q' r) {sp : SuspendPoint τ}
    (hsp : sp ∈ q.waiters) : sp ∈ q'.waiters := by
  cases h with
  | stays hq | returns hq | begins _ hq => rwa [hq]
  | pushes hq =>
    rw [hq]
    exact List.mem_append_left _ hsp

/-- The wake-ups a `resume_one` that has not taken its waiter yet owes. -/
def ResumeOne.owes : ResumeOne τ → ℕ
  | .lock | .popFront => 1
  | .unlock _ | .resume _ => 0

/-- The wake-ups a `resume_n` has still to take from the list. -/
def ResumeN.owes : ResumeN τ → ℕ
  | .enter n | .lock n => n
  | .loop n resumed _ => n - resumed
  | .unlock _ _ | .doResumeAll _ _ => 0

/-- What a step of a resumer that owes `owes` wake-ups does to them and to the
list; `owes'` is what it owes afterwards, nothing once it has returned. -/
inductive Takes (q q' : Queue τ) (critical : Bool) (owes owes' : ℕ) : Prop
  | stays (hq : q'.waiters = q.waiters) (ho : owes' = owes)
  /-- the first waiter is taken -/
  | pops (hq : q.waiters.length = q'.waiters.length + 1) (ho : owes = owes' + 1)
  /-- there is no waiter to take -/
  | finds (hc : critical = true) (hq : q.waiters = []) (hq' : q'.waiters = []) (ho : owes' = 0)

omit [DecidableEq τ] in
/-- A step of `resume_one` leaves the list as it is, or takes the head off. -/
theorem ResumeOne.step_pops {t : τ} {q q' : Queue τ} {r : ResumeOne τ} {o : ResumeOne τ ⊕ Bool}
    (h : r.step t q = some (q', o)) :
    q'.waiters = q.waiters ∧ (o.elim ResumeOne.owes fun _ => 0) = r.owes ∨
      r = .popFront ∧ q'.waiters = q.waiters.tail ∧ o = .inl (.unlock q.waiters.head?) := by
  cases r with
  | lock =>
    obtain ⟨q₁, hq, he⟩ := Option.map_eq_some_iff.1 h
    obtain ⟨rfl, rfl⟩ := by simpa using he
    exact .inl ⟨Queue.acquire_waiters hq, rfl⟩
  | popFront =>
    obtain ⟨rfl, rfl⟩ := by simpa [ResumeOne.step] using h
    exact .inr ⟨rfl, rfl, rfl⟩
  | unlock waiter =>
    cases waiter <;>
    · obtain ⟨rfl, rfl⟩ := by simpa [ResumeOne.step] using h
      exact .inl ⟨rfl, rfl⟩
  | resume waiter =>
    obtain ⟨rfl, rfl⟩ := by simpa [ResumeOne.step] using h
    exact .inl ⟨rfl, rfl⟩

omit [DecidableEq τ] in
/-- `resume_one` returns whether it has resumed a waiter. -/
theorem ResumeOne.step_returns {t : τ} {q q' : Queue τ} {r : ResumeOne τ} {served : Bool}
    (h : r.step t q = some (q', .inr served)) :
    (∃ waiter, r = .resume waiter) ∧ served = true ∨ r = .unlock none ∧ served = false := by
  cases r with
  | lock =>
    obtain ⟨q₁, hq, he⟩ := Option.map_eq_some_iff.1 h
    simp at he
  | popFront => simp [ResumeOne.step] at h
  | unlock waiter =>
    cases waiter with
    | none =>
      obtain ⟨-, rfl⟩ := by simpa [ResumeOne.step] using h
      exact .inr ⟨rfl, rfl⟩
    | some waiter => simp [ResumeOne.step] at h
  | resume waiter =>
    obtain ⟨-, rfl⟩ := by simpa [ResumeOne.step] using h
    exact .inl ⟨⟨waiter, rfl⟩, rfl⟩

omit [DecidableEq τ] in
/-- A step of `resume_one` leaves the list and what it owes, takes one waiter, or finds
nobody. -/
theorem ResumeOne.step_takes {t : τ} {q q' : Queue τ} {r : ResumeOne τ} {o : ResumeOne τ ⊕ Bool}
    (h : r.step t q = some (q', o)) :
    Takes q q' r.view.critical r.owes (o.elim ResumeOne.owes fun _ => 0) := by
  rcases r.step_pops h with ⟨hq, ho⟩ | ⟨rfl, hq, rfl⟩
  · exact .stays hq ho
  · cases hw : q.waiters with
    | nil => exact .finds rfl hw (by simp [hq, hw]) rfl
    | cons waiter rest => exact .pops (by simp [hq, hw]) rfl

omit [DecidableEq τ] in
/-- The loop leaves the list alone. -/
theorem DoResumeAll.step_waiters (q : Queue τ) (d : DoResumeAll τ) :
    (d.step q).1.waiters = q.waiters := by
  cases d with
  | popFront l => cases l <;> rfl
  | resume waiter rest => rfl

omit [DecidableEq τ] in
/-- So does a step of `resume_n`. -/
theorem ResumeN.step_takes {t : τ} {q q' : Queue τ} {r : ResumeN τ} {o : ResumeN τ ⊕ ℕ}
    (h : r.step t q = some (q', o)) :
    Takes q q' r.view.critical r.owes (o.elim ResumeN.owes fun _ => 0) := by
  cases r with
  | enter n =>
    obtain ⟨rfl, rfl⟩ := by simpa [ResumeN.step] using h
    refine .stays rfl ?_
    split_ifs with hn
    · exact hn.symm
    · rfl
  | lock n =>
    obtain ⟨q₁, hq, he⟩ := Option.map_eq_some_iff.1 h
    obtain ⟨rfl, rfl⟩ := by simpa using he
    exact .stays (Queue.acquire_waiters hq) rfl
  | loop n resumed l =>
    simp only [ResumeN.step] at h
    split at h
    · split at h
      · rename_i hw
        obtain ⟨rfl, rfl⟩ := by simpa using h
        exact .finds rfl hw hw rfl
      · rename_i hlt waiter rest hw
        obtain ⟨rfl, rfl⟩ := by simpa using h
        exact .pops (by simp [hw]) (by simp [ResumeN.owes]; omega)
    · rename_i hge
      obtain ⟨rfl, rfl⟩ := by simpa using h
      exact .stays rfl (by simp [ResumeN.owes]; omega)
  | unlock resumed l =>
    obtain ⟨rfl, rfl⟩ := by simpa [ResumeN.step] using h
    exact .stays rfl rfl
  | doResumeAll resumed d =>
    obtain ⟨rfl, rfl⟩ := by simpa [ResumeN.step] using h
    refine .stays (d.step_waiters q) ?_
    cases (d.step q).2 <;> rfl

omit [DecidableEq τ] in
/-- `resume_n` never holds more waiters than the wake-ups it owed. -/
theorem ResumeN.step_within {t : τ} {q q' : Queue τ} {r r' : ResumeN τ}
    (h : r.step t q = some (q', .inl r')) :
    r'.owes + r'.view.hands.length ≤ r.owes + r.view.hands.length := by
  cases r with
  | enter n =>
    simp only [ResumeN.step, Option.some.injEq, Prod.mk.injEq] at h
    split_ifs at h
    · simp at h
    · obtain ⟨-, rfl⟩ := by simpa using h
      simp [ResumeN.owes, ResumeN.view]
  | lock n =>
    obtain ⟨q₁, hq, he⟩ := Option.map_eq_some_iff.1 h
    obtain ⟨rfl, rfl⟩ := by simpa using he
    simp [ResumeN.owes, ResumeN.view]
  | loop n resumed l =>
    simp only [ResumeN.step] at h
    split at h
    · split at h <;> obtain ⟨rfl, rfl⟩ := by simpa using h
      · simp [ResumeN.owes, ResumeN.view]
      · simp [ResumeN.owes, ResumeN.view]
        omega
    · obtain ⟨rfl, rfl⟩ := by simpa using h
      simp [ResumeN.owes, ResumeN.view]
  | unlock resumed l =>
    obtain ⟨rfl, rfl⟩ := by simpa [ResumeN.step] using h
    simp [ResumeN.owes, ResumeN.view, DoResumeAll.view]
  | doResumeAll resumed d =>
    cases d with
    | popFront l =>
      cases l with
      | nil => simp [ResumeN.step, DoResumeAll.step] at h
      | cons waiter rest =>
        obtain ⟨rfl, rfl⟩ := by simpa [ResumeN.step, DoResumeAll.step] using h
        simp [ResumeN.owes, ResumeN.view, DoResumeAll.view]
    | resume waiter rest =>
      obtain ⟨rfl, rfl⟩ := by simpa [ResumeN.step, DoResumeAll.step] using h
      simp [ResumeN.owes, ResumeN.view, DoResumeAll.view]

/-- One for a `resume_all` that has not emptied the list yet. -/
def ResumeAll.owes : ResumeAll τ → ℕ
  | .lock | .swap => 1
  | .unlock _ | .doResumeAll _ => 0

omit [DecidableEq τ] in
/-- A step of `resume_all` leaves the list as it is, or empties it. -/
theorem ResumeAll.step_swaps {t : τ} {q q' : Queue τ} {r : ResumeAll τ} {o : Option (ResumeAll τ)}
    (h : r.step t q = some (q', o)) :
    q'.waiters = q.waiters ∧ o.elim 0 ResumeAll.owes = r.owes ∨
      r = .swap ∧ q'.waiters = [] := by
  cases r with
  | lock =>
    obtain ⟨q₁, hq, he⟩ := Option.map_eq_some_iff.1 h
    obtain ⟨rfl, rfl⟩ := by simpa using he
    exact .inl ⟨Queue.acquire_waiters hq, rfl⟩
  | swap =>
    obtain ⟨rfl, rfl⟩ := by simpa [ResumeAll.step] using h
    exact .inr ⟨rfl, rfl⟩
  | unlock l =>
    obtain ⟨rfl, rfl⟩ := by simpa [ResumeAll.step] using h
    exact .inl ⟨rfl, rfl⟩
  | doResumeAll d =>
    obtain ⟨rfl, rfl⟩ := by simpa [ResumeAll.step] using h
    refine .inl ⟨d.step_waiters q, ?_⟩
    cases (d.step q).2 <;> rfl

/-! ### Permits and the tasks on their way to them -/

/-- While somebody is queued or about to be, `permits` free permits have as many
takers: tasks that are awake, pushed tasks that left the list, and wake-ups
owed. -/
def Supply (permits : ℤ) (q : Queue τ) (awake pushing pushed : ℕ) : Prop :=
  0 < q.waiters.length + pushing → permits + q.waiters.length ≤ awake + pushed

namespace Supply

variable {permits : ℤ} {q q' : Queue τ} {awake awake' pushing pushing' pushed pushed' : ℕ}

omit [DecidableEq τ] in
/-- A step of `wait_if` keeps the supply if the task queues only without a free
permit.  A task that has returned is awake. -/
theorem wait {pred : Bool} {w : WaitIf τ} {r : Option (WaitIf τ)}
    (hm : WaitIf.Moves pred q w q' r) (hpred : pred = true → permits = 0)
    (hlen : q.waiters.length ≤ pushed)
    (ha : awake' + w.awake = awake + r.elim 1 WaitIf.awake)
    (hb : pushing' + w.pushing = pushing + r.elim 0 WaitIf.pushing)
    (hp : pushed' + w.pushed = pushed + r.elim 0 WaitIf.pushed)
    (h : Supply permits q awake pushing pushed) : Supply permits q' awake' pushing' pushed' := by
  have hk := w.kinds
  intro hpos
  cases hm with
  | stays hq ha' hb' hp' =>
    simp only [Option.elim_some] at ha hb hp
    have := h (by rw [hq] at hpos; omega)
    rw [hq]
    omega
  | returns hq hb' =>
    simp only [Option.elim_none] at ha hb hp
    have := h (by rw [hq] at hpos; omega)
    rw [hq]
    omega
  | @begins w' hpr hq ha' ha'' hb'' =>
    have hk' := w'.kinds
    simp only [Option.elim_some] at ha hb hp
    rw [hq, hpred hpr]
    omega
  | @pushes w' sp hq hb' hp' =>
    have hk' := w'.kinds
    simp only [Option.elim_some] at ha hb hp
    have := h (by omega)
    rw [hq, List.length_append, List.length_singleton]
    omega

omit [DecidableEq τ] in
/-- A step of a resumer keeps the supply: a waiter it takes off the list stands in
for the wake-up it owed. -/
theorem resume {critical : Bool} {owes owes' : ℕ} (hm : Takes q q' critical owes owes')
    (hcrit : critical = true → pushing = 0) (ha : awake' + owes = awake + owes')
    (h : Supply permits q awake pushing pushed) : Supply permits q' awake' pushing pushed := by
  intro hpos
  cases hm with
  | stays hq ho =>
    have := h (by rw [hq] at hpos; omega)
    rw [hq]
    omega
  | pops hq ho =>
    have := h (by omega)
    omega
  | finds hc hq hq' ho =>
    rw [hq', List.length_nil, hcrit hc] at hpos
    omega

variable [Fintype τ] {v : τ → View τ}

/-- **A free permit finds a taker.**  While a permit is free and somebody is
queued, a task is awake or owes a wake-up, or a resumer has a waiter in its
hands, or a pushed task was resumed and has not continued. -/
theorem exists_taker (hL : Ledger q v) (h : Supply permits q awake pushing (total View.pushed v))
    (hw : q.waiters ≠ []) (hp : 0 < permits) :
    0 < awake ∨ (∃ u sp, sp ∈ (v u).hands) ∨
      ∃ t sp, (v t).stage = .pushed sp ∧ sp ∈ q.resumed := by
  have := h (by have := List.length_pos_iff.2 hw; omega)
  rcases Nat.eq_zero_or_pos awake with h0 | hpos
  · -- nobody is on the way, so a pushed task was taken off the list
    obtain ⟨t, sp, hst, hsp⟩ := hL.exists_pushed_notMem (by omega)
    rcases hL.pushed_cases hst with hmem | ⟨u, hu⟩ | hres
    · exact absurd hmem hsp
    · exact .inr (.inl ⟨u, sp, hu⟩)
    · exact .inr (.inr ⟨t, sp, hst, hres⟩)
  · exact .inl hpos

end Supply

end WaitQueue
end CoopSync
