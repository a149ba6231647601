/-
# A counting semaphore strands nobody while permits are free

`release(update)` adds `update` permits and takes at most that many waiters off
the queue; a task that barges in through `try_acquire` can be faster than the
woken ones, and a woken task that finds the counter at zero queues again.  Each
free permit has a taker all the same (`Inv.wakes`): the counter and the queue
together are at most the tasks awake in `acquire`, the queued ones that left the
list, and the wake-ups that running `release` calls owe.

The counter is exact on the way (`Inv.permits`): it stays in `[0, max()]`, where
the narrow storage type does not wrap (`storageCast_of_range`).
-/

import CoopSync.Semaphore.Model
import CoopSync.WaitQueue.Wakeups

namespace CoopSync
namespace Semaphore

open WaitQueue

/-- **The storage type holds what is in `[0, max()]`.** -/
theorem storageCast_of_range {leastMaxValue x : ℤ} (h₀ : 0 ≤ x) (h₁ : x ≤ max leastMaxValue) :
    storageCast leastMaxValue x = x := by
  unfold storageCast
  unfold max at h₁
  unfold storageWidth at *
  apply Int.bmod_eq_of_le <;> split_ifs at * <;> omega

variable {τ : Type*}

/-- One for a task in `acquire` that will look at the counter again; the wake-ups
a task in `release` owes. -/
def Local.awake (l : Local τ) : ℕ :=
  match l.pc with
  | .acquireTry _ => 1
  | .acquireWait w => w.awake
  | .releaseAssert update _ => update
  | .releaseResume _ r => r.owes
  | _ => 0

/-- One for a task that has found the counter at zero under the queue's lock. -/
def Local.pushing (l : Local τ) : ℕ :=
  match l.pc with
  | .acquireWait w => w.pushing
  | _ => 0

/-- What a task does on the wait queue. -/
def Local.view (l : Local τ) : View τ :=
  match l.pc with
  | .acquireWait w => w.view
  | .releaseResume _ r => r.view
  | _ => View.idle

/-- One for a task that has been queued and has not continued. -/
def Local.pushed (l : Local τ) : ℕ := l.view.pushed

/-- The update of a `release` that has added its permits and not finished its
`resume_n`. -/
def Local.releasing (l : Local τ) : ℕ :=
  match l.pc with
  | .releaseAssert update _ => update
  | .releaseResume update _ => update
  | _ => 0

/-- A resumer never has more wake-ups, owed and in its hands, than permits it
added. -/
def Local.Within (l : Local τ) : Prop :=
  match l.pc with
  | .releaseResume update r => r.owes + r.view.hands.length ≤ update
  | _ => True

/-- What a step of `try_acquire` does to the counter. -/
inductive TryAcquire.Outcome (leastMaxValue counter : ℤ) : ℤ × (TryAcquire ⊕ Bool) → Prop
  | again {a : TryAcquire} : Outcome leastMaxValue counter (counter, .inl a)
  | wins (h : 0 < counter) :
      Outcome leastMaxValue counter (storageCast leastMaxValue (counter - 1), .inr true)
  | loses : Outcome leastMaxValue counter (counter, .inr false)

/-- `try_acquire` reads the counter again, takes a permit or gives up. -/
theorem TryAcquire.step_outcome (leastMaxValue counter : ℤ) (spurious : Bool) (a : TryAcquire) :
    Outcome leastMaxValue counter (a.step leastMaxValue spurious counter) := by
  cases a with
  | load => exact .again
  | loop current =>
    simp only [TryAcquire.step]
    split_ifs with hpos heq
    · obtain ⟨rfl, -⟩ := heq
      exact .wins hpos
    · exact .again
    · exact .loses

variable [DecidableEq τ] {leastMaxValue desired : ℤ}

/-- The steps of a task, one case for each outcome of a line of the source. -/
inductive Step (leastMaxValue : ℤ) (t : τ) (s : Shared τ) : Local τ → Shared τ → Local τ → Prop
  | callAcquire {m n} : Step leastMaxValue t s ⟨m, n, .outside⟩ s ⟨m, n, .acquireTry .load⟩
  | callTryAcquire {m n} : Step leastMaxValue t s ⟨m, n, .outside⟩ s ⟨m, n, .tryAcquire .load⟩
  | callRelease {m n u} : Step leastMaxValue t s ⟨m, n, .outside⟩ s ⟨m, n, .release u⟩
  | tryAgain {m n a a'} : Step leastMaxValue t s ⟨m, n, .tryAcquire a⟩ s ⟨m, n, .tryAcquire a'⟩
  | tryWins {m n a} (h : 0 < s.counter) :
      Step leastMaxValue t s ⟨m, n, .tryAcquire a⟩
        { s with counter := storageCast leastMaxValue (s.counter - 1) } ⟨m + 1, n, .outside⟩
  | tryLoses {m n a} : Step leastMaxValue t s ⟨m, n, .tryAcquire a⟩ s ⟨m, n, .outside⟩
  | acquireAgain {m n a a'} :
      Step leastMaxValue t s ⟨m, n, .acquireTry a⟩ s ⟨m, n, .acquireTry a'⟩
  | acquireWins {m n a} (h : 0 < s.counter) :
      Step leastMaxValue t s ⟨m, n, .acquireTry a⟩
        { s with counter := storageCast leastMaxValue (s.counter - 1) } ⟨m + 1, n, .outside⟩
  | acquireLoses {m n a} :
      Step leastMaxValue t s ⟨m, n, .acquireTry a⟩ s ⟨m, n, .acquireWait .fastPath⟩
  | wait {m n w q r} (hw : w.step t (s.counter = 0) s.waiters = some (q, r)) :
      Step leastMaxValue t s ⟨m, n, .acquireWait w⟩ { s with waiters := q }
        ⟨m, n, r.elim (.acquireTry .load) .acquireWait⟩
  | releaseNothing {m n} : Step leastMaxValue t s ⟨m, n, .release 0⟩ s ⟨m, n, .outside⟩
  | releaseSome {m n u} : Step leastMaxValue t s ⟨m, n, .release u⟩ s ⟨m, n, .releaseAdd u⟩
  | releaseAdd {m n u} :
      Step leastMaxValue t s ⟨m, n, .releaseAdd u⟩ (s.fetchAdd leastMaxValue u)
        ⟨m, n + u, .releaseAssert u s.counter⟩
  | releaseAssert {m n u p} :
      Step leastMaxValue t s ⟨m, n, .releaseAssert u p⟩ s ⟨m, n, .releaseResume u (.enter u)⟩
  | resume {m n u r q o} (hr : r.step t s.waiters = some (q, o)) :
      Step leastMaxValue t s ⟨m, n, .releaseResume u r⟩ { s with waiters := q }
        ⟨m, n, o.elim (.releaseResume u) fun _ => .outside⟩

/-- Every step is one of these. -/
theorem step_of_next {t : τ} {a : Act} {s s' : Shared τ} {l l' : Local τ}
    (h : next leastMaxValue t a s l = some (s', l')) : Step leastMaxValue t s l s' l' := by
  obtain ⟨m, n, pc⟩ := l
  cases a with
  | acquire | tryAcquire | release update =>
    cases pc <;> simp only [next, reduceCtorEq, Option.some.injEq, Prod.mk.injEq] at h
    obtain ⟨rfl, rfl⟩ := h
    constructor
  | step spurious =>
    cases pc with
    | outside => simp [next] at h
    | tryAcquire a =>
      have ho := a.step_outcome leastMaxValue s.counter spurious
      simp only [next] at h
      generalize a.step leastMaxValue spurious s.counter = r at h ho
      cases ho <;> obtain ⟨rfl, rfl⟩ := by simpa using h
      · exact .tryAgain
      · exact .tryWins ‹_›
      · exact .tryLoses
    | acquireTry a =>
      have ho := a.step_outcome leastMaxValue s.counter spurious
      simp only [next] at h
      generalize a.step leastMaxValue spurious s.counter = r at h ho
      cases ho <;> obtain ⟨rfl, rfl⟩ := by simpa using h
      · exact .acquireAgain
      · exact .acquireWins ‹_›
      · exact .acquireLoses
    | acquireWait w =>
      obtain ⟨⟨q, r⟩, hw, he⟩ := Option.map_eq_some_iff.1 h
      obtain ⟨rfl, rfl⟩ := by simpa using he
      exact .wait hw
    | release update =>
      obtain ⟨rfl, rfl⟩ := by simpa [next] using h
      split_ifs with hu
      · exact hu ▸ .releaseNothing
      · exact .releaseSome
    | releaseAdd update =>
      obtain ⟨rfl, rfl⟩ := by simpa [next] using h
      exact .releaseAdd
    | releaseAssert update prev =>
      obtain ⟨rfl, rfl⟩ := by simpa [next] using h
      exact .releaseAssert
    | releaseResume update r =>
      obtain ⟨⟨q, o⟩, hr, he⟩ := Option.map_eq_some_iff.1 h
      obtain ⟨rfl, rfl⟩ := by simpa using he
      exact .resume hr

/-- What a step does on the wait queue is an effect of the queue's code. -/
theorem Step.effect {t : τ} {s s' : Shared τ} {l l' : Local τ}
    (h : Step leastMaxValue t s l s' l') : Effect t s.waiters l.view s'.waiters l'.view := by
  cases h with
  | @wait m n w q r hw => cases r <;> exact w.effect hw
  | @resume m n u r q o hr => cases o <;> exact r.effect hr
  | _ => exact .stay

variable [Fintype τ]

/-- The ledger of the queue holds in every run. -/
theorem ledger {ok : Config τ (Shared τ) (Local τ) → τ → Act → Prop}
    {c : Config τ (Shared τ) (Local τ)} (h : Reach (next leastMaxValue) ok
      (start τ leastMaxValue desired) c) :
    Ledger c.shared.waiters fun t => (c.loc t).view :=
  Ledger.of_reach Shared.waiters Local.view rfl (fun _ => rfl)
    (fun _ _ _ _ _ _ hn => (step_of_next hn).effect) h

/-- What holds of every configuration in which releases stay within `max()`. -/
structure Inv (leastMaxValue desired : ℤ) (c : Config τ (Shared τ) (Local τ)) : Prop where
  nonneg : 0 ≤ c.shared.counter
  le_max : c.shared.counter ≤ max leastMaxValue
  /-- The counter is what was released and not acquired. -/
  permits : c.shared.counter + total Local.acquired c.loc =
    desired + total Local.released c.loc
  /-- Permits that somebody waits for have takers. -/
  wakes : Supply c.shared.counter c.shared.waiters (total Local.awake c.loc)
    (total Local.pushing c.loc) (total Local.pushed c.loc)
  within : ∀ t, (c.loc t).Within

omit [DecidableEq τ] [Fintype τ] in
/-- Who is about to push holds the queue's lock. -/
theorem critical_of_pushing {l : Local τ} (h : 0 < l.pushing) : l.view.critical = true := by
  obtain ⟨m, n, pc⟩ := l
  cases pc with
  | acquireWait w => exact w.critical_of_pushing h
  | _ => simp [Local.pushing] at h

omit [Fintype τ] in
/-- A step keeps what a task has read within the range of the counter. -/
theorem Step.within {t : τ} {s s' : Shared τ} {l l' : Local τ} (h : Step leastMaxValue t s l s' l')
    (hw : l.Within) : l'.Within := by
  cases h with
  | @resume m n u r q o hr =>
    cases o with
    | inl r' => exact (r.step_within hr).trans hw
    | inr k => trivial
  | releaseAssert => simp [Local.Within, ResumeN.owes, ResumeN.view]
  | @wait m n w q r hw => cases r <;> trivial
  | _ => trivial

/-- A step within `max()` keeps the invariant. -/
theorem inv_step {c : Config τ (Shared τ) (Local τ)} {t : τ} {a : Act} {s : Shared τ} {l : Local τ}
    (hL : Ledger c.shared.waiters fun t => (c.loc t).view) (h : Inv leastMaxValue desired c)
    (hok : WithinMax leastMaxValue c t a) (hs : Step leastMaxValue t c.shared (c.loc t) s l) :
    Inv leastMaxValue desired ⟨s, Function.update c.loc t l⟩ := by
  obtain ⟨hnn, hle, hperm, hwake, hwith⟩ := h
  have hwith' : ∀ u, (Function.update c.loc t l u).Within := by
    intro u
    rcases eq_or_ne u t with rfl | hne
    · rw [Function.update_self]
      exact hs.within (hwith u)
    · rw [Function.update_of_ne hne]
      exact hwith u
  have hlen : c.shared.waiters.waiters.length ≤ total Local.pushed c.loc := hL.length_le_pushed
  have hzero := hL.total_eq_zero_of_critical (t := t) fun _ => critical_of_pushing
  have hm := total_update Local.acquired c.loc t l
  have hn := total_update Local.released c.loc t l
  have ha := total_update Local.awake c.loc t l
  have hb := total_update Local.pushing c.loc t l
  have hp := total_update Local.pushed c.loc t l
  unfold WithinMax at hok
  generalize Function.update c.loc t l = loc' at *
  generalize c.loc t = l₀ at *
  cases hs with
  | callAcquire | callTryAcquire | callRelease | tryAgain | tryLoses | acquireAgain |
    acquireLoses | releaseNothing | releaseSome | releaseAssert =>
    simp [Local.awake, Local.pushing, Local.pushed, Local.view, WaitIf.awake,
      WaitIf.pushing, WaitIf.pushed, ResumeN.owes] at hm hn ha hb hp
    refine ⟨hnn, hle, by simp only; omega, fun hpos => ?_, hwith'⟩
    have := hwake (by simp only at hpos; omega)
    simp only
    omega
  | tryWins hc | acquireWins hc =>
    simp [Local.awake, Local.pushing, Local.pushed, Local.view] at hm hn ha hb hp
    have hcast : storageCast leastMaxValue (c.shared.counter - 1) = c.shared.counter - 1 :=
      storageCast_of_range (by omega) (by omega)
    refine ⟨by simp only [hcast]; omega, by simp only [hcast]; omega, by simp only [hcast]; omega,
      fun hpos => ?_, hwith'⟩
    have := hwake (by simp only at hpos; omega)
    simp only [hcast]
    omega
  | @wait m n w q r hw =>
    refine ⟨hnn, hle, by cases r <;> simpa using by simp at hm hn; omega,
      hwake.wait (w.step_moves hw) (fun hc => by simpa using hc) hlen ?_ ?_ ?_, hwith'⟩
    · cases r <;> simpa [Local.awake] using ha
    · cases r <;> simpa [Local.pushing] using hb
    · cases r <;> simpa [Local.pushed, Local.view] using hp
  | @releaseAdd m n u =>
    simp [Local.awake, Local.pushing, Local.pushed, Local.view] at hm hn ha hb hp
    have hroom : (u : ℤ) ≤ max leastMaxValue - c.shared.counter := hok
    have hcast : (c.shared.fetchAdd leastMaxValue u).counter = c.shared.counter + u := by
      simp only [Shared.fetchAdd]
      rw [storageCast_of_range (x := (u : ℤ)) (by omega) (by omega),
        storageCast_of_range (by omega) (by omega)]
    refine ⟨by rw [hcast]; omega, by rw [hcast]; omega, by simp only [hcast]; omega,
      fun hpos => ?_, hwith'⟩
    have := hwake (by simp only [Shared.fetchAdd] at hpos; omega)
    simp only [hcast]
    simp only [Shared.fetchAdd]
    omega
  | @resume m n u r q o hr =>
    have hb' : total Local.pushing loc' = total Local.pushing c.loc := by
      cases o <;> simpa [Local.pushing] using hb
    have hp' : total Local.pushed loc' = total Local.pushed c.loc := by
      cases o <;> simpa [Local.pushed, Local.view] using hp
    refine ⟨hnn, hle, by cases o <;> simp at hm hn <;> simp only <;> omega, ?_, hwith'⟩
    rw [hb', hp']
    refine hwake.resume (r.step_takes hr) (fun hc => hzero hc rfl) ?_
    cases o <;> simpa [Local.awake] using ha

/-- The invariant holds in every run within `max()`. -/
theorem inv_of_reach (h₀ : 0 ≤ desired) (h₁ : desired ≤ max leastMaxValue)
    {c : Config τ (Shared τ) (Local τ)}
    (h : Reach (next leastMaxValue) (WithinMax leastMaxValue) (start τ leastMaxValue desired) c) :
    Inv leastMaxValue desired c := by
  refine h.invariant ?_ fun c t a s l hr hi hok hn => inv_step (ledger hr) hi hok (step_of_next hn)
  have hcast : (start τ leastMaxValue desired).shared.counter = desired :=
    storageCast_of_range h₀ h₁
  refine ⟨hcast.symm ▸ h₀, hcast.symm ▸ h₁, ?_, fun hpos => ?_, fun _ => trivial⟩
  · rw [hcast, show total Local.acquired (start τ leastMaxValue desired).loc = 0 from
      total_const_zero rfl, show total Local.released (start τ leastMaxValue desired).loc = 0 from
      total_const_zero rfl]
  · rw [show total Local.pushing (start τ leastMaxValue desired).loc = 0 from
      total_const_zero rfl] at hpos
    simp [start, Queue.init] at hpos

/-! ### The semaphore as its users see it -/

/-- The task is in `acquire` and not suspended: it is not queued, or it is queued
and has been resumed. -/
def Local.awakeInAcquire (q : Queue τ) (l : Local τ) : Bool :=
  match l.pc with
  | .acquireTry _ => true
  | .acquireWait (.queued sp) => sp ∈ q.resumed
  | .acquireWait _ => true
  | _ => false

/-- The wake-ups a task in `release` owes. -/
def Local.owes (l : Local τ) : ℕ :=
  match l.pc with
  | .releaseAssert update _ => update
  | .releaseResume _ r => r.owes
  | _ => 0

omit [Fintype τ] in
/-- A task on the way to a permit, counted by the invariant, is awake in
`acquire` or owes wake-ups. -/
theorem awake_le (q : Queue τ) (l : Local τ) :
    l.awake + (if l.view.wokenIn q then 1 else 0) ≤
      (if l.awakeInAcquire q then 1 else 0) + l.owes := by
  obtain ⟨m, n, pc⟩ := l
  cases pc with
  | acquireWait w =>
    cases w with
    | unlockQueued sp =>
      by_cases hr : sp ∈ q.resumed <;>
        simp [Local.awake, Local.view, Local.awakeInAcquire, WaitIf.awake, WaitIf.view,
          View.wokenIn, hr]
    | _ => simp [Local.awake, Local.view, Local.awakeInAcquire, WaitIf.awake, WaitIf.view,
        View.wokenIn]
  | releaseResume u r => simp [Local.awake, Local.view, Local.owes, View.wokenIn]
  | _ => simp [Local.awake, Local.view, Local.awakeInAcquire, Local.owes, View.wokenIn, View.idle]

omit [DecidableEq τ] [Fintype τ] in
/-- What a resumer owes and holds is within the permits its `release` added. -/
theorem owes_le {l : Local τ} (h : l.Within) : l.owes + l.view.hands.length ≤ l.releasing := by
  obtain ⟨m, n, pc⟩ := l
  cases pc with
  | acquireWait w => cases w <;> simp [Local.owes, Local.view, WaitIf.view]
  | releaseResume u r => exact h
  | _ => simp [Local.owes, Local.view, View.idle, Local.releasing]

/-- **Permits that somebody waits for have takers**: they are no more than the
tasks awake in `acquire` and the permits whose `release` has not finished
resuming. -/
theorem counter_le {c : Config τ (Shared τ) (Local τ)}
    (hL : Ledger c.shared.waiters fun t => (c.loc t).view) (h : Inv leastMaxValue desired c)
    (hw : c.shared.waiters.waiters ≠ []) :
    c.shared.counter ≤ (Finset.univ.filter fun t =>
        (c.loc t).awakeInAcquire c.shared.waiters = true).card + total Local.releasing c.loc := by
  have hwakes := h.wakes (by have := List.length_pos_iff.2 hw; omega)
  have hpushed : total Local.pushed c.loc ≤ _ := hL.pushed_le
  have hawake := Finset.sum_le_sum fun t (_ : t ∈ Finset.univ) =>
    awake_le c.shared.waiters (c.loc t)
  have howes := Finset.sum_le_sum fun t (_ : t ∈ Finset.univ) => owes_le (h.within t)
  rw [Finset.sum_add_distrib, Finset.sum_add_distrib, ← Finset.card_filter, ← Finset.card_filter]
    at hawake
  rw [Finset.sum_add_distrib] at howes
  simp only [total] at *
  omega

end Semaphore
end CoopSync
