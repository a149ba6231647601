/-
# The binary semaphore strands nobody, and neither does the counting one

`counting_semaphore<1>` is the mutex's argument with the flag turned round: a set
flag is one free permit.  Two releases may overlap here and a release may find
the flag set, and the account still holds: whoever sets the flag owes a wake-up,
and a set flag is one permit however often it was set.

The last theorem puts the two implementations together.
-/

import CoopSync.Semaphore.Permits

namespace CoopSync
namespace Semaphore
namespace Binary

open WaitQueue

variable {τ : Type*}

/-- One for a task in `acquire` that will look at the flag again, or a task in
`release` that owes a wake-up. -/
def Pc.awake : Pc τ → ℕ
  | .acquireTry => 1
  | .acquireWait w => w.awake
  | .releaseResume r => r.owes
  | _ => 0

/-- One for a task that has found the flag clear under the queue's lock. -/
def Pc.pushing : Pc τ → ℕ
  | .acquireWait w => w.pushing
  | _ => 0

/-- What a task does on the wait queue. -/
def Pc.view : Pc τ → View τ
  | .acquireWait w => w.view
  | .releaseResume r => r.view
  | _ => View.idle

/-- One for a task that has been queued and has not continued. -/
def Pc.pushed (pc : Pc τ) : ℕ := pc.view.pushed

variable [DecidableEq τ]

/-- The steps of a task, one case for each outcome of a line of the source. -/
inductive Step (t : τ) (s : Shared τ) : Pc τ → Shared τ → Pc τ → Prop
  | callAcquire : Step t s .outside s .acquireTry
  | callTryAcquire : Step t s .outside s .tryAcquire
  | callRelease {u} : Step t s .outside s (.release u)
  | tryFails (hs : s.available = false) : Step t s .tryAcquire s .outside
  | tryWins (hs : s.available = true) :
      Step t s .tryAcquire { s with available := false } .outside
  | acquireFails (hs : s.available = false) : Step t s .acquireTry s (.acquireWait .fastPath)
  | acquireWins (hs : s.available = true) :
      Step t s .acquireTry { s with available := false } .outside
  | wait {w q r} (hw : w.step t (!s.available) s.waiters = some (q, r)) :
      Step t s (.acquireWait w) { s with waiters := q } (r.elim .acquireTry .acquireWait)
  | releaseNothing : Step t s (.release 0) s .outside
  | releaseSome {u} : Step t s (.release u) s .releaseAssert
  | releaseAssert : Step t s .releaseAssert s .releaseStore
  | releaseStore :
      Step t s .releaseStore { s with available := true } (.releaseResume .lock)
  | resume {r q o} (hr : r.step t s.waiters = some (q, o)) :
      Step t s (.releaseResume r) { s with waiters := q }
        (o.elim .releaseResume fun _ => .outside)

/-- Every step is one of these. -/
theorem step_of_next {t : τ} {a : Act} {s s' : Shared τ} {pc pc' : Pc τ}
    (h : next t a s pc = some (s', pc')) : Step t s pc s' pc' := by
  cases a with
  | acquire | tryAcquire | release u =>
    cases pc <;> simp only [next, reduceCtorEq, Option.some.injEq, Prod.mk.injEq] at h
    obtain ⟨rfl, rfl⟩ := h
    constructor
  | step =>
    cases pc with
    | outside => simp [next] at h
    | tryAcquire | acquireTry =>
      cases hs : s.available <;> simp [next, Shared.tryAcquire, hs] at h <;>
        obtain ⟨rfl, rfl⟩ := h <;> constructor <;> exact hs
    | acquireWait w =>
      obtain ⟨⟨q, r⟩, hw, he⟩ := Option.map_eq_some_iff.1 h
      obtain ⟨rfl, rfl⟩ := by simpa using he
      exact .wait hw
    | release u =>
      obtain ⟨rfl, rfl⟩ := by simpa [next] using h
      split_ifs with hu
      · exact hu ▸ .releaseNothing
      · exact .releaseSome
    | releaseAssert | releaseStore =>
      obtain ⟨rfl, rfl⟩ := by simpa [next] using h
      constructor
    | releaseResume r =>
      obtain ⟨⟨q, o⟩, hr, he⟩ := Option.map_eq_some_iff.1 h
      obtain ⟨rfl, rfl⟩ := by simpa using he
      exact .resume hr

/-- What a step does on the wait queue is an effect of the queue's code. -/
theorem Step.effect {t : τ} {s s' : Shared τ} {pc pc' : Pc τ} (h : Step t s pc s' pc') :
    Effect t s.waiters pc.view s'.waiters pc'.view := by
  cases h with
  | @wait w q r hw => cases r <;> exact w.effect hw
  | @resume r q o hr => cases o <;> exact r.effect hr
  | _ => exact .stay

variable [Fintype τ] {desired : Bool} {c : Config τ (Shared τ) (Pc τ)}

/-- The ledger of the queue holds in every run. -/
theorem ledger {ok : Config τ (Shared τ) (Pc τ) → τ → Act → Prop}
    (h : Reach next ok (start τ desired) c) : Ledger c.shared.waiters fun t => (c.loc t).view :=
  Ledger.of_reach Shared.waiters Pc.view rfl (fun _ => rfl)
    (fun _ _ _ _ _ _ hn => (step_of_next hn).effect) h

/-- A set flag that somebody waits for has somebody coming. -/
def Inv (c : Config τ (Shared τ) (Pc τ)) : Prop :=
  Supply c.shared.available.toNat c.shared.waiters (total Pc.awake c.loc)
    (total Pc.pushing c.loc) (total Pc.pushed c.loc)

omit [DecidableEq τ] [Fintype τ] in
/-- Who is about to push holds the queue's lock. -/
theorem critical_of_pushing {pc : Pc τ} (h : 0 < pc.pushing) : pc.view.critical = true := by
  cases pc with
  | acquireWait w => exact w.critical_of_pushing h
  | _ => simp [Pc.pushing] at h

/-- A step keeps the invariant. -/
theorem inv_step {t : τ} {s : Shared τ} {pc : Pc τ}
    (hL : Ledger c.shared.waiters fun t => (c.loc t).view) (h : Inv c)
    (hs : Step t c.shared (c.loc t) s pc) : Inv ⟨s, Function.update c.loc t pc⟩ := by
  unfold Inv at h ⊢
  have hlen : c.shared.waiters.waiters.length ≤ total Pc.pushed c.loc := hL.length_le_pushed
  have hzero := hL.total_eq_zero_of_critical (t := t) fun _ => critical_of_pushing
  have ha := total_update Pc.awake c.loc t pc
  have hb := total_update Pc.pushing c.loc t pc
  have hp := total_update Pc.pushed c.loc t pc
  generalize Function.update c.loc t pc = loc' at *
  generalize c.loc t = pc₀ at *
  cases hs with
  | callAcquire | callTryAcquire | callRelease | tryFails | acquireFails | releaseNothing |
    releaseSome | releaseAssert =>
    simp [Pc.awake, Pc.pushing, Pc.pushed, Pc.view, WaitIf.awake, WaitIf.pushing,
      WaitIf.pushed] at ha hb hp
    intro hpos
    have := h (by simp only at hpos; omega)
    simp only
    omega
  | tryWins hs | acquireWins hs =>
    simp [Pc.awake, Pc.pushing, Pc.pushed, Pc.view] at ha hb hp
    intro hpos
    simp
    omega
  | @wait w q r hw =>
    refine h.wait (w.step_moves hw) (fun hs => by simpa using hs) hlen ?_ ?_ ?_
    · cases r <;> simpa [Pc.awake] using ha
    · cases r <;> simpa [Pc.pushing] using hb
    · cases r <;> simpa [Pc.pushed, Pc.view] using hp
  | releaseStore =>
    simp [Pc.awake, Pc.pushing, Pc.pushed, Pc.view, ResumeOne.owes] at ha hb hp
    intro hpos
    simp
    omega
  | @resume r q o hr =>
    have hb' : total Pc.pushing loc' = total Pc.pushing c.loc := by
      cases o <;> simpa [Pc.pushing] using hb
    have hp' : total Pc.pushed loc' = total Pc.pushed c.loc := by
      cases o <;> simpa [Pc.pushed, Pc.view] using hp
    rw [hb', hp']
    refine h.resume (r.step_takes hr) (fun hc => hzero hc rfl) ?_
    cases o <;> simpa [Pc.awake] using ha

/-- The invariant holds in every run. -/
theorem inv_of_reach {ok : Config τ (Shared τ) (Pc τ) → τ → Act → Prop}
    (h : Reach next ok (start τ desired) c) : Inv c := by
  refine h.invariant (fun hpos => ?_) fun c t a s l hr hi _ hn =>
    inv_step (ledger hr) hi (step_of_next hn)
  rw [show total Pc.pushing (start τ desired).loc = 0 from total_const_zero rfl] at hpos
  simp [start, Queue.init] at hpos

/-- The task is in `acquire` and not suspended: it is not queued, or it is queued
and has been resumed. -/
def Pc.awakeInAcquire (q : Queue τ) : Pc τ → Bool
  | .acquireTry => true
  | .acquireWait (.queued sp) => sp ∈ q.resumed
  | .acquireWait _ => true
  | _ => false

/-- The task's `release` has set the flag and not finished its `resume_one`. -/
def Pc.Releasing (pc : Pc τ) : Prop := ∃ r, pc = .releaseResume r

omit [DecidableEq τ] [Fintype τ] in
/-- Who has taken a waiter off the list is in `release()`. -/
theorem releasing_of_hands {pc : Pc τ} {sp : SuspendPoint τ} (h : sp ∈ pc.view.hands) :
    pc.Releasing := by
  cases pc with
  | releaseResume r => exact ⟨r, rfl⟩
  | acquireWait w => cases w <;> simp [Pc.view, WaitIf.view] at h
  | _ => simp [Pc.view, View.idle] at h

omit [Fintype τ] in
/-- A task that has been resumed is awake in `acquire()`. -/
theorem awakeInAcquire_of_resumed {q : Queue τ} {pc : Pc τ} {sp : SuspendPoint τ}
    (h : pc.view.stage = .pushed sp) (hr : sp ∈ q.resumed) : pc.awakeInAcquire q = true := by
  cases pc with
  | acquireWait w => cases w <;> simp_all [Pc.view, WaitIf.view, Pc.awakeInAcquire]
  | releaseResume r => simp [Pc.view] at h
  | _ => simp [Pc.view, View.idle] at h

/-- While the flag is set and somebody is queued, a task is awake in `acquire` or
a `release` has not finished. -/
theorem exists_coming (hL : Ledger c.shared.waiters fun t => (c.loc t).view) (h : Inv c)
    (ha : c.shared.available = true) (hw : c.shared.waiters.waiters ≠ []) :
    ∃ t, (c.loc t).awakeInAcquire c.shared.waiters = true ∨ (c.loc t).Releasing := by
  rcases h.exists_taker hL hw (by simp [ha]) with hpos | ⟨u, sp, hu⟩ | ⟨t, sp, hst, hres⟩
  · obtain ⟨t, ht⟩ := total_pos.1 hpos
    refine ⟨t, ?_⟩
    cases hpc : c.loc t with
    | acquireTry => exact .inl rfl
    | acquireWait w =>
      rw [hpc] at ht
      cases w <;> simp_all [Pc.awake, WaitIf.awake, Pc.awakeInAcquire]
    | releaseResume r => exact .inr ⟨r, rfl⟩
    | _ => simp [Pc.awake, hpc] at ht
  · exact ⟨u, .inr (releasing_of_hands hu)⟩
  · exact ⟨t, .inl (awakeInAcquire_of_resumed hst hres)⟩

end Binary

/-! ### Both implementations -/

variable {τ : Type*} [DecidableEq τ] [Fintype τ]

/-- **Semaphores leave no waiter suspended while permits are available.**  In
every configuration of every run of a counting semaphore whose updates stay
within `max()`, a non-empty queue bounds the counter by the tasks awake in
`acquire` and the updates of the `release` calls that have added their permits and
not finished `resume_n`; with none of either the counter is zero.  In every
configuration of a binary semaphore a non-empty queue and a set flag come with a
task awake in `acquire` or a `release` that has not finished `resume_one`. -/
theorem no_waiter_while_permits (leastMaxValue desired : ℤ) (h₀ : 0 ≤ desired)
    (h₁ : desired ≤ max leastMaxValue) (available : Bool) :
    (∀ c, Reach (next leastMaxValue) (WithinMax leastMaxValue) (start τ leastMaxValue desired) c →
      c.shared.waiters.waiters ≠ [] →
        c.shared.counter ≤ (Finset.univ.filter fun t =>
            (c.loc t).awakeInAcquire c.shared.waiters = true).card + total Local.releasing c.loc ∧
        ((∀ t, (c.loc t).releasing = 0 ∧ (c.loc t).awakeInAcquire c.shared.waiters = false) →
          c.shared.counter = 0)) ∧
      ∀ c, Reachable Binary.next (Binary.start τ available) c → c.shared.waiters.waiters ≠ [] →
        c.shared.available = true →
          ∃ t, (c.loc t).awakeInAcquire c.shared.waiters = true ∨ (c.loc t).Releasing := by
  refine ⟨fun c hc hw => ?_, fun c hc hw ha =>
    Binary.exists_coming (Binary.ledger hc) (Binary.inv_of_reach hc) ha hw⟩
  have hI := inv_of_reach h₀ h₁ hc
  have hle := counter_le (ledger hc) hI hw
  refine ⟨hle, fun hnone => le_antisymm ?_ hI.nonneg⟩
  have hawake : (Finset.univ.filter fun t =>
      (c.loc t).awakeInAcquire c.shared.waiters = true) = ∅ :=
    Finset.filter_eq_empty_iff.2 fun t _ => by simp [(hnone t).2]
  have hrel : total Local.releasing c.loc = 0 := total_eq_zero.2 fun t => (hnone t).1
  simpa [hawake, hrel] using hle

/-- Task `1` queues, task `0` releases two permits and stops before `resume_n`. -/
def twoPermits : List (Fin 2 × Act) :=
  turns [(1, 1, .acquire), (1, 8, .step false), (0, 1, .release 2), (0, 3, .step false)]

/-- The theorem at two free permits and a waiter the release still has to
resume. -/
theorem no_waiter_while_permits_released :
    ∃ c, (start (Fin 2) 4 0).exec (next 4) twoPermits = some c ∧ c.shared.counter = 2 ∧
      c.shared.waiters.waiters = [⟨1, 0⟩] ∧
      c.shared.counter ≤ (Finset.univ.filter fun t =>
        (c.loc t).awakeInAcquire c.shared.waiters = true).card + total Local.releasing c.loc := by
  refine ⟨_, rfl, rfl, rfl, ?_⟩
  have hreach : Reach (next 4) (WithinMax 4) (start (Fin 2) 4 0) _ :=
    reach_of_exec (l := twoPermits) rfl (by decide)
  exact ((no_waiter_while_permits 4 0 (by decide) (by decide) false).1 _ hreach (by decide)).1

end Semaphore
end CoopSync
