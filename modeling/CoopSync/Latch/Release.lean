/-
# The latch releases its waiters at zero

What is left of the counter is what the calls made so far have left, and what those
calls have not taken yet (`Inv.account`), so it does not fall below zero while the
updates add up to at most the initial count.  The decrement that reaches zero is the one
that resumes everybody: a task in the queue waits for a counter that is not zero, or
for a `resume_all` under way (`Inv.attended`), and nobody is resumed before
(`Inv.settled`).
-/

import CoopSync.Latch.Model
import CoopSync.WaitQueue.Release

namespace CoopSync
namespace Latch

open WaitQueue

variable {τ : Type*}

/-- Where a task stands in the code of the queue. -/
def Local.place (l : Local τ) : WaitQueue.Pc τ :=
  match l.pc with
  | .resumeAll _ r => .resumeAll r
  | .waitIf w => .waitIf w
  | _ => .idle

/-- The update of a call that has not taken it off the counter. -/
def Local.pending (l : Local τ) : ℕ :=
  match l.pc with
  | .fetchSub _ update => update
  | _ => 0

/-- Between the decrement that reached zero and the end of its `resume_all`. -/
def Local.resuming (l : Local τ) : Bool :=
  match l.pc with
  | .resumeAll _ _ => true
  | _ => false

/-- Still to be suspended in this call of `wait`, if at all. -/
def Local.unsuspended (l : Local τ) : ℕ :=
  match l.pc with
  | .fastPath => 1
  | .waitIf w => w.unsuspended
  | _ => 0

variable [DecidableEq τ]

/-- The steps of a task. -/
inductive Step (t : τ) (s : Shared τ) : Local τ → Shared τ → Local τ → Prop
  /-- `count_down` or `arrive_and_wait` is called -/
  | call {b} (k : After) (update : ℕ) :
      Step t s ⟨b, .outside⟩ { s with requested := s.requested + update } ⟨b, .fetchSub k update⟩
  | callWait {b} : Step t s ⟨b, .outside⟩ s (.enterWait t s.waiters)
  | callTryWait {b} : Step t s ⟨b, .outside⟩ s ⟨b, .tryWait⟩
  | reachesZero {b k} {update : ℕ} (hs : s.counter = update) :
      Step t s ⟨b, .fetchSub k update⟩ { s with counter := s.counter - update }
        ⟨b, .resumeAll k .lock⟩
  | takes {b k} {update : ℕ} (hs : s.counter ≠ update) :
      Step t s ⟨b, .fetchSub k update⟩ { s with counter := s.counter - update }
        (k.enter t s.waiters b)
  | resumeAll {b k r q r'} (hr : r.step t s.waiters = some (q, some r')) :
      Step t s ⟨b, .resumeAll k r⟩ { s with waiters := q } ⟨b, .resumeAll k r'⟩
  | resumedAll {b k r q} (hr : r.step t s.waiters = some (q, none)) :
      Step t s ⟨b, .resumeAll k r⟩ { s with waiters := q } (k.enter t q b)
  | tryWait {b} : Step t s ⟨b, .tryWait⟩ s ⟨b, .outside⟩
  | passes {b} (hs : s.counter = 0) : Step t s ⟨b, .fastPath⟩ s ⟨b, .assertZero⟩
  | waits {b} : Step t s ⟨b, .fastPath⟩ s ⟨b, .waitIf .fastPath⟩
  | waitIf {b w q r} (hw : w.step t (!s.tryWait) s.waiters = some (q, some r)) :
      Step t s ⟨b, .waitIf w⟩ { s with waiters := q } ⟨b, .waitIf r⟩
  | waited {b w q} (hw : w.step t (!s.tryWait) s.waiters = some (q, none)) :
      Step t s ⟨b, .waitIf w⟩ { s with waiters := q } ⟨b, .assertZero⟩
  | returns {b} : Step t s ⟨b, .assertZero⟩ s ⟨b, .outside⟩

/-- Every step is one of these. -/
theorem step_of_next {t : τ} {a : Act} {s s' : Shared τ} {l l' : Local τ}
    (hn : next t a s l = some (s', l')) : Step t s l s' l' := by
  obtain ⟨b, pc⟩ := l
  cases a with
  | step =>
    cases pc with
    | outside => simp [next] at hn
    | fetchSub k update =>
      obtain ⟨rfl, rfl⟩ := by simpa [next] using hn
      split_ifs with hs
      · exact .reachesZero hs
      · exact .takes hs
    | resumeAll k r =>
      obtain ⟨⟨q, o⟩, hr, he⟩ := Option.map_eq_some_iff.1 hn
      obtain ⟨rfl, rfl⟩ := by simpa using he
      cases o
      · exact .resumedAll hr
      · exact .resumeAll hr
    | fastPath =>
      obtain ⟨rfl, rfl⟩ := by simpa [next] using hn
      cases hs : s.tryWait
      · exact .waits
      · exact .passes (by simpa [Shared.tryWait] using hs)
    | waitIf w =>
      obtain ⟨⟨q, r⟩, hw, he⟩ := Option.map_eq_some_iff.1 hn
      obtain ⟨rfl, rfl⟩ := by simpa using he
      cases r
      · exact .waited hw
      · exact .waitIf hw
    | tryWait | assertZero =>
      obtain ⟨rfl, rfl⟩ := by simpa [next] using hn
      constructor
  | countDown update | arriveAndWait update | wait | tryWait =>
    cases pc <;> simp only [next, reduceCtorEq, Option.some.injEq, Prod.mk.injEq] at hn
    obtain ⟨rfl, rfl⟩ := hn
    constructor

section Enter

omit [DecidableEq τ]

variable (k : After) (t : τ) (q : Queue τ) (b : ℕ)

/-- A task that goes on after `count_down` is at the start of `wait()`, or outside. -/
@[simp] theorem enter_place : (k.enter t q b).place = .idle := by
  cases k <;> rfl

@[simp] theorem enter_pending : (k.enter t q b).pending = 0 := by
  cases k <;> rfl

@[simp] theorem enter_not_assertZero : (k.enter t q b).pc ≠ .assertZero := by
  cases k <;> simp [After.enter, Local.enterWait]

/-- A task that enters `wait` may be suspended once more. -/
theorem enter_unsuspended (h : q.suspends t ≤ b + 1) :
    q.suspends t + (k.enter t q b).unsuspended ≤ (k.enter t q b).before + 1 := by
  cases k with
  | «return» => exact h
  | wait => exact le_rfl

end Enter

/-- What a step does in the code of the queue. -/
theorem Step.queue {t : τ} {s s' : Shared τ} {l l' : Local τ} (h : Step t s l s' l') :
    QueueStep t (s.counter ≠ 0) s.waiters l.place s'.waiters l'.place := by
  cases h with
  | takes =>
    rw [enter_place]
    exact .stay
  | reachesZero => exact .call .resumeAll
  | waits => exact .call .waitIf
  | resumeAll hr => exact .resumeAll hr
  | resumedAll hr =>
    rw [enter_place]
    exact .resumeAll hr
  | waitIf hw | waited hw => exact .waitIf hw (by simp [Shared.tryWait])
  | _ => exact .stay

/-- A task gets past its re-check, or to `resume_all`, only at zero. -/
theorem Step.past {t : τ} {s s' : Shared τ} {l l' : Local τ} (h : Step t s l s' l')
    (hp : l'.place.past = true) : l.place.past = true ∨ s'.counter = 0 := by
  cases h with
  | reachesZero hs => exact .inr (by simp [hs])
  | resumeAll => exact .inl rfl
  | waitIf hw =>
    exact (WaitIf.step_past hw hp).imp_right fun hf => by simpa [Shared.tryWait] using hf
  | takes | resumedAll => simp [WaitQueue.Pc.past] at hp
  | _ => simp [Local.place, Local.enterWait, WaitQueue.Pc.past] at hp

variable [Fintype τ] {expected : ℕ} {c : Config τ (Shared τ) (Local τ)} {t : τ} {s : Shared τ}
  {l : Local τ}

/-- What holds of every configuration. -/
structure Inv (expected : ℕ) (c : Config τ (Shared τ) (Local τ)) : Prop where
  account : c.shared.counter + c.shared.requested = expected + total Local.pending c.loc
  within : c.shared.requested ≤ expected
  ledger : Ledger c.shared.waiters fun t => (c.loc t).place.view
  settled : Settled c.shared.waiters (fun t => (c.loc t).place) (c.shared.counter = 0)
  attended : Attended c.shared.waiters (fun t => (c.loc t).place) (fun _ => c.shared.counter ≠ 0)
    (∃ t, 0 < (c.loc t).place.owes)
  asserted : ∀ t, (c.loc t).pc = .assertZero → c.shared.counter = 0
  once : ∀ t, c.shared.waiters.suspends t + (c.loc t).unsuspended ≤ (c.loc t).before + 1

/-- What calls have still to take is left in the counter. -/
theorem Inv.pending_le (h : Inv expected c) (t : τ) : (c.loc t).pending ≤ c.shared.counter := by
  have := le_total Local.pending c.loc t
  have := h.account
  have := h.within
  omega

/-- The accounts of a new latch. -/
theorem inv_start : Inv expected (start τ expected) where
  account := by simp [start, total, Local.pending]
  within := Nat.zero_le _
  ledger := Ledger.init
  settled := .start
  attended := .start
  asserted t h := by simp [start] at h
  once t := by simp [start, Queue.init, Local.unsuspended]

omit [Fintype τ] in
/-- The updates stay within the expected count. -/
theorem within_step {a : Act} (h : next t a c.shared (c.loc t) = some (s, l))
    (hw : c.shared.requested ≤ expected) (hok : WithinExpected expected c t a) :
    s.requested ≤ expected := by
  generalize c.loc t = l₀ at h
  obtain ⟨b, pc⟩ := l₀
  cases step_of_next h with
  | call k update =>
    cases a with
    | countDown update' | arriveAndWait update' =>
      obtain ⟨hreq, -⟩ := by simpa [next] using h
      rw [← hreq]
      exact hok
    | wait => simp [next, Local.enterWait] at h
    | _ => simp [next] at h
  | _ => exact hw

/-- The account of a step. -/
theorem Step.account (hs : Step t c.shared (c.loc t) s l) (h : Inv expected c) :
    s.counter + s.requested = expected + total Local.pending (Function.update c.loc t l) := by
  have hacc := h.account
  have hup := total_update Local.pending c.loc t l
  generalize total Local.pending (Function.update c.loc t l) = p' at *
  generalize c.loc t = l₀ at hs hup
  cases hs with
  | call k update =>
    simp only [Local.pending] at hup
    push_cast
    omega
  | takes hs | resumedAll hr =>
    rw [enter_pending] at hup
    simp only [Local.pending] at hup
    simp only
    omega
  | reachesZero | resumeAll | waitIf | waited =>
    simp only [Local.pending] at hup
    simp only
    omega
  | _ =>
    simp only [Local.pending, Local.enterWait] at hup
    omega

/-- What a step does to the counter. -/
theorem Step.counter (hs : Step t c.shared (c.loc t) s l) (h : Inv expected c) :
    s.counter ≤ c.shared.counter ∧ (c.shared.counter = 0 → s.counter = 0) ∧
      (c.shared.counter ≠ 0 → s.counter ≠ 0 ∨ 0 < l.place.owes) := by
  have hle := h.pending_le t
  generalize c.loc t = l₀ at hs hle
  cases hs with
  | takes hs =>
    simp only [Local.pending] at hle
    exact ⟨by simp only; omega, fun _ => by simp only; omega, fun _ => .inl (by simp only; omega)⟩
  | reachesZero hs =>
    simp only [Local.pending] at hle
    exact ⟨by simp only; omega, fun _ => by simp only; omega, fun _ => .inr Nat.one_pos⟩
  | _ => exact ⟨le_rfl, id, .inl⟩

/-- **The counter is asserted to be zero only when it is.** -/
theorem Step.asserted (hs : Step t c.shared (c.loc t) s l) (h : Inv expected c)
    (hl : l.pc = .assertZero) : s.counter = 0 := by
  cases hpc : c.loc t with
  | mk b pc =>
    rw [hpc] at hs
    cases hs with
    | passes hs => exact hs
    | waited hw =>
      rcases h.settled.returns (t := t) (by rw [hpc]; rfl) hw with hd | hf
      · exact hd
      · simpa [Shared.tryWait] using hf
    | takes | resumedAll => simp at hl
    | _ => simp [Local.enterWait] at hl

omit [Fintype τ] in
/-- A task is suspended once in a call of `wait`. -/
theorem Step.once (hs : Step t c.shared (c.loc t) s l)
    (h : c.shared.waiters.suspends t + (c.loc t).unsuspended ≤ (c.loc t).before + 1) :
    s.waiters.suspends t + l.unsuspended ≤ l.before + 1 := by
  generalize c.loc t = l₀ at hs h
  cases hs with
  | takes => exact enter_unsuspended _ _ _ _ (by simpa [Local.unsuspended] using h)
  | resumedAll hr =>
    have := (ResumeAll.effect hr).suspends_eq rfl
    exact enter_unsuspended _ _ _ _ (by simpa [Local.unsuspended, this] using h)
  | resumeAll hr =>
    have := (ResumeAll.effect hr).suspends_eq (by simp)
    simpa [Local.unsuspended, this] using h
  | waitIf hw | waited hw => exact (WaitIf.step_suspends hw).trans h
  | callWait => exact le_rfl
  | passes => exact (Nat.le_add_right ..).trans h
  | _ => exact h

/-- A step within the expected count keeps the accounts. -/
theorem inv_step {a : Act} (hn : next t a c.shared (c.loc t) = some (s, l)) (h : Inv expected c)
    (hok : WithinExpected expected c t a) : Inv expected ⟨s, Function.update c.loc t l⟩ := by
  have hs := step_of_next hn
  obtain ⟨-, hdone, hstill⟩ := hs.counter h
  have hplace := place_update Local.place c.loc t l
  have hledger := h.ledger.queueStep hs.queue
  have hsettled := h.settled.step hs.queue hdone hs.past
  have hattended := h.attended.step_owes h.ledger hs.queue fun _ => hstill
  rw [← hplace] at hledger hsettled hattended
  refine ⟨hs.account h, within_step hn h.within hok, hledger, hsettled, hattended,
    fun u hu => ?_, fun u => ?_⟩
  · change (Function.update c.loc t l u).pc = .assertZero at hu
    rcases eq_or_ne u t with rfl | hne
    · rw [Function.update_self] at hu
      exact hs.asserted h hu
    · rw [Function.update_of_ne hne] at hu
      exact hdone (h.asserted u hu)
  · change s.waiters.suspends u + (Function.update c.loc t l u).unsuspended ≤
      (Function.update c.loc t l u).before + 1
    rcases eq_or_ne u t with rfl | hne
    · rw [Function.update_self]
      exact hs.once (h.once u)
    · rw [Function.update_of_ne hne, hs.queue.effect.suspends_of_ne hne]
      exact h.once u

/-- The accounts hold in every such run. -/
theorem inv_of_reach (h : Reach next (WithinExpected expected) (start τ expected) c) :
    Inv expected c :=
  h.invariant inv_start fun _ _ _ _ _ _ hi hok hn => inv_step hn hi hok

/-- **A latch releases its waiters exactly at zero.**  In every configuration of a run in
which the updates of all calls are at most the initial count,

* the counter is not negative, and no step increases it;
* where `wait` asserts that the counter is zero, it is, and in its latest call a task has
  been suspended once at most;
* if the counter is zero, and no `count_down` is between the decrement and the end of its
  `resume_all`, the queue is empty. -/
theorem released_at_zero (h : Reach next (WithinExpected expected) (start τ expected) c) :
    0 ≤ c.shared.counter ∧
      (∀ t a c', c.step next t a = some c' → c'.shared.counter ≤ c.shared.counter) ∧
      (∀ t, (c.loc t).pc = .assertZero → c.shared.counter = 0) ∧
      (∀ t, c.shared.waiters.suspends t ≤ (c.loc t).before + 1) ∧
      (c.shared.counter = 0 → (∀ t, (c.loc t).resuming = false) → c.shared.waiters.waiters = []) := by
  have hI := inv_of_reach h
  refine ⟨?_, fun t a c' hc => ?_, hI.asserted, fun t => ?_, fun hzero hnone => ?_⟩
  · have := hI.account
    have := hI.within
    omega
  · obtain ⟨s, l, hn, rfl⟩ := Config.step_eq_some.1 hc
    exact ((step_of_next hn).counter hI).1
  · have := hI.once t
    omega
  · refine List.eq_nil_iff_forall_not_mem.2 fun sp hsp => ?_
    rcases hI.attended.queued sp hsp with hne | ⟨u, hu⟩
    · exact hne hzero
    · have := hnone u
      unfold Local.resuming at this
      unfold Local.place at hu
      split at hu <;> simp_all [WaitQueue.Pc.owes]

/-- Task `0` queues; task `1` counts down by nothing and then by all, and resumes it; task
`2` arrives with nothing and waits. -/
def threeTasks : List (Fin 3 × Act) :=
  turns [(0, 1, .wait), (0, 7, .step), (1, 1, .countDown 0), (1, 1, .step), (1, 1, .countDown 3),
    (1, 7, .step), (0, 1, .step), (2, 1, .arriveAndWait 0), (2, 6, .step)]

/-- The theorem where two tasks are about to return from `wait`. -/
theorem released_at_zero_three_tasks :
    ∃ c, (start (Fin 3) 3).exec next threeTasks = some c ∧ (c.loc 0).pc = .assertZero ∧
      (c.loc 2).pc = .assertZero ∧ c.shared.counter = 0 ∧ c.shared.waiters.waiters = [] := by
  refine ⟨_, rfl, rfl, rfl, ?_⟩
  have hreach : Reach next (WithinExpected 3) (start (Fin 3) 3) _ :=
    reach_of_exec (l := threeTasks) rfl (by decide)
  have h := released_at_zero hreach
  exact ⟨h.2.2.1 0 rfl, h.2.2.2.2 rfl (by decide)⟩

end Latch
end CoopSync
