/-
# The semaphores are atomic counters, and they come to rest

From outside `counting_semaphore` cannot be told from a number of permits that is
taken from and added to at one instant, and `counting_semaphore<1>` from a flag
(`counting_linearizable`, `binary_linearizable`).  A `try_acquire` that fails takes
effect where it has read a counter that is zero, which may be long before it returns and
long after another task has released.

With no new calls the tasks inside come to rest, and then only tasks are left that
`acquire` keeps waiting because there is no permit (`counting_comes_to_rest`,
`binary_comes_to_rest`).  Weak exchanges that fail for no reason are not counted as
steps there: they could go on for ever.
-/

import CoopSync.Linearize
import CoopSync.Semaphore.Binary
import CoopSync.WaitQueue.Rest

namespace CoopSync
namespace Semaphore

open WaitQueue

variable {τ : Type*}

namespace Binary

/-! ### The flag -/

inductive Op
  | acquire
  | tryAcquire
  /-- `release(update)`, of which a flag sees whether `update` is not zero -/
  | release (any : Bool)
deriving DecidableEq, Repr

/-- What the operations of a flag do. -/
inductive Serves (t : τ) : Op → Bool → Option Bool → Bool → Prop
  | acquire : Serves t .acquire true none false
  | tryAcquire : Serves t .tryAcquire true (some true) false
  | tryAcquireFails : Serves t .tryAcquire false (some false) false
  | release {s any : Bool} : Serves t (.release any) s none (s || any)

/-- A flag.  Functions that return `void` return `none`. -/
def flag (τ : Type*) (desired : Bool) : Object τ Op (Option Bool) Bool := ⟨desired, Serves⟩

/-- Where a task stands on the flag. -/
def Pc.stand : Pc τ → Object.Phase Op (Option Bool)
  | .outside => .idle
  | .tryAcquire => .called .tryAcquire
  | .acquireTry | .acquireWait _ => .called .acquire
  | .release update => .called (.release (update ≠ 0))
  | .releaseAssert | .releaseStore => .called (.release true)
  | .releaseResume _ => .done none

variable [DecidableEq τ]

/-- What is seen of a step: a call, or the return with its value. -/
def observe : Object.Observe τ Act (Shared τ) (Pc τ) Op (Option Bool)
  | t, .acquire, _, _, _ => [.call t .acquire]
  | t, .tryAcquire, _, _, _ => [.call t .tryAcquire]
  | t, .release update, _, _, _ => [.call t (.release (update ≠ 0))]
  | t, .step, s, .tryAcquire, .outside => [.ret t (some s.tryAcquire.1)]
  | t, .step, _, _, .outside => [.ret t none]
  | _, _, _, _, _ => []

/-- The flag behind a configuration. -/
structure Implements (c : Config τ (Shared τ) (Pc τ))
    (d : Config τ Bool (Object.Phase Op (Option Bool))) : Prop where
  phases : Object.Tracks Pc.stand c.loc d.loc
  available : d.shared = c.shared.available

/-- Every step is matched on the flag. -/
theorem implements_step {desired : Bool} {c : Config τ (Shared τ) (Pc τ)}
    {d : Config τ Bool (Object.Phase Op (Option Bool))} {t : τ} {a : Act} {s : Shared τ} {pc : Pc τ}
    (h : Implements c d) (hn : next t a c.shared (c.loc t) = some (s, pc)) : ∃ ops d',
      (flag τ desired).Moves d (observe t a c.shared (c.loc t) pc) ops d' ∧
        Implements ⟨s, Function.update c.loc t pc⟩ d' := by
  have hp := h.phases t
  have ha := h.available
  -- a step that keeps the flag, and its object sees it or not
  have hquiet (hs : s.available = c.shared.available) (hq : pc.stand = (c.loc t).stand) :
      Implements ⟨s, Function.update c.loc t pc⟩ d := ⟨h.phases.stay hq, ha.trans hs.symm⟩
  have hseen {x : Bool} (hs : x = s.available) : Implements ⟨s, Function.update c.loc t pc⟩
      ⟨x, Function.update d.loc t pc.stand⟩ := ⟨h.phases.update, hs⟩
  generalize c.loc t = pc₀ at *
  cases a with
  | acquire | tryAcquire | release update =>
    cases step_of_next hn <;> simp [next] at hn
    all_goals subst_vars
    all_goals exact ⟨_, _, .call _ .refl hp, hseen ha⟩
  | step =>
    cases step_of_next hn with
    | callAcquire | callTryAcquire | callRelease => simp [next] at hn
    | tryFails hs =>
      have hv : c.shared.tryAcquire.1 = false := by simp [Shared.tryAcquire, hs]
      refine ⟨[(t, .tryAcquire, some false)], ⟨false, _⟩, ?_, hseen hs.symm⟩
      simpa [observe, hv, Pc.stand] using Object.Moves.serve (O := flag τ desired) hp
        (ha.trans hs ▸ Serves.tryAcquireFails)
    | tryWins hs =>
      have hv : c.shared.tryAcquire.1 = true := by simp [Shared.tryAcquire, hs]
      refine ⟨[(t, .tryAcquire, some true)], ⟨false, _⟩, ?_, hseen rfl⟩
      simpa [observe, hv, Pc.stand] using Object.Moves.serve (O := flag τ desired) hp
        (ha.trans hs ▸ Serves.tryAcquire)
    | acquireFails hs => exact ⟨_, _, .refl, hquiet rfl rfl⟩
    | acquireWins hs =>
      refine ⟨[(t, .acquire, none)], ⟨false, _⟩, ?_, hseen rfl⟩
      simpa [observe, Pc.stand] using Object.Moves.serve (O := flag τ desired) hp
        (ha.trans hs ▸ Serves.acquire)
    | @wait w q r hw => cases r <;> exact ⟨_, _, .refl, hquiet rfl rfl⟩
    | releaseNothing =>
      refine ⟨[(t, .release false, none)], ⟨d.shared, _⟩, ?_, hseen ha⟩
      have hserves : Serves t (.release false) d.shared none (d.shared || false) := .release
      rw [Bool.or_false] at hserves
      simpa [observe, Pc.stand] using Object.Moves.serve (O := flag τ desired) hp hserves
    | @releaseSome update =>
      have hu : update ≠ 0 := by
        rintro rfl
        simp [next] at hn
      exact ⟨_, _, .refl, hquiet rfl (by simp [Pc.stand, hu])⟩
    | releaseAssert => exact ⟨_, _, .refl, hquiet rfl rfl⟩
    | releaseStore =>
      exact ⟨_, ⟨d.shared || true, _⟩, .effect .refl hp Serves.release, hseen (by simp)⟩
    | @resume r q o hr =>
      cases o with
      | inl r' => exact ⟨_, _, .refl, hquiet rfl rfl⟩
      | inr b => exact ⟨_, _, .ret .refl hp, hseen ha⟩

/-- **The binary semaphore is an atomic flag.**  Whatever the tasks do, what they see
can be explained by a flag whose operations take effect at one instant, each between its
call and its return: `acquire` and `try_acquire` clear it, the one waiting where it is
clear and the other returning `false`, and `release` sets it. -/
theorem binary_linearizable (desired : Bool) (sched : List (τ × Act)) :
    (flag τ desired).Linearizable ((start τ desired).history next observe sched) := by
  refine Object.linearizable_of_simulation observe Implements ?_ ?_ sched (Config.admits_true ..)
  · exact ⟨fun t => rfl, rfl⟩
  · intro c d t a s pc _ h _ hn
    exact implements_step h hn

/-! ### Rest -/

variable [Fintype τ]

/-- A step of a task inside the code. -/
def Inside (_ : Config τ (Shared τ) (Pc τ)) (_ : τ) (a : Act) : Prop := a = .step

/-- Where a task stands in the code of the queue. -/
def Pc.place : Pc τ → WaitQueue.Pc τ
  | .acquireWait w => .waitIf w
  | .releaseResume r => .resumeOne r
  | _ => .idle

omit [DecidableEq τ] [Fintype τ] in
/-- What a task does on the queue is what its place in the queue's code does. -/
theorem view_eq (pc : Pc τ) : pc.view = pc.place.view := by
  cases pc <;> rfl

/-- What a task can still do to the flag and to the queue. -/
def Pc.moves (pc : Pc τ) : ℕ :=
  pc.place.debt + match pc with
    | .tryAcquire | .acquireTry | .acquireWait _ => 1
    | .release _ | .releaseAssert | .releaseStore => 2
    | _ => 0

/-- The steps from `while (!try_acquire())` on: with the flag set the task wins. -/
def again (available : Bool) : ℕ := if !available then 7 else 0

/-- The steps of a task as long as nobody changes the flag or wakes it. -/
def Pc.rank (s : Shared τ) : Pc τ → ℕ
  | .outside | .releaseStore => 0
  | .tryAcquire | .releaseAssert => 1
  | .release _ => 2
  | .acquireTry => again s.available
  | .acquireWait w =>
    (WaitQueue.Pc.waitIf w).rank s.waiters.resumed (!s.available) (again s.available)
  | .releaseResume r => (WaitQueue.Pc.resumeOne r).rank s.waiters.resumed (!s.available) 0

/-- The budget of a task. -/
def budget (τ : Type*) [DecidableEq τ] : Budget (Shared τ) (Pc τ) where
  moves := Pc.moves
  hands pc := pc.view.hands.length
  rank := Pc.rank

omit [Fintype τ] in
/-- While the flag stays, the rank of a task changes only if it is woken. -/
theorem rank_congr {s s' : Shared τ} (pc : Pc τ) (hs : s'.available = s.available)
    (hr : ∀ sp, pc.view.stage = .pushed sp → (sp ∈ s'.waiters.resumed ↔ sp ∈ s.waiters.resumed)) :
    pc.rank s' = pc.rank s := by
  cases pc with
  | acquireWait w | releaseResume r => simpa only [Pc.rank, hs] using WaitQueue.Pc.rank_congr hr
  | _ => simp [Pc.rank, hs]

/-- **No step of a task inside is free.** -/
theorem spends {c : Config τ (Shared τ) (Pc τ)} {t : τ} {s : Shared τ} {pc : Pc τ}
    (hL : Ledger c.shared.waiters fun t => (c.loc t).view)
    (hn : next t .step c.shared (c.loc t) = some (s, pc)) :
    (budget τ).Spends c t (c.loc t) s pc := by
  have hs := step_of_next hn
  have hothers : s.available = c.shared.available →
      (budget τ).hands (c.loc t) ≤ (budget τ).hands pc →
      ∀ u, u ≠ t → (budget τ).rank s (c.loc u) ≤ (budget τ).rank c.shared (c.loc u) :=
    fun hl hh u hu => (rank_congr _ hl fun sp hsp => hs.effect.resumed_iff hL hh hu hsp).le
  have hcall : ∀ sp, (c.loc t).view.stage = .callback sp → sp ∉ c.shared.waiters.resumed :=
    fun sp hst => hL.not_resumed_of_callback hst
  generalize c.loc t = pc₀ at *
  cases hs with
  | callAcquire | callTryAcquire | callRelease => simp [next] at hn
  | tryFails => exact .walk (Nat.zero_le _) le_rfl Nat.zero_lt_one fun u _ => le_rfl
  | releaseNothing => exact .walk (Nat.zero_le _) le_rfl Nat.two_pos fun u _ => le_rfl
  | releaseSome => exact .walk le_rfl le_rfl Nat.one_lt_two fun u _ => le_rfl
  | releaseAssert => exact .walk le_rfl le_rfl Nat.zero_lt_one fun u _ => le_rfl
  | tryWins | acquireWins => exact .move Nat.zero_lt_one
  | releaseStore => exact .move Nat.one_lt_two
  | acquireFails hs =>
    refine .walk le_rfl le_rfl ?_ fun u _ => le_rfl
    simp [budget, Pc.rank, WaitQueue.Pc.rank, WaitIf.rank, again, hs]
  | @wait w q r hw =>
    have hq : WaitQueue.next t (.step (!c.shared.available)) c.shared.waiters (.waitIf w) =
        some (q, r.elim .idle .waitIf) := by
      simp [WaitQueue.next, hw]
    have hsp := next_spent (k := again c.shared.available) hq hcall
    cases r <;> exact hsp.spends le_rfl le_rfl le_rfl (hothers rfl)
  | @resume r q o hr =>
    have hq : WaitQueue.next t (.step (!c.shared.available)) c.shared.waiters (.resumeOne r) =
        some (q, o.elim .resumeOne fun _ => .idle) := by
      simp [WaitQueue.next, hr]
    have hsp := next_spent (k := 0) hq hcall
    cases o <;> exact hsp.spends (Nat.add_comm ..).le le_rfl le_rfl (hothers rfl)

/-- Nothing is left to do without a new call. -/
structure AtRest (c : Config τ (Shared τ) (Pc τ)) : Prop where
  /-- Every task is outside, or it is suspended in `acquire()` and in the queue. -/
  everyone (t : τ) : c.loc t = .outside ∨ ∃ sp, c.loc t = .acquireWait (.queued sp) ∧
    sp ∈ c.shared.waiters.waiters ∧ sp ∉ c.shared.waiters.resumed
  /-- A suspended task waits for a permit. -/
  none_available (t : τ) : c.loc t ≠ .outside → c.shared.available = false
  /-- With every task outside nobody is in the queue, as its destructor asserts. -/
  empty : (∀ t, c.loc t = .outside) → c.shared.waiters.waiters = []

/-- Where nobody inside can step, the semaphore is at rest. -/
theorem atRest {c : Config τ (Shared τ) (Pc τ)}
    (hL : Ledger c.shared.waiters fun t => (c.loc t).view) (hI : Inv c)
    (hrest : ∀ t a, Inside c t a → c.step next t a = none) : AtRest c := by
  have hnone (t : τ) : next t .step c.shared (c.loc t) = none :=
    Option.map_eq_none_iff.1 (hrest t .step rfl)
  have hL' : Ledger c.shared.waiters fun t => (c.loc t).place.view := by
    simpa only [view_eq] using hL
  have hqueue := (hL'.at_rest fun t hne => ⟨!c.shared.available, by
    have := hnone t
    generalize c.loc t = pc at this hne
    cases pc with
    | acquireWait w | releaseResume r => simpa [Pc.place, WaitQueue.next, next] using this
    | _ => exact absurd rfl hne⟩).2
  have hall (t : τ) : c.loc t = .outside ∨ ∃ sp, c.loc t = .acquireWait (.queued sp) ∧
      sp ∈ c.shared.waiters.waiters ∧ sp ∉ c.shared.waiters.resumed := by
    have hq := hqueue t
    have hn := hnone t
    generalize c.loc t = pc at hq hn
    cases pc with
    | outside => exact .inl rfl
    | acquireWait w => exact .inr (by simpa [Pc.place] using hq)
    | releaseResume r => simp [Pc.place] at hq
    | _ => simp [next] at hn
  refine ⟨hall, fun t hne => ?_, fun hout => ?_⟩
  · obtain ⟨sp, hpc, hsp, hnr⟩ := (hall t).resolve_left hne
    refine Bool.eq_false_iff.2 fun hset => ?_
    -- with the flag set somebody would be on the way to it
    obtain ⟨u, hin | ⟨r, hr⟩⟩ := exists_coming hL hI hset (List.ne_nil_of_mem hsp)
    · rcases hall u with ho | ⟨sp', hpc', -, hnr'⟩
      · simp [ho, Pc.awakeInAcquire] at hin
      · simp [hpc', Pc.awakeInAcquire, hnr'] at hin
    · rcases hall u with ho | ⟨sp', hpc', -⟩
      · simp [hr] at ho
      · simp [hr] at hpc'
  · exact hL.waiters_eq_nil fun t => by simp [hout t, Pc.view, View.idle]

/-- **The binary semaphore comes to rest.**  From every configuration of every run, the
steps of the tasks inside, in whatever order, end.  Where they end every task is outside
or suspended in the queue of a semaphore without a permit; and with every task outside
the queue is empty. -/
theorem binary_comes_to_rest {desired : Bool} {c : Config τ (Shared τ) (Pc τ)}
    (h : Reachable next (start τ desired) c) : ComesToRest next Inside AtRest c :=
  h.comesToRest (budget τ).measure (fun _ _ _ _ => trivial)
    (fun _ _ _ _ _ hr ha hn => by
      subst ha
      exact (spends (ledger hr) hn).lt)
    fun _ hr hrest => atRest (ledger hr) (inv_of_reach hr) hrest

/-- Task `1` queues for a permit and task `0` has released one. -/
def released : List (Fin 2 × Act) :=
  turns [(1, 1, .acquire), (1, 7, .step), (0, 1, .release 1), (0, 3, .step)]

/-- The theorem where a waiter is still to be woken. -/
theorem binary_comes_to_rest_released :
    ∃ c, (start (Fin 2) false).exec next released = some c ∧
      c.shared.waiters.waiters = [⟨1, 0⟩] ∧ ComesToRest next Inside AtRest c := by
  refine ⟨_, rfl, rfl, ?_⟩
  have hreach : Reachable next (start (Fin 2) false) _ := reachable_of_exec (l := released) rfl
  exact binary_comes_to_rest hreach

end Binary
/-! ### The permits -/

inductive Op
  | acquire
  | tryAcquire
  | release (update : ℕ)
deriving DecidableEq, Repr

/-- What the operations on a number of permits do. -/
inductive Serves (t : τ) : Op → ℕ → Option Bool → ℕ → Prop
  | acquire {n : ℕ} : Serves t .acquire (n + 1) none n
  | tryAcquire {n : ℕ} : Serves t .tryAcquire (n + 1) (some true) n
  | tryAcquireFails : Serves t .tryAcquire 0 (some false) 0
  | release {n update : ℕ} : Serves t (.release update) n none (n + update)

/-- A number of permits.  Functions that return `void` return `none`. -/
def permits (τ : Type*) (desired : ℕ) : Object τ Op (Option Bool) ℕ := ⟨desired, Serves⟩

/-- `try_acquire` has read that there is no permit. -/
def TryAcquire.lost : TryAcquire → Bool
  | .load => false
  | .loop current => current ≤ 0

/-- What a step of `try_acquire` does: it reads the counter, takes a permit off it, or
returns `false` for having read that there is none. -/
theorem TryAcquire.step_cases (leastMaxValue counter : ℤ) (spurious : Bool) (a : TryAcquire) :
    a.lost = false ∧ (spurious = false → a ≠ .loop counter) ∧
      a.step leastMaxValue spurious counter = (counter, .inl (.loop counter)) ∨
    a.lost = false ∧ a = .loop counter ∧ 0 < counter ∧
      a.step leastMaxValue spurious counter = (storageCast leastMaxValue (counter - 1), .inr true) ∨
    a.lost = true ∧ a.step leastMaxValue spurious counter = (counter, .inr false) := by
  cases a with
  | load => exact .inl ⟨rfl, by simp, rfl⟩
  | loop current =>
    by_cases hpos : 0 < current
    · have hlost : (TryAcquire.loop current).lost = false := by simpa [TryAcquire.lost] using hpos
      by_cases heq : counter = current ∧ spurious = false
      · obtain ⟨rfl, hsp⟩ := heq
        exact .inr (.inl ⟨hlost, rfl, hpos, by simp [TryAcquire.step, hpos, hsp]⟩)
      · refine .inl ⟨hlost, fun hsp hc => heq ⟨(TryAcquire.loop.inj hc).symm, hsp⟩, ?_⟩
        simp only [TryAcquire.step, hpos, heq, if_true, if_false]
    · exact .inr (.inr ⟨by simpa [TryAcquire.lost] using hpos, by simp [TryAcquire.step, hpos]⟩)

/-- Where a task stands on the permits.  A `try_acquire` that has read that there are
none will return `false`. -/
def Pc.stand : Pc τ → Object.Phase Op (Option Bool)
  | .outside => .idle
  | .tryAcquire a => if a.lost then .done (some false) else .called .tryAcquire
  | .acquireTry _ | .acquireWait _ => .called .acquire
  | .release update | .releaseAdd update => .called (.release update)
  | .releaseAssert _ _ | .releaseResume _ _ => .done none

variable [DecidableEq τ] {leastMaxValue desired : ℤ}

/-- What is seen of a step: a call, or the return with its value. -/
def observe : Object.Observe τ Act (Shared τ) (Local τ) Op (Option Bool)
  | t, .acquire, _, _, _ => [.call t .acquire]
  | t, .tryAcquire, _, _, _ => [.call t .tryAcquire]
  | t, .release update, _, _, _ => [.call t (.release update)]
  -- `try_acquire` returns whether it has taken a permit
  | t, .step _, _, ⟨m, _, .tryAcquire _⟩, ⟨m', _, .outside⟩ => [.ret t (some (m' ≠ m))]
  | t, .step _, _, _, ⟨_, _, .outside⟩ => [.ret t none]
  | _, _, _, _, _ => []

/-- The permits behind a configuration. -/
structure Implements (c : Config τ (Shared τ) (Local τ))
    (d : Config τ ℕ (Object.Phase Op (Option Bool))) : Prop where
  phases : Object.Tracks (fun l : Local τ => l.pc.stand) c.loc d.loc
  permits : (d.shared : ℤ) = c.shared.counter

variable [Fintype τ]

/-- Every step is matched on the permits. -/
theorem implements_step {c : Config τ (Shared τ) (Local τ)}
    {d : Config τ ℕ (Object.Phase Op (Option Bool))} {t : τ} {a : Act} {s : Shared τ} {l : Local τ}
    (hI : Inv leastMaxValue desired c) (hok : WithinMax leastMaxValue c t a)
    (h : Implements c d) (hn : next leastMaxValue t a c.shared (c.loc t) = some (s, l)) :
    ∃ ops d', (permits τ desired.toNat).Moves d (observe t a c.shared (c.loc t) l) ops d' ∧
      Implements ⟨s, Function.update c.loc t l⟩ d' := by
  have hp := h.phases t
  have hc := h.permits
  have hnn := hI.nonneg
  have hle := hI.le_max
  -- a step that keeps the counter, and the object sees it or not
  have hquiet (hs : s.counter = c.shared.counter) (hq : l.pc.stand = (c.loc t).pc.stand) :
      Implements ⟨s, Function.update c.loc t l⟩ d := ⟨h.phases.stay hq, hc.trans hs.symm⟩
  have hseen {n : ℕ} (hs : (n : ℤ) = s.counter) : Implements ⟨s, Function.update c.loc t l⟩
      ⟨n, Function.update d.loc t l.pc.stand⟩ := ⟨h.phases.update, hs⟩
  unfold WithinMax at hok
  generalize c.loc t = l₀ at *
  obtain ⟨m, n, pc⟩ := l₀
  cases a with
  | acquire | tryAcquire | release update =>
    cases step_of_next hn <;> simp [next] at hn
    all_goals subst_vars
    all_goals exact ⟨_, _, .call _ .refl hp, hseen hc⟩
  | step spurious =>
    cases pc with
    | outside => simp [next] at hn
    | tryAcquire a =>
      have ho := a.step_cases leastMaxValue c.shared.counter spurious
      simp only [next] at hn
      obtain ⟨hlost, -, ha⟩ | ⟨hlost, rfl, hpos, ha⟩ | ⟨hlost, ha⟩ := ho <;> rw [ha] at hn <;>
        obtain ⟨rfl, rfl⟩ := by simpa using hn
      · -- it reads the counter, and fails if there is nothing in it
        by_cases hpos : 0 < c.shared.counter
        · have hlost' : (TryAcquire.loop c.shared.counter).lost = false := by
            simpa [TryAcquire.lost] using hpos
          exact ⟨_, _, .refl, hquiet rfl (by simp only [Pc.stand, hlost, hlost'])⟩
        · have h0 : d.shared = 0 := by omega
          have hp : d.loc t = .called .tryAcquire := by simpa [Pc.stand, hlost] using hp
          have hstand : (Pc.tryAcquire (.loop c.shared.counter) : Pc τ).stand =
              .done (some false) := by
            simpa [Pc.stand, TryAcquire.lost] using hpos
          refine ⟨[(t, .tryAcquire, some false)], _, ?_, hseen hc⟩
          rw [hstand]
          exact .effect .refl hp (h0 ▸ Serves.tryAcquireFails)
      · obtain ⟨k, hk⟩ : ∃ k, d.shared = k + 1 := Nat.exists_eq_succ_of_ne_zero (by omega)
        have hp : d.loc t = .called .tryAcquire := by simpa [Pc.stand, hlost] using hp
        have hcast : storageCast leastMaxValue (c.shared.counter - 1) = c.shared.counter - 1 :=
          storageCast_of_range (by omega) (by omega)
        refine ⟨[(t, .tryAcquire, some true)], _, ?_, hseen (n := k) (by simp only [hcast]; omega)⟩
        simpa [observe, Pc.stand] using
          Object.Moves.serve (O := permits τ desired.toNat) hp (hk ▸ Serves.tryAcquire)
      · have hp : d.loc t = .done (some false) := by simpa [Pc.stand, hlost] using hp
        refine ⟨[], _, ?_, hseen hc⟩
        simpa [observe, Pc.stand] using Object.Moves.ret (O := permits τ desired.toNat) .refl hp
    | acquireTry a =>
      have ho := a.step_cases leastMaxValue c.shared.counter spurious
      simp only [next] at hn
      obtain ⟨-, -, ha⟩ | ⟨-, rfl, hpos, ha⟩ | ⟨-, ha⟩ := ho <;> rw [ha] at hn <;>
        obtain ⟨rfl, rfl⟩ := by simpa using hn
      · exact ⟨_, _, .refl, hquiet rfl rfl⟩
      · obtain ⟨k, hk⟩ : ∃ k, d.shared = k + 1 := Nat.exists_eq_succ_of_ne_zero (by omega)
        have hcast : storageCast leastMaxValue (c.shared.counter - 1) = c.shared.counter - 1 :=
          storageCast_of_range (by omega) (by omega)
        refine ⟨[(t, .acquire, none)], _, ?_, hseen (n := k) (by simp only [hcast]; omega)⟩
        simpa [observe, Pc.stand] using
          Object.Moves.serve (O := permits τ desired.toNat) hp (hk ▸ Serves.acquire)
      · exact ⟨_, _, .refl, hquiet rfl rfl⟩
    | acquireWait w =>
      obtain ⟨⟨q, r⟩, hw, he⟩ := Option.map_eq_some_iff.1 hn
      obtain ⟨rfl, rfl⟩ := by simpa using he
      cases r <;> exact ⟨_, _, .refl, hquiet rfl rfl⟩
    | release update =>
      obtain ⟨rfl, rfl⟩ := by simpa [next] using hn
      by_cases hu : update = 0
      · subst hu
        refine ⟨[(t, .release 0, none)], _, ?_, hseen (n := d.shared + 0) hc⟩
        simpa [observe, Pc.stand] using
          Object.Moves.serve (O := permits τ desired.toNat) hp Serves.release
      · refine ⟨[], d, ?_, hquiet rfl (by simp [hu, Pc.stand])⟩
        simpa [observe, hu] using Object.Moves.refl
    | releaseAdd update =>
      obtain ⟨rfl, rfl⟩ := by simpa [next] using hn
      have hroom : (update : ℤ) ≤ max leastMaxValue - c.shared.counter := hok
      have hcast :
          (c.shared.fetchAdd leastMaxValue update).counter = c.shared.counter + update := by
        simp only [Shared.fetchAdd]
        rw [storageCast_of_range (x := (update : ℤ)) (by omega) (by omega),
          storageCast_of_range (by omega) (by omega)]
      exact ⟨_, _, .effect .refl hp Serves.release, hseen (by rw [hcast]; push_cast; omega)⟩
    | releaseAssert update prev =>
      obtain ⟨rfl, rfl⟩ := by simpa [next] using hn
      exact ⟨_, _, .refl, hquiet rfl rfl⟩
    | releaseResume update r =>
      obtain ⟨⟨q, o⟩, hr, he⟩ := Option.map_eq_some_iff.1 hn
      obtain ⟨rfl, rfl⟩ := by simpa using he
      cases o with
      | inl r' => exact ⟨_, _, .refl, hquiet rfl rfl⟩
      | inr k => exact ⟨_, _, .ret .refl hp, hseen hc⟩

/-- **The counting semaphore is an atomic number of permits.**  Whatever the tasks do, as
long as releases keep to their room, what they see can be explained by a number whose
operations take effect at one instant, each between its call and its return: `acquire` and
`try_acquire` take one permit, the first waiting where there is none and the other
returning `false` there and only there, and `release` adds its update. -/
theorem counting_linearizable (h₀ : 0 ≤ desired) (h₁ : desired ≤ max leastMaxValue)
    (sched : List (τ × Act)) (hok : (start τ leastMaxValue desired).Admits (next leastMaxValue)
      (WithinMax leastMaxValue) sched) :
    (permits τ desired.toNat).Linearizable
      ((start τ leastMaxValue desired).history (next leastMaxValue) observe sched) := by
  refine Object.linearizable_of_simulation observe Implements ?_ ?_ sched hok
  · have hcast : (start τ leastMaxValue desired).shared.counter = desired :=
      storageCast_of_range h₀ h₁
    exact ⟨fun t => rfl, by rw [hcast]; exact Int.toNat_of_nonneg h₀⟩
  · intro c d t a s l hr h hok hn
    exact implements_step (inv_of_reach h₀ h₁ hr) hok h hn

/-- Task `1` fails `try_acquire`, but returns only after task `0` has released a permit
that task `0` takes again. -/
def failsLate : List (Fin 2 × Act) :=
  turns [(1, 1, .tryAcquire), (1, 1, .step false), (0, 1, .release 1), (0, 8, .step false),
    (0, 1, .tryAcquire), (0, 2, .step false), (1, 1, .step false)]

/-- The theorem at a `try_acquire` that returns `false` after its permit was there. -/
theorem counting_linearizable_failsLate :
    (start (Fin 2) 4 0).history (next 4) observe failsLate =
      [.call 1 .tryAcquire, .call 0 (.release 1), .ret 0 none, .call 0 .tryAcquire,
        .ret 0 (some true), .ret 1 (some false)] ∧
    (permits (Fin 2) 0).Linearizable ((start (Fin 2) 4 0).history (next 4) observe failsLate) := by
  have h₁ : (0 : ℤ) ≤ max 4 := by decide
  exact ⟨by decide, counting_linearizable le_rfl h₁ failsLate (by decide)⟩

/-! ### Rest -/

/-- A step of a task inside the code, in which a weak exchange does not fail for no
reason. -/
def Inside (_ : Config τ (Shared τ) (Local τ)) (_ : τ) (a : Act) : Prop := a = .step false

/-- Where a task stands in the code of the queue. -/
def Local.place (l : Local τ) : WaitQueue.Pc τ :=
  match l.pc with
  | .acquireWait w => .waitIf w
  | .releaseResume _ r => .resumeN r
  | _ => .idle

omit [DecidableEq τ] [Fintype τ] in
/-- What a task does on the queue is what its place in the queue's code does. -/
theorem view_eq (l : Local τ) : l.view = l.place.view := by
  obtain ⟨m, n, pc⟩ := l
  cases pc <;> rfl

/-- The permits of a `release` that has not added them. -/
def Local.promised (l : Local τ) : ℕ :=
  match l.pc with
  | .release update | .releaseAdd update => update
  | _ => 0

/-- What a task can still do to the counter and to the queue. -/
def Local.moves (l : Local τ) : ℕ :=
  l.place.debt + match l.pc with
    | .tryAcquire _ | .acquireTry _ | .acquireWait _ => 1
    | .release update | .releaseAdd update => update + 1
    | .releaseAssert update _ => update
    | _ => 0

/-- The steps of `try_acquire` before it takes a permit or reaches a place of rank `k`
without one. -/
def TryAcquire.rank (counter : ℤ) (k : ℕ) : TryAcquire → ℕ
  | .load => if 0 < counter then 1 else k + 2
  | .loop current =>
    if current ≤ 0 then k + 1
    else if current = counter then 0
    else if 0 < counter then 1
    else k + 2

/-- Failing lowers the rank. -/
theorem TryAcquire.lt_rank {a : TryAcquire} {counter : ℤ} {k : ℕ} (h : a.lost = true) :
    k < a.rank counter k := by
  cases a with
  | load => simp [TryAcquire.lost] at h
  | loop current =>
    have hcur : current ≤ 0 := by simpa [TryAcquire.lost] using h
    simp [TryAcquire.rank, hcur]

/-- Reading the counter anew lowers the rank. -/
theorem TryAcquire.rank_again {a : TryAcquire} {counter : ℤ} {k : ℕ} (h : a.lost = false)
    (hne : a ≠ .loop counter) : (TryAcquire.loop counter).rank counter k < a.rank counter k := by
  cases a with
  | load =>
    simp only [TryAcquire.rank]
    split_ifs <;> omega
  | loop current =>
    have hcur : ¬current ≤ 0 := by simpa [TryAcquire.lost] using h
    have hne' : current ≠ counter := fun heq => hne (heq ▸ rfl)
    simp only [TryAcquire.rank, if_neg hcur, if_neg hne']
    split_ifs <;> omega

/-- The steps from `while (!try_acquire())` on: with a permit the task takes it. -/
def again (counter : ℤ) : ℕ := if counter = 0 then 8 else 1

/-- The rank of the place a task in `acquire` reaches without a permit. -/
def waits (counter : ℤ) : ℕ := if counter = 0 then 6 else 2

/-- The steps of a task as long as nobody changes the counter or wakes it. -/
def Local.rank (s : Shared τ) (l : Local τ) : ℕ :=
  match l.pc with
  | .outside => 0
  | .tryAcquire a => a.rank s.counter 0
  | .acquireTry a => a.rank s.counter (waits s.counter)
  | .acquireWait w =>
    (WaitQueue.Pc.waitIf w).rank s.waiters.resumed (s.counter = 0) (again s.counter)
  | .release _ => 2
  | .releaseAdd _ => 1
  | .releaseAssert _ _ => 7
  | .releaseResume _ r => (WaitQueue.Pc.resumeN r).rank s.waiters.resumed (s.counter = 0) 0

/-- The budget of a task. -/
def budget (τ : Type*) [DecidableEq τ] : Budget (Shared τ) (Local τ) where
  moves := Local.moves
  hands l := l.view.hands.length
  rank := Local.rank

omit [Fintype τ] in
/-- While the counter stays, the rank of a task changes only if it is woken. -/
theorem rank_congr {s s' : Shared τ} (l : Local τ) (hs : s'.counter = s.counter)
    (hr : ∀ sp, l.view.stage = .pushed sp → (sp ∈ s'.waiters.resumed ↔ sp ∈ s.waiters.resumed)) :
    l.rank s' = l.rank s := by
  obtain ⟨m, n, pc⟩ := l
  cases pc with
  | acquireWait w | releaseResume u r =>
    simpa only [Local.rank, hs] using WaitQueue.Pc.rank_congr hr
  | _ => simp [Local.rank, hs]

/-- **No step of a task inside is free.** -/
theorem spends {c : Config τ (Shared τ) (Local τ)} {t : τ} {s : Shared τ} {l : Local τ}
    (hL : Ledger c.shared.waiters fun t => (c.loc t).view) (hnn : 0 ≤ c.shared.counter)
    (hn : next leastMaxValue t (.step false) c.shared (c.loc t) = some (s, l)) :
    (budget τ).Spends c t (c.loc t) s l := by
  have hs := step_of_next hn
  have hothers : s.counter = c.shared.counter →
      (budget τ).hands (c.loc t) ≤ (budget τ).hands l →
      ∀ u, u ≠ t → (budget τ).rank s (c.loc u) ≤ (budget τ).rank c.shared (c.loc u) :=
    fun hl hh u hu => (rank_congr _ hl fun sp hsp => hs.effect.resumed_iff hL hh hu hsp).le
  have hcall : ∀ sp, (c.loc t).view.stage = .callback sp → sp ∉ c.shared.waiters.resumed :=
    fun sp hst => hL.not_resumed_of_callback hst
  clear hs
  generalize c.loc t = l₀ at *
  obtain ⟨m, n, pc⟩ := l₀
  cases pc with
  | outside => simp [next] at hn
  | tryAcquire a =>
    have ho := a.step_cases leastMaxValue c.shared.counter false
    simp only [next] at hn
    obtain ⟨hlost, hne, ha⟩ | ⟨-, -, -, ha⟩ | ⟨hlost, ha⟩ := ho <;> rw [ha] at hn <;>
      obtain ⟨rfl, rfl⟩ := by simpa using hn
    · exact .walk le_rfl le_rfl (TryAcquire.rank_again hlost (hne rfl)) fun u _ => le_rfl
    · exact .move Nat.zero_lt_one
    · exact .walk (Nat.zero_le _) le_rfl (TryAcquire.lt_rank hlost) fun u _ => le_rfl
  | acquireTry a =>
    have ho := a.step_cases leastMaxValue c.shared.counter false
    simp only [next] at hn
    obtain ⟨hlost, hne, ha⟩ | ⟨-, -, -, ha⟩ | ⟨hlost, ha⟩ := ho <;> rw [ha] at hn <;>
      obtain ⟨rfl, rfl⟩ := by simpa using hn
    · exact .walk le_rfl le_rfl (TryAcquire.rank_again hlost (hne rfl)) fun u _ => le_rfl
    · exact .move Nat.zero_lt_one
    · refine .walk le_rfl le_rfl (lt_of_eq_of_lt ?_ (TryAcquire.lt_rank hlost)) fun u _ => le_rfl
      by_cases h0 : c.shared.counter = 0 <;>
        simp [budget, Local.rank, WaitQueue.Pc.rank, WaitIf.rank, waits, again, h0]
  | acquireWait w =>
    obtain ⟨⟨q, r⟩, hw, he⟩ := Option.map_eq_some_iff.1 hn
    obtain ⟨rfl, rfl⟩ := by simpa using he
    have hq : WaitQueue.next t (.step (c.shared.counter = 0)) c.shared.waiters (.waitIf w) =
        some (q, r.elim .idle .waitIf) := by
      simp [WaitQueue.next, hw]
    have hsp := next_spent (k := again c.shared.counter) hq hcall
    cases r with
    | none =>
      refine hsp.spends le_rfl le_rfl ?_ (hothers rfl)
      -- `while (!try_acquire())` starts by reading the counter
      by_cases h0 : c.shared.counter = 0
      · simp [budget, Local.rank, TryAcquire.rank, WaitQueue.Pc.rank, waits, again, h0]
      · have hpos : 0 < c.shared.counter := by omega
        simp [budget, Local.rank, TryAcquire.rank, WaitQueue.Pc.rank, again, h0, hpos]
    | some w' => exact hsp.spends le_rfl le_rfl le_rfl (hothers rfl)
  | release update =>
    obtain ⟨rfl, rfl⟩ := by simpa [next] using hn
    split_ifs
    · exact .move (Nat.zero_lt_succ _)
    · exact .walk le_rfl le_rfl Nat.one_lt_two fun u _ => le_rfl
  | releaseAdd update =>
    obtain ⟨rfl, rfl⟩ := by simpa [next] using hn
    exact .move (Nat.lt_succ_self _)
  | releaseAssert update prev =>
    obtain ⟨rfl, rfl⟩ := by simpa [next] using hn
    exact .walk (Nat.add_comm ..).le le_rfl (Nat.lt_succ_self 6) fun u _ => le_rfl
  | releaseResume update r =>
    obtain ⟨⟨q, o⟩, hr, he⟩ := Option.map_eq_some_iff.1 hn
    obtain ⟨rfl, rfl⟩ := by simpa using he
    have hq : WaitQueue.next t (.step (c.shared.counter = 0)) c.shared.waiters (.resumeN r) =
        some (q, o.elim .resumeN fun _ => .idle) := by
      simp [WaitQueue.next, hr]
    have hsp := next_spent (k := 0) hq hcall
    cases o <;> exact hsp.spends (Nat.add_comm ..).le le_rfl le_rfl (hothers rfl)

/-- Nothing is left to do without a new call. -/
structure AtRest (c : Config τ (Shared τ) (Local τ)) : Prop where
  /-- Every task is outside, or it is suspended in `acquire()` and in the queue. -/
  everyone (t : τ) : (c.loc t).pc = .outside ∨ ∃ sp, (c.loc t).pc = .acquireWait (.queued sp) ∧
    sp ∈ c.shared.waiters.waiters ∧ sp ∉ c.shared.waiters.resumed
  /-- A suspended task waits for a permit. -/
  no_permit (t : τ) : (c.loc t).pc ≠ .outside → c.shared.counter = 0
  /-- With every task outside nobody is in the queue, as its destructor asserts. -/
  empty : (∀ t, (c.loc t).pc = .outside) → c.shared.waiters.waiters = []

/-- Where nobody inside can step, the semaphore is at rest. -/
theorem atRest {c : Config τ (Shared τ) (Local τ)}
    (hL : Ledger c.shared.waiters fun t => (c.loc t).view) (hI : Inv leastMaxValue desired c)
    (hrest : ∀ t a, Inside c t a → c.step (next leastMaxValue) t a = none) : AtRest c := by
  have hnone (t : τ) : next leastMaxValue t (.step false) c.shared (c.loc t) = none :=
    Option.map_eq_none_iff.1 (hrest t (.step false) rfl)
  have hL' : Ledger c.shared.waiters fun t => (c.loc t).place.view := by
    simpa only [view_eq] using hL
  have hqueue := (hL'.at_rest fun t hne => ⟨c.shared.counter = 0, by
    have := hnone t
    generalize c.loc t = l at this hne
    obtain ⟨m, n, pc⟩ := l
    cases pc with
    | acquireWait w | releaseResume u r => simpa [Local.place, WaitQueue.next, next] using this
    | _ => exact absurd rfl hne⟩).2
  have hall (t : τ) : (c.loc t).pc = .outside ∨ ∃ sp, (c.loc t).pc = .acquireWait (.queued sp) ∧
      sp ∈ c.shared.waiters.waiters ∧ sp ∉ c.shared.waiters.resumed := by
    have hq := hqueue t
    have hn := hnone t
    generalize c.loc t = l at hq hn
    obtain ⟨m, n, pc⟩ := l
    cases pc with
    | outside => exact .inl rfl
    | acquireWait w => exact .inr (by simpa [Local.place] using hq)
    | releaseResume u r => simp [Local.place] at hq
    | _ => simp [next] at hn
  refine ⟨hall, fun t hne => ?_, fun hout => ?_⟩
  · obtain ⟨sp, hpc, hsp, hnr⟩ := (hall t).resolve_left hne
    have hle := counter_le hL hI (List.ne_nil_of_mem hsp)
    have hnn := hI.nonneg
    -- nobody is on the way to a permit, and no `release` is under way
    have hawake : (Finset.univ.filter fun u =>
        (c.loc u).awakeInAcquire c.shared.waiters = true) = ∅ := by
      refine Finset.filter_eq_empty_iff.2 fun u _ => ?_
      rcases hall u with ho | ⟨sp', hpc', -, hnr'⟩
      · simp [Local.awakeInAcquire, ho]
      · simp [Local.awakeInAcquire, hpc', hnr']
    have hreleasing : total Local.releasing c.loc = 0 := by
      refine total_eq_zero.2 fun u => ?_
      rcases hall u with ho | ⟨sp', hpc', -⟩
      · simp [Local.releasing, ho]
      · simp [Local.releasing, hpc']
    rw [hawake, hreleasing, Finset.card_empty] at hle
    omega
  · exact hL.waiters_eq_nil fun t => by simp [hout t, Local.view, View.idle]

/-- There is room for the permits of every `release` under way. -/
def Room (leastMaxValue : ℤ) (c : Config τ (Shared τ) (Local τ)) : Prop :=
  c.shared.counter + total Local.promised c.loc ≤ max leastMaxValue

/-- The tasks inside keep the room, and releases find theirs. -/
theorem room_step {c : Config τ (Shared τ) (Local τ)} {t : τ} {s : Shared τ} {l : Local τ}
    (hI : Inv leastMaxValue desired c) (h : Room leastMaxValue c)
    (hn : next leastMaxValue t (.step false) c.shared (c.loc t) = some (s, l)) :
    WithinMax leastMaxValue c t (.step false) ∧
      Room leastMaxValue ⟨s, Function.update c.loc t l⟩ := by
  have hnn := hI.nonneg
  have hmax := hI.le_max
  have hle := le_total Local.promised c.loc t
  have hup := total_update Local.promised c.loc t l
  unfold Room at h ⊢
  unfold WithinMax
  generalize c.loc t = l₀ at *
  have hs := step_of_next hn
  refine ⟨?_, ?_⟩
  · cases hs with
    | releaseAdd =>
      simp only [Local.promised] at hle
      simp only
      omega
    | _ => trivial
  · generalize Function.update c.loc t l = loc' at *
    cases hs with
    | callAcquire | callTryAcquire | callRelease => simp [next] at hn
    | tryWins hpos | acquireWins hpos =>
      have hcast : storageCast leastMaxValue (c.shared.counter - 1) = c.shared.counter - 1 :=
        storageCast_of_range (by omega) (by omega)
      simp only [Local.promised] at hup
      simp only [hcast]
      omega
    | @releaseAdd m n u =>
      simp only [Local.promised] at hup hle
      have hcast : (c.shared.fetchAdd leastMaxValue u).counter = c.shared.counter + u := by
        simp only [Shared.fetchAdd]
        rw [storageCast_of_range (x := (u : ℤ)) (by omega) (by omega),
          storageCast_of_range (by omega) (by omega)]
      simp only [hcast]
      omega
    | @wait m n w q r hw =>
      have hup : total Local.promised loc' = total Local.promised c.loc := by
        cases r <;> simpa [Local.promised] using hup
      simpa only [hup] using h
    | @resume m n u r q o hr =>
      have hup : total Local.promised loc' = total Local.promised c.loc := by
        cases o <;> simpa [Local.promised] using hup
      simpa only [hup] using h
    | _ =>
      simp only [Local.promised] at hup
      simp only
      omega

/-- **The counting semaphore comes to rest.**  From every configuration of every run
within `max()`, where there is room for the releases under way, the steps of the tasks
inside, in whatever order, end, unless weak exchanges fail for no reason.  Where they end
every task is outside or suspended in the queue of a semaphore without a permit; and
with every task outside the queue is empty. -/
theorem counting_comes_to_rest (h₀ : 0 ≤ desired) (h₁ : desired ≤ max leastMaxValue)
    {c : Config τ (Shared τ) (Local τ)}
    (h : Reach (next leastMaxValue) (WithinMax leastMaxValue) (start τ leastMaxValue desired) c)
    (hroom : Room leastMaxValue c) : ComesToRest (next leastMaxValue) Inside AtRest c := by
  have hkeep (c') (hr : Reach (next leastMaxValue) Inside c c') :
      Reach (next leastMaxValue) (WithinMax leastMaxValue) (start τ leastMaxValue desired) c' ∧
        Room leastMaxValue c' := by
    induction hr with
    | start => exact ⟨h, hroom⟩
    | step _ ha hs ih =>
      obtain rfl := ha
      obtain ⟨hr, hroom⟩ := ih
      obtain ⟨s, l, hn, rfl⟩ := Config.step_eq_some.1 hs
      obtain ⟨hok, hroom'⟩ := room_step (inv_of_reach h₀ h₁ hr) hroom hn
      exact ⟨hr.step hok hs, hroom'⟩
  refine Reach.comesToRest (budget τ).measure (fun _ _ _ ha => ha) ?_ ?_ .start
  · intro c' t a s l hr ha hn
    obtain rfl := ha
    obtain ⟨hr, -⟩ := hkeep c' hr
    exact (spends (ledger hr) (inv_of_reach h₀ h₁ hr).nonneg hn).lt
  · intro c' hr hrest
    obtain ⟨hr, -⟩ := hkeep c' hr
    exact atRest (ledger hr) (inv_of_reach h₀ h₁ hr) hrest

/-- The theorem at two free permits and a waiter the release still has to resume. -/
theorem counting_comes_to_rest_released :
    ∃ c, (start (Fin 2) 4 0).exec (next 4) twoPermits = some c ∧
      c.shared.waiters.waiters = [⟨1, 0⟩] ∧ ComesToRest (next 4) Inside AtRest c := by
  refine ⟨_, rfl, rfl, ?_⟩
  have h₁ : (0 : ℤ) ≤ max 4 := by decide
  have hreach : Reach (next 4) (WithinMax 4) (start (Fin 2) 4 0) _ :=
    reach_of_exec (l := twoPermits) rfl (by decide)
  exact counting_comes_to_rest le_rfl h₁ hreach (by unfold Room; decide)

end Semaphore
end CoopSync
