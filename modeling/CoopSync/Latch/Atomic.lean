/-
# The latch is an atomic counter, and it comes to rest

From outside, `latch` cannot be told from a counter that only falls, of which `wait` sees
nothing but the zero (`latch_linearizable`): `count_down` takes effect at its `fetch_sub`,
`try_wait` at its load, and `wait` where it asserts that the counter is zero.  A task in
`arrive_and_wait` is seen to return from `count_down` and to call `wait`.

With no new calls the tasks inside come to rest (`latch_comes_to_rest`), and one is left in
`wait` only if the updates of the calls so far are less than the initial count.
-/

import CoopSync.Latch.Release
import CoopSync.Linearize
import CoopSync.WaitQueue.Rest

namespace CoopSync
namespace Latch

open WaitQueue

variable {τ : Type*}

/-! ### The counter -/

inductive Op
  | countDown (update : ℕ)
  | wait
  | tryWait
deriving DecidableEq, Repr

/-- What the operations of a counter do. -/
inductive Serves (t : τ) : Op → ℕ → Option Bool → ℕ → Prop
  | countDown {update n : ℕ} : Serves t (.countDown update) (n + update) none n
  | wait : Serves t .wait 0 none 0
  | tryWait {n : ℕ} : Serves t .tryWait n (some (n = 0)) n

/-- A counter at `expected`.  Functions that return `void` return `none`. -/
def counter (τ : Type*) (expected : ℕ) : Object τ Op (Option Bool) ℕ := ⟨expected, Serves⟩

variable [DecidableEq τ]

/-- What is seen of a step: a call, or the return with its value. -/
def observe : Object.Observe τ Act (Shared τ) (Local τ) Op (Option Bool)
  | t, .countDown update, _, _, _ | t, .arriveAndWait update, _, _, _ =>
    [.call t (.countDown update)]
  | t, .wait, _, _, _ => [.call t .wait]
  | t, .tryWait, _, _, _ => [.call t .tryWait]
  | t, .step, s, ⟨_, .tryWait⟩, ⟨_, .outside⟩ => [.ret t (some s.tryWait)]
  | t, .step, _, _, ⟨_, .outside⟩ => [.ret t none]
  -- from `count_down` to `wait` in `arrive_and_wait`
  | t, .step, _, _, ⟨_, .fastPath⟩ => [.ret t none, .call t .wait]
  | _, _, _, _, _ => []

/-- Where a task stands on the counter. -/
def Pc.stand : Pc τ → Object.Phase Op (Option Bool)
  | .outside => .idle
  | .fetchSub _ update => .called (.countDown update)
  | .resumeAll _ _ => .done none
  | .tryWait => .called .tryWait
  | .fastPath | .waitIf _ | .assertZero => .called .wait

/-- The counter behind a configuration. -/
structure Implements (c : Config τ (Shared τ) (Local τ))
    (d : Config τ ℕ (Object.Phase Op (Option Bool))) : Prop where
  phases : Object.Tracks (fun l : Local τ => l.pc.stand) c.loc d.loc
  counter : (d.shared : ℤ) = c.shared.counter

/-- What follows on the return from `count_down`. -/
def After.calls (t : τ) : After → List (Object.Event τ Op (Option Bool))
  | .return => []
  | .wait => [.call t .wait]

omit [DecidableEq τ] in
/-- What is seen where `count_down` ends: its return, and the call of `wait` behind it. -/
theorem observe_enter {t : τ} {s : Shared τ} {l : Local τ} {k : After} {q : Queue τ} {b : ℕ}
    (hl : l.pc ≠ .tryWait) : observe t .step s l (k.enter t q b) = .ret t none :: k.calls t := by
  obtain ⟨n, pc⟩ := l
  cases k <;> cases pc <;> first | rfl | exact absurd rfl hl

/-- A task that returns from `count_down` goes on as its call says. -/
theorem moves_enter (expected : ℕ) {d : Config τ ℕ (Object.Phase Op (Option Bool))} {t : τ}
    {k : After} {q : Queue τ} {b : ℕ} (hp : d.loc t = .done none) :
    (counter τ expected).Moves d (.ret t none :: k.calls t) []
      ⟨d.shared, Function.update d.loc t (k.enter t q b).pc.stand⟩ := by
  cases k with
  | «return» => exact .ret .refl hp
  | wait =>
    have hm : (counter τ expected).Moves d ([.ret t none] ++ [.call t .wait]) [] _ :=
      (Object.Moves.refl.ret hp).call .wait (Function.update_self ..)
    rwa [Function.update_idem] at hm

variable [Fintype τ] {expected : ℕ} {c : Config τ (Shared τ) (Local τ)} {t : τ} {s : Shared τ}
  {l : Local τ}

/-- Every step is matched on the counter. -/
theorem implements_step {d : Config τ ℕ (Object.Phase Op (Option Bool))} {a : Act}
    (hI : Inv expected c) (h : Implements c d)
    (hn : next t a c.shared (c.loc t) = some (s, l)) : ∃ ops d',
      (counter τ expected).Moves d (observe t a c.shared (c.loc t) l) ops d' ∧
        Implements ⟨s, Function.update c.loc t l⟩ d' := by
  have hp := h.phases t
  have hc := h.counter
  have hle := hI.pending_le t
  have hzero := hI.asserted t
  -- a step that leaves the counter, and a task that is seen or not
  have hquiet (hs : s.counter = c.shared.counter) (hq : l.pc.stand = (c.loc t).pc.stand) :
      Implements ⟨s, Function.update c.loc t l⟩ d := ⟨h.phases.stay hq, hc.trans hs.symm⟩
  have hseen {n : ℕ} (hs : (n : ℤ) = s.counter) : Implements ⟨s, Function.update c.loc t l⟩
      ⟨n, Function.update d.loc t l.pc.stand⟩ := ⟨h.phases.update, hs⟩
  generalize c.loc t = l₀ at *
  cases a with
  | countDown update | arriveAndWait update =>
    cases step_of_next hn <;> simp [next, Local.enterWait] at hn
    obtain ⟨rfl, -⟩ := hn
    exact ⟨_, _, .call _ .refl hp, hseen hc⟩
  | wait | tryWait =>
    cases step_of_next hn <;> simp [next, Local.enterWait] at hn
    exact ⟨_, _, .call _ .refl hp, hseen hc⟩
  | step =>
    cases step_of_next hn with
    | call | callWait | callTryWait => simp [next] at hn
    | @reachesZero b k update hs =>
      simp only [Local.pending] at hle
      obtain ⟨n, hn'⟩ : ∃ n, d.shared = n + update := Nat.exists_eq_add_of_le' (by omega)
      exact ⟨_, _, .effect .refl hp (hn' ▸ Serves.countDown), hseen (by simp only; omega)⟩
    | @takes b k update hs =>
      simp only [Local.pending] at hle
      obtain ⟨n, hn'⟩ : ∃ n, d.shared = n + update := Nat.exists_eq_add_of_le' (by omega)
      rw [observe_enter (by simp)]
      have hm := (Object.Moves.refl.effect hp (hn' ▸ Serves.countDown (t := t))).trans
        (moves_enter expected (k := k) (q := c.shared.waiters) (b := b)
          (Function.update_self ..))
      rw [Function.update_idem] at hm
      exact ⟨_, _, hm, hseen (by simp only; omega)⟩
    | resumeAll hr => exact ⟨_, _, .refl, hquiet rfl rfl⟩
    | resumedAll hr =>
      rw [observe_enter (by simp)]
      exact ⟨_, _, moves_enter _ hp, hseen hc⟩
    | tryWait =>
      have hv : c.shared.tryWait = decide (d.shared = 0) := by
        simp only [Shared.tryWait, decide_eq_decide]
        omega
      refine ⟨[(t, .tryWait, some (decide (d.shared = 0)))], _, ?_, hseen hc⟩
      simpa [observe, hv, Pc.stand] using
        Object.Moves.serve (O := counter τ expected) hp Serves.tryWait
    | passes hs => exact ⟨_, _, .refl, hquiet rfl rfl⟩
    | waits => exact ⟨_, _, .refl, hquiet rfl rfl⟩
    | waitIf hw => exact ⟨_, _, .refl, hquiet rfl rfl⟩
    | waited hw => exact ⟨_, _, .refl, hquiet rfl rfl⟩
    | returns =>
      -- the counter is zero where `wait` asserts it
      have hs : d.shared = 0 := by
        have := hzero rfl
        omega
      exact ⟨_, _, Object.Moves.serve hp (hs ▸ Serves.wait), hseen (by simpa [hs] using hc)⟩

/-- **The latch is an atomic counter.**  Whatever the tasks do, as long as the updates of
all calls are at most the initial count, what they see can be explained by a counter whose
operations take effect at one instant, each between its call and its return: `count_down`
takes its update off, `wait` waits for the zero, and `try_wait` tells whether it has been
reached. -/
theorem latch_linearizable (expected : ℕ) (sched : List (τ × Act))
    (hok : (start τ expected).Admits next (WithinExpected expected) sched) :
    (counter τ expected).Linearizable ((start τ expected).history next observe sched) := by
  refine Object.linearizable_of_simulation observe Implements ⟨fun t => rfl, rfl⟩ ?_ sched hok
  intro c d t a s l hr h hok hn
  exact implements_step (inv_of_reach hr) h hn

/-- The theorem where a task arrives last and waits. -/
theorem latch_linearizable_three_tasks :
    (start (Fin 3) 3).history next observe threeTasks =
      [.call 0 .wait, .call 1 (.countDown 0), .ret 1 none, .call 1 (.countDown 3), .ret 1 none,
        .call 2 (.countDown 0), .ret 2 none, .call 2 .wait] ∧
    (counter (Fin 3) 3).Linearizable ((start (Fin 3) 3).history next observe threeTasks) :=
  ⟨by decide, latch_linearizable 3 threeTasks (by decide)⟩

/-! ### Rest -/

/-- A step of a task inside the code. -/
def Inside (_ : Config τ (Shared τ) (Local τ)) (_ : τ) (a : Act) : Prop := a = .step

/-- How often a task can still change the counter or take the list. -/
def Local.moves (l : Local τ) : ℕ :=
  l.place.debt + match l.pc with
    | .fetchSub _ _ => 2
    | _ => 0

/-- The steps after `count_down` as long as nobody changes the counter or wakes the
task. -/
def After.rank : After → ℕ
  | .return => 0
  | .wait => 7

/-- The steps of a task as long as nobody changes the counter or wakes it. -/
def Local.rank (s : Shared τ) (l : Local τ) : ℕ :=
  match l.pc with
  | .outside | .fetchSub _ _ => 0
  | .resumeAll k r =>
    (WaitQueue.Pc.resumeAll r).rank s.waiters.resumed (s.counter ≠ 0) k.rank
  | .tryWait | .assertZero => 1
  | .fastPath => 7
  | .waitIf w => (WaitQueue.Pc.waitIf w).rank s.waiters.resumed (s.counter ≠ 0) 1

/-- The budget of a task. -/
def budget (τ : Type*) [DecidableEq τ] : Budget (Shared τ) (Local τ) where
  moves := Local.moves
  hands l := l.place.view.hands.length
  rank := Local.rank

omit [Fintype τ] in
/-- While the counter stays, the rank of a task changes only if it is woken. -/
theorem rank_congr {s s' : Shared τ} (l : Local τ) (hs : s'.counter = s.counter)
    (hr : ∀ sp, l.place.view.stage = .pushed sp →
      (sp ∈ s'.waiters.resumed ↔ sp ∈ s.waiters.resumed)) : l.rank s' = l.rank s := by
  obtain ⟨n, pc⟩ := l
  cases pc with
  | waitIf w | resumeAll k r =>
    simp only [Local.rank, hs]
    exact WaitQueue.Pc.rank_congr hr
  | _ => rfl

omit [Fintype τ] in
/-- What remains of such a task is what remains of the call. -/
theorem enter_rank {s : Shared τ} (k : After) (t : τ) (q : Queue τ) (b : ℕ) :
    (k.enter t q b).rank s = k.rank := by
  cases k <;> rfl

omit [DecidableEq τ] [Fintype τ] in
/-- It takes nothing more off the counter. -/
theorem enter_moves (k : After) (t : τ) (q : Queue τ) (b : ℕ) : (k.enter t q b).moves = 0 := by
  cases k <;> rfl

/-- **No step of a task inside is free.** -/
theorem spends (hL : Ledger c.shared.waiters fun t => (c.loc t).place.view)
    (hn : next t .step c.shared (c.loc t) = some (s, l)) :
    (budget τ).Spends c t (c.loc t) s l := by
  have hs := step_of_next hn
  -- a step of the queue raises no other task's rank, unless it wakes
  have hothers : s.counter = c.shared.counter → (budget τ).hands (c.loc t) ≤ (budget τ).hands l →
      ∀ u, u ≠ t → (budget τ).rank s (c.loc u) ≤ (budget τ).rank c.shared (c.loc u) :=
    fun hl hh u hu => (rank_congr _ hl fun sp hsp => hs.queue.effect.resumed_iff hL hh hu hsp).le
  have hcall : ∀ sp, (c.loc t).place.view.stage = .callback sp → sp ∉ c.shared.waiters.resumed :=
    fun sp hst => hL.not_resumed_of_callback hst
  have hpred : (!c.shared.tryWait) = decide (c.shared.counter ≠ 0) := by simp [Shared.tryWait]
  generalize c.loc t = l₀ at *
  cases hs with
  | call | callWait | callTryWait => simp [next] at hn
  | reachesZero => exact .move Nat.one_lt_two
  | takes =>
    refine .move ?_
    simp only [budget, enter_moves]
    exact Nat.zero_lt_two
  | @resumeAll b k r q r' hr =>
    have hq : WaitQueue.next t (.step (c.shared.counter ≠ 0)) c.shared.waiters (.resumeAll r) =
        some (q, .resumeAll r') := by
      simp [WaitQueue.next, hr]
    exact (next_spent (k := k.rank) hq hcall).spends (Nat.add_comm ..).le le_rfl le_rfl
      (hothers rfl)
  | @resumedAll b k r q hr =>
    have hq : WaitQueue.next t (.step (c.shared.counter ≠ 0)) c.shared.waiters (.resumeAll r) =
        some (q, .idle) := by
      simp [WaitQueue.next, hr]
    have hsp := next_spent (k := k.rank) hq hcall
    rw [← enter_place k t q b] at hsp
    refine hsp.spends ?_ le_rfl ?_ (hothers rfl)
    · simp only [budget, enter_moves, enter_place]
      exact (Nat.add_comm ..).le
    · simp only [budget, enter_rank, enter_place]
      exact le_rfl
  | tryWait | returns => exact .walk le_rfl le_rfl Nat.zero_lt_one fun u _ => le_rfl
  | passes => exact .walk le_rfl le_rfl (by simp [budget, Local.rank]) fun u _ => le_rfl
  | waits =>
    refine .walk le_rfl le_rfl ?_ fun u _ => le_rfl
    simp only [budget, Local.rank, WaitQueue.Pc.rank, WaitIf.rank]
    split_ifs <;> omega
  | @waitIf b w q w' hw =>
    have hq : WaitQueue.next t (.step (c.shared.counter ≠ 0)) c.shared.waiters (.waitIf w) =
        some (q, .waitIf w') := by
      simp [WaitQueue.next, ← hpred, hw]
    exact (next_spent (k := 1) hq hcall).spends le_rfl le_rfl le_rfl (hothers rfl)
  | @waited b w q hw =>
    have hq : WaitQueue.next t (.step (c.shared.counter ≠ 0)) c.shared.waiters (.waitIf w) =
        some (q, .idle) := by
      simp [WaitQueue.next, ← hpred, hw]
    exact (next_spent (k := 1) hq hcall).spends le_rfl le_rfl le_rfl (hothers rfl)

/-- Nothing is left to do without a new call. -/
structure AtRest (expected : ℕ) (c : Config τ (Shared τ) (Local τ)) : Prop where
  /-- Every task is outside, or it is suspended in `wait` and in the queue. -/
  everyone (t : τ) : (c.loc t).pc = .outside ∨ ∃ sp, (c.loc t).pc = .waitIf (.queued sp) ∧
    sp ∈ c.shared.waiters.waiters ∧ sp ∉ c.shared.waiters.resumed
  /-- The counter is what the calls so far have left, -/
  left : c.shared.counter + c.shared.requested = expected
  /-- and a suspended task waits for calls to come. -/
  waits (t : τ) : (c.loc t).pc ≠ .outside → c.shared.requested < expected
  /-- With every task outside nobody is in the queue, as its destructor asserts. -/
  empty : (∀ t, (c.loc t).pc = .outside) → c.shared.waiters.waiters = []

/-- Where nobody inside can step, the latch is at rest. -/
theorem atRest (hI : Inv expected c) (hrest : ∀ t a, Inside c t a → c.step next t a = none) :
    AtRest expected c := by
  have hnone (t : τ) : next t .step c.shared (c.loc t) = none :=
    Option.map_eq_none_iff.1 (hrest t .step rfl)
  have hqueue := (hI.ledger.at_rest fun t hne => ⟨!c.shared.tryWait, by
    have := hnone t
    generalize c.loc t = l at this hne ⊢
    obtain ⟨n, pc⟩ := l
    cases pc with
    | waitIf w | resumeAll k r => simpa [Local.place, WaitQueue.next, next] using this
    | _ => exact absurd rfl hne⟩).2
  have hall (t : τ) : (c.loc t).pc = .outside ∨ ∃ sp, (c.loc t).pc = .waitIf (.queued sp) ∧
      sp ∈ c.shared.waiters.waiters ∧ sp ∉ c.shared.waiters.resumed := by
    have hq := hqueue t
    have hn := hnone t
    generalize c.loc t = l at hq hn
    obtain ⟨n, pc⟩ := l
    cases pc with
    | outside => exact .inl rfl
    | waitIf w => exact .inr (by simpa [Local.place] using hq)
    | resumeAll k r => simp [Local.place] at hq
    | _ => simp [next] at hn
  have hleft : c.shared.counter + c.shared.requested = expected := by
    have hpending : total Local.pending c.loc = 0 := total_eq_zero.2 fun u => by
      rcases hall u with ho | ⟨sp, ho, -⟩ <;> simp [Local.pending, ho]
    have := hI.account
    omega
  refine ⟨hall, hleft, fun t hne => ?_, fun hout => ?_⟩
  · obtain ⟨sp, -, hsp, -⟩ := (hall t).resolve_left hne
    have hwithin := hI.within
    rcases hI.attended.queued sp hsp with hpos | ⟨u, hu⟩
    · omega
    · rcases hall u with ho | ⟨sp', ho, -⟩ <;> simp [Local.place, ho, WaitQueue.Pc.owes] at hu
  · exact hI.ledger.waiters_eq_nil fun t => by
      simp [Local.place, hout t, WaitQueue.Pc.view]

/-- **The latch comes to rest.**  From every configuration of a run within the initial
count, the steps of the tasks inside, in whatever order, end.  Where they end every task is
outside or suspended in the queue; one is suspended only if the updates of the calls so
far are less than the initial count; and with every task outside the queue is empty. -/
theorem latch_comes_to_rest (h : Reach next (WithinExpected expected) (start τ expected) c) :
    ComesToRest next Inside (AtRest expected) c :=
  h.comesToRest (budget τ).measure
    (fun _ _ _ ha => by
      obtain rfl := ha
      exact trivial)
    (fun _ _ _ _ _ hr ha hn => by
      subst ha
      exact (spends (inv_of_reach hr).ledger hn).lt)
    fun _ hr hrest => atRest (inv_of_reach hr) hrest

/-- The theorem where two tasks are about to return from `wait`. -/
theorem latch_comes_to_rest_three_tasks :
    ∃ c, (start (Fin 3) 3).exec next threeTasks = some c ∧ c.shared.requested = 3 ∧
      ComesToRest next Inside (AtRest 3) c :=
  ⟨_, rfl, rfl, latch_comes_to_rest (reach_of_exec (l := threeTasks) rfl (by decide))⟩

end Latch
end CoopSync
