/-
# The steps of the barrier's clients

One case for each outcome of a line of `Barrier.Clients` (`Step`), and what a step does
on the wait queue.
-/

import CoopSync.Barrier.Clients
import CoopSync.Barrier.Steps

namespace CoopSync
namespace Barrier
namespace Clients

open WaitQueue

variable {τ : Type*}

/-- What a task does on the wait queue. -/
def Pc.view : Pc τ → View τ
  | .arrive _ (.resumeAll _ r) => r.view
  | .waitIf _ w => w.view
  | _ => View.idle

variable [DecidableEq τ]

/-- The steps of a task, one case for each outcome of a line of the source. -/
inductive Step (t : τ) (s : Shared τ) : Act → Pc τ → Shared τ → Pc τ → Prop
  | callArrive {u} :
      Step t s (.arrive u) .outside { s with begun := s.begun + u }
        (.arrive (s.call .keep u) .load)
  | callArriveAndWait :
      Step t s .arriveAndWait .outside { s with begun := s.begun + 1 }
        (.arrive (s.call .wait 1) .load)
  | callDrop :
      Step t s .arriveAndDrop .outside { s with begun := s.begun + 1, drops := s.drops + 1 }
        (.dropSub (s.call .drop 1))
  | callWait {i tok} (htok : tok ∈ s.tokens) : Step t s (.wait i) .outside s (.waitLoad tok)
  | dropSub {call} :
      Step t s .step (.dropSub call) { s with initialExpected := s.initialExpected - 1 }
        (.arrive call .load)
  | load {call} :
      Step t s .step (.arrive call .load) s
        (.arrive { call with number := s.number } (.fetchSub s.phase))
  | takesLast {call p} (hs : s.expected = call.update) :
      Step t s .step (.arrive call (.fetchSub p))
        { s with expected := s.expected - call.update, applied := s.applied + call.update }
        (.arrive { call with before := s.expected } (.completion p))
  | takes {call p s' tok} (hs : s.expected ≠ call.update)
      (hs' : s' =
        { s with expected := s.expected - call.update, applied := s.applied + call.update })
      (htok : tok = ⟨p, { call with before := s.expected }⟩) :
      Step t s .step (.arrive call (.fetchSub p)) (s'.return tok) (After.enter tok call.after)
  | completion {call p} :
      Step t s .step (.arrive call (.completion p))
        { s with
          completions := s.completions + 1
          completed := s.completed ++ [(s.phases, call)] }
        (.arrive call (.loadInitial p))
  | loadInitial {call p} :
      Step t s .step (.arrive call (.loadInitial p)) s
        (.arrive call (.storeExpected p s.initialExpected))
  | storeExpected {call p m} :
      Step t s .step (.arrive call (.storeExpected p m)) { s with expected := m }
        (.arrive call (.storePhase p))
  | storePhase {call p} :
      Step t s .step (.arrive call (.storePhase p))
        { s with
          phase := p + 1
          phases := s.phases + 1
          number := call.number + 1
          begun := 0
          applied := 0
          phaseExpected := s.expected
          dropsBefore := s.drops }
        (.arrive call (.resumeAll p .lock))
  | resumeAll {call p r q r'} (hr : r.step t s.waiters = some (q, some r')) :
      Step t s .step (.arrive call (.resumeAll p r)) { s with waiters := q }
        (.arrive call (.resumeAll p r'))
  | resumedAll {call p r q s' tok} (hr : r.step t s.waiters = some (q, none))
      (hs' : s' = { s with waiters := q }) (htok : tok = ⟨p, call⟩) :
      Step t s .step (.arrive call (.resumeAll p r)) (s'.return tok) (After.enter tok call.after)
  | waitReturns {tok} (hp : previous tok.phase s.phase = true) :
      Step t s .step (.waitLoad tok) { s with waited := s.waited ++ [tok] } .outside
  | waitGoesOn {tok} (hp : previous tok.phase s.phase = false) :
      Step t s .step (.waitLoad tok) (s.assertCurrent tok) (.waitIf tok .fastPath)
  | wait {tok w q w'} (hw : w.step t (s.phase == tok.phase) s.waiters = some (q, some w')) :
      Step t s .step (.waitIf tok w) { s with waiters := q } (.waitIf tok w')
  | waited {tok w q} (hw : w.step t (s.phase == tok.phase) s.waiters = some (q, none)) :
      Step t s .step (.waitIf tok w) { s with waiters := q, waited := s.waited ++ [tok] } .outside

/-- Every step is one of these. -/
theorem step_of_next {t : τ} {a : Act} {s s' : Shared τ} {l l' : Pc τ}
    (hn : next t a s l = some (s', l')) : Step t s a l s' l' := by
  cases a with
  | arrive | arriveAndWait | arriveAndDrop =>
    cases l <;> simp only [next, reduceCtorEq, Option.some.injEq, Prod.mk.injEq] at hn
    obtain ⟨rfl, rfl⟩ := hn
    constructor
  | wait i =>
    cases l <;> simp only [next, reduceCtorEq] at hn
    split at hn
    · rename_i tok htok
      split_ifs at hn
      obtain ⟨rfl, rfl⟩ := by simpa using hn
      exact .callWait (List.mem_of_getElem? htok)
    · simp at hn
  | step =>
    cases l with
    | outside => simp [next] at hn
    | dropSub =>
      obtain ⟨rfl, rfl⟩ := by simpa [next] using hn
      exact .dropSub
    | arrive call a =>
      cases a with
      | fetchSub p =>
        simp only [next, Option.some.injEq] at hn
        split_ifs at hn with hs
        · obtain ⟨rfl, rfl⟩ := by simpa using hn
          exact .takesLast hs
        · obtain ⟨rfl, rfl⟩ := by simpa using hn
          exact .takes hs rfl rfl
      | resumeAll p r =>
        obtain ⟨⟨q, o⟩, hr, he⟩ := Option.map_eq_some_iff.1 hn
        cases o
        · obtain ⟨rfl, rfl⟩ := by simpa using he
          exact .resumedAll hr rfl rfl
        · obtain ⟨rfl, rfl⟩ := by simpa using he
          exact .resumeAll hr
      | load | completion | loadInitial | storeExpected | storePhase =>
        obtain ⟨rfl, rfl⟩ := by simpa [next] using hn
        constructor
    | waitLoad tok =>
      simp only [next, Option.some.injEq] at hn
      split_ifs at hn with hp
      · obtain ⟨rfl, rfl⟩ := by simpa using hn
        exact .waitReturns hp
      · obtain ⟨rfl, rfl⟩ := by simpa using hn
        exact .waitGoesOn (by simpa using hp)
    | waitIf tok w =>
      obtain ⟨⟨q, o⟩, hw, he⟩ := Option.map_eq_some_iff.1 hn
      cases o
      · obtain ⟨rfl, rfl⟩ := by simpa using he
        exact .waited hw
      · obtain ⟨rfl, rfl⟩ := by simpa using he
        exact .wait hw

omit [DecidableEq τ] in
/-- A task that returns from `arrive()` holds nothing of the queue. -/
@[simp] theorem enter_view (tok : Token) (k : After) : (After.enter tok k : Pc τ).view = View.idle := by
  cases k <;> rfl

omit [DecidableEq τ] in
/-- The assertion of `wait` changes nothing but its own record. -/
@[simp] theorem assertCurrent_toShared (s : Shared τ) (tok : Token) :
    (s.assertCurrent tok).toShared = s.toShared := by
  unfold Shared.assertCurrent
  split_ifs <;> rfl

/-- What a step does on the wait queue is an effect of the queue's code. -/
theorem Step.effect {t : τ} {a : Act} {s s' : Shared τ} {l l' : Pc τ} (h : Step t s a l s' l') :
    Effect t s.waiters l.view s'.waiters l'.view := by
  cases h with
  | takes hs hs' htok =>
    obtain rfl := hs'
    rw [enter_view]
    exact .stay
  | resumeAll hr => exact ResumeAll.effect hr
  | resumedAll hr hs' htok =>
    obtain rfl := hs'
    rw [enter_view]
    exact ResumeAll.effect hr
  | waitGoesOn =>
    rw [assertCurrent_toShared]
    exact .stay
  | wait hw => exact WaitIf.effect hw
  | waited hw => exact WaitIf.effect hw
  | _ => exact .stay

/-- The ledger of the queue holds in every run, whatever the tasks call. -/
theorem ledger [Fintype τ] {n : ℕ} {ok : Config τ (Shared τ) (Pc τ) → τ → Act → Prop}
    {c : Config τ (Shared τ) (Pc τ)} (h : Reach next ok (start τ n) c) :
    Ledger c.shared.waiters fun t => (c.loc t).view :=
  Ledger.of_reach (fun s => s.waiters) Pc.view rfl (fun _ => rfl)
    (fun _ _ _ _ _ _ hn => (step_of_next hn).effect) h

end Clients
end Barrier
end CoopSync
