/-
# The steps of the shared mutex

One case for each outcome of a line of `SharedMutex.Model` (`Step`), and what a
step does on the two wait queues.  Two evaluations of the writer's predicate win
the exchange, at the head of `wait_if` and under the queue's lock
(`Step.fastPathWins`, `Step.recheckWins`); in all other steps of a writer's
`wait_if` the predicate is true or not evaluated.
-/

import CoopSync.SharedMutex.Model
import CoopSync.WaitQueue.Ledger

namespace CoopSync
namespace SharedMutex

open WaitQueue

variable {τ : Type*}

/-- What a task does on the queue of the writers. -/
def Local.writerView (l : Local τ) : View τ :=
  match l.pc with
  | .lockWait w => w.view
  | .handoff (.resumeOne r) => r.view
  | _ => View.idle

/-- What a task does on the queue of the readers. -/
def Local.readerView (l : Local τ) : View τ :=
  match l.pc with
  | .lockSharedWait w => w.view
  | .handoff (.resumeAll r) => r.view
  | _ => View.idle

variable [DecidableEq τ]

/-- The steps of a task, one case for each outcome of a line of the source. -/
inductive Step (t : τ) (s : Shared τ) : Local τ → Shared τ → Local τ → Prop
  | callLock {m n h} :
      Step t s ⟨m, n, h, .outside⟩ s ⟨m, n, { h with calls := h.calls + 1 }, .lockTry⟩
  | callTryLock {m n h} : Step t s ⟨m, n, h, .outside⟩ s ⟨m, n, h, .tryLock⟩
  | callUnlock {m n h} : Step t s ⟨m + 1, n, h, .outside⟩ s ⟨m, n, h, .unlockAssert⟩
  | callLockShared {m n h} : Step t s ⟨m, n, h, .outside⟩ s ⟨m, n, h, .lockSharedTry .load⟩
  | callTryLockShared {m n h} : Step t s ⟨m, n, h, .outside⟩ s ⟨m, n, h, .tryLockShared .load⟩
  | callUnlockShared {m n h} : Step t s ⟨m, n + 1, h, .outside⟩ s ⟨m, n, h, .unlockSharedLoad⟩
  | tryLockFails {m n h} (hs : s.state ≠ 0) : Step t s ⟨m, n, h, .tryLock⟩ s ⟨m, n, h, .outside⟩
  | tryLockWins {m n h} (hs : s.state = 0) :
      Step t s ⟨m, n, h, .tryLock⟩ { s with state := kWriterLocked } ⟨m + 1, n, h, .outside⟩
  | lockFails {m n h} (hs : s.state ≠ 0) :
      Step t s ⟨m, n, h, .lockTry⟩ s ⟨m, n, h, .lockWait .fastPath⟩
  | lockWins {m n h} (hs : s.state = 0) :
      Step t s ⟨m, n, h, .lockTry⟩ { s with state := kWriterLocked }
        ⟨m + 1, n, { h with wins := h.wins + 1 }, .outside⟩
  | fastPathWins {m n h} (hs : s.state = 0) :
      Step t s ⟨m, n, h, .lockWait .fastPath⟩ { s with state := kWriterLocked }
        ⟨m, n, { h with wins := h.wins + 1 }, .lockAssert⟩
  | recheckWins {m n h sp} (hs : s.state = 0) :
      Step t s ⟨m, n, h, .lockWait (.recheck sp)⟩ { s with state := kWriterLocked }
        ⟨m, n, { h with wins := h.wins + 1 }, .lockWait (.unlockResume sp)⟩
  | wait {m n h w q r} (hs : w.evaluates = true → s.state ≠ 0)
      (hw : w.step t true s.writerWaiters = some (q, r)) :
      Step t s ⟨m, n, h, .lockWait w⟩ { s with writerWaiters := q }
        ⟨m, n, { h with handoffs := h.handoffs + continued w }, r.elim .lockAssert .lockWait⟩
  | lockAssert {m n h} : Step t s ⟨m, n, h, .lockAssert⟩ s ⟨m + 1, n, h, .outside⟩
  | unlockAssert {m n h} :
      Step t s ⟨m, n, h, .unlockAssert⟩ s ⟨m, n, h, .handoff (.resumeOne .lock)⟩
  | trySharedAgain {m n h a a'} :
      Step t s ⟨m, n, h, .tryLockShared a⟩ s ⟨m, n, h, .tryLockShared a'⟩
  | trySharedWins {m n h a} (hs : 0 ≤ s.state) :
      Step t s ⟨m, n, h, .tryLockShared a⟩ { s with state := s.state + 1 } ⟨m, n + 1, h, .outside⟩
  | trySharedLoses {m n h a} : Step t s ⟨m, n, h, .tryLockShared a⟩ s ⟨m, n, h, .outside⟩
  | lockSharedAgain {m n h a a'} :
      Step t s ⟨m, n, h, .lockSharedTry a⟩ s ⟨m, n, h, .lockSharedTry a'⟩
  | lockSharedWins {m n h a} (hs : 0 ≤ s.state) :
      Step t s ⟨m, n, h, .lockSharedTry a⟩ { s with state := s.state + 1 } ⟨m, n + 1, h, .outside⟩
  | lockSharedLoses {m n h a} :
      Step t s ⟨m, n, h, .lockSharedTry a⟩ s ⟨m, n, h, .lockSharedWait .fastPath⟩
  | waitShared {m n h w q r} (hw : w.step t (s.state < 0) s.readerWaiters = some (q, r)) :
      Step t s ⟨m, n, h, .lockSharedWait w⟩ { s with readerWaiters := q }
        ⟨m, n, h, r.elim (.lockSharedTry .load) .lockSharedWait⟩
  | unlockSharedLoad {m n h} :
      Step t s ⟨m, n, h, .unlockSharedLoad⟩ s ⟨m, n, h, .unlockSharedLoop s.state⟩
  | unlockSharedAgain {m n h k} :
      Step t s ⟨m, n, h, .unlockSharedLoop k⟩ s ⟨m, n, h, .unlockSharedLoop s.state⟩
  | unlockSharedLeaves {m n h} (hs : 1 < s.state) :
      Step t s ⟨m, n, h, .unlockSharedLoop s.state⟩ { s with state := s.state - 1 }
        ⟨m, n, h, .outside⟩
  | unlockSharedLast {m n h} (hs : ¬1 < s.state) :
      Step t s ⟨m, n, h, .unlockSharedLoop s.state⟩ { s with state := kTransition }
        ⟨m, n, h, .unlockSharedStore⟩
  | unlockSharedStore {m n h} :
      Step t s ⟨m, n, h, .unlockSharedStore⟩ { s with state := kWriterLocked }
        ⟨m, n, h, .handoff (.resumeOne .lock)⟩
  | resumes {m n h r q r'} (hr : r.step t s.writerWaiters = some (q, .inl r')) :
      Step t s ⟨m, n, h, .handoff (.resumeOne r)⟩ { s with writerWaiters := q }
        ⟨m, n, h, .handoff (.resumeOne r')⟩
  | handsOver {m n h r q} (hr : r.step t s.writerWaiters = some (q, .inr true)) :
      Step t s ⟨m, n, h, .handoff (.resumeOne r)⟩ { s with writerWaiters := q } ⟨m, n, h, .outside⟩
  | findsNobody {m n h r q} (hr : r.step t s.writerWaiters = some (q, .inr false)) :
      Step t s ⟨m, n, h, .handoff (.resumeOne r)⟩ { s with writerWaiters := q }
        ⟨m, n, h, .handoff .store⟩
  | store {m n h} :
      Step t s ⟨m, n, h, .handoff .store⟩ { s with state := 0 }
        ⟨m, n, h, .handoff (.resumeAll .lock)⟩
  | resumeAll {m n h r q o} (hr : r.step t s.readerWaiters = some (q, o)) :
      Step t s ⟨m, n, h, .handoff (.resumeAll r)⟩ { s with readerWaiters := q }
        ⟨m, n, h, o.elim .outside fun r => .handoff (.resumeAll r)⟩

omit [DecidableEq τ] in
/-- `try_lock_shared` goes on, or takes a share of a state that allows it, or
gives up. -/
theorem TryLockShared.step_cases (spurious : Bool) (state : ℤ) (a : TryLockShared) :
    (∃ a', a.step spurious state = (state, .inl a')) ∨
      0 ≤ state ∧ a.step spurious state = (state + 1, .inr true) ∨
      a.step spurious state = (state, .inr false) := by
  cases a with
  | load => exact .inl ⟨_, rfl⟩
  | loop expected =>
    by_cases he : 0 ≤ expected
    · by_cases heq : state = expected ∧ spurious = false
      · exact .inr (.inl ⟨heq.1 ▸ he, by simp [TryLockShared.step, he, heq]⟩)
      · exact .inl ⟨.loop state, by simp only [TryLockShared.step, he, heq, if_true, if_false]⟩
    · exact .inr (.inr (by simp [TryLockShared.step, he]))

/-- A step that does not evaluate the predicate does not depend on it. -/
theorem step_of_not_evaluates {w : WaitIf τ} (h : w.evaluates = false) (t : τ) (p p' : Bool)
    (q : Queue τ) : w.step t p q = w.step t p' q := by
  cases w <;> first | rfl | simp [WaitIf.evaluates] at h

/-- The steps of a waiting writer, by whether the evaluation of its predicate wins. -/
theorem Step.of_lockWait {t : τ} {s : Shared τ} {m n : ℕ} {h : History} {w : WaitIf τ}
    {x : ℤ} {q : Queue τ} {r : Option (WaitIf τ)}
    (hw : w.stepWith writerWaits t s.state s.writerWaiters = some (x, q, r)) :
    Step t s ⟨m, n, h, .lockWait w⟩ { s with state := x, writerWaiters := q }
      ⟨m, n, { h with
          wins := h.wins + if w.evaluates ∧ (tryLock s.state).1 then 1 else 0
          handoffs := h.handoffs + continued w },
        r.elim .lockAssert .lockWait⟩ := by
  obtain ⟨state, wq, rq⟩ := s
  unfold WaitIf.stepWith at hw
  by_cases hs : state = 0
  · subst hs
    by_cases he : w.evaluates = true
    · rw [if_pos he] at hw
      cases w with
      | fastPath =>
        obtain ⟨rfl, rfl, rfl⟩ := by simpa [writerWaits, tryLock, WaitIf.step] using hw
        simpa [WaitIf.evaluates, tryLock, continued] using Step.fastPathWins rfl
      | recheck sp =>
        obtain ⟨rfl, rfl, rfl⟩ := by simpa [writerWaits, tryLock, WaitIf.step] using hw
        simpa [WaitIf.evaluates, tryLock, continued] using Step.recheckWins rfl
      | _ => simp [WaitIf.evaluates] at he
    · rw [if_neg he] at hw
      obtain ⟨⟨q₁, r₁⟩, hst, heq⟩ := Option.map_eq_some_iff.1 hw
      obtain ⟨rfl, rfl, rfl⟩ := by simpa using heq
      rw [if_neg fun h => he h.1]
      exact .wait (fun he' => absurd he' he)
        ((step_of_not_evaluates (by simpa using he) t _ _ _).trans hst)
  · have hpred : writerWaits state = (true, state) := by simp [writerWaits, tryLock, hs]
    have hmap : (w.step t true wq).map (fun r => (state, r)) = some (x, q, r) := by
      by_cases he : w.evaluates = true
      · rwa [if_pos he, hpred] at hw
      · rwa [if_neg he, step_of_not_evaluates (by simpa using he) t false true] at hw
    obtain ⟨⟨q₁, r₁⟩, hst, heq⟩ := Option.map_eq_some_iff.1 hmap
    obtain ⟨rfl, rfl, rfl⟩ := by simpa using heq
    rw [if_neg fun h => by simp [tryLock, hs] at h]
    exact .wait (fun _ => hs) hst

/-- The steps of a hand-off. -/
theorem Step.of_handoff {t : τ} {s s' : Shared τ} {m n : ℕ} {h : History} {f : Handoff τ}
    {o : Option (Handoff τ)} (hf : f.step t s = some (s', o)) :
    Step t s ⟨m, n, h, .handoff f⟩ s' ⟨m, n, h, o.elim .outside .handoff⟩ := by
  cases f with
  | resumeOne r =>
    obtain ⟨⟨q, res⟩, hr, heq⟩ := Option.map_eq_some_iff.1 hf
    obtain ⟨rfl, rfl⟩ := by simpa using heq
    rcases res with r' | _ | _
    exacts [.resumes hr, .findsNobody hr, .handsOver hr]
  | store =>
    obtain ⟨rfl, rfl⟩ := by simpa [Handoff.step] using hf
    exact .store
  | resumeAll r =>
    obtain ⟨⟨q, o'⟩, hr, heq⟩ := Option.map_eq_some_iff.1 hf
    obtain ⟨rfl, rfl⟩ := by simpa using heq
    cases o' <;> exact .resumeAll hr

/-- **Every step of the code is one of the cases.** -/
theorem step_of_next {t : τ} {a : Act} {s s' : Shared τ} {l l' : Local τ}
    (hn : next t a s l = some (s', l')) : Step t s l s' l' := by
  obtain ⟨m, n, h, pc⟩ := l
  cases a with
  | lock | tryLock | lockShared | tryLockShared =>
    cases pc <;> simp only [next, reduceCtorEq, Option.some.injEq, Prod.mk.injEq] at hn
    obtain ⟨rfl, rfl⟩ := hn
    constructor
  | unlock =>
    cases pc <;> cases m <;> simp only [next, reduceCtorEq, Option.some.injEq, Prod.mk.injEq] at hn
    obtain ⟨rfl, rfl⟩ := hn
    exact .callUnlock
  | unlockShared =>
    cases pc <;> cases n <;> simp only [next, reduceCtorEq, Option.some.injEq, Prod.mk.injEq] at hn
    obtain ⟨rfl, rfl⟩ := hn
    exact .callUnlockShared
  | step spurious =>
    cases pc with
    | outside => simp [next] at hn
    | tryLock | lockTry =>
      by_cases hs : s.state = 0 <;> simp [next, SharedMutex.tryLock, hs] at hn <;>
        obtain ⟨rfl, rfl⟩ := hn <;> constructor <;> exact hs
    | lockWait w =>
      obtain ⟨⟨x, q, r⟩, hw, he⟩ := Option.map_eq_some_iff.1 hn
      obtain ⟨rfl, rfl⟩ := by simpa using he
      exact .of_lockWait hw
    | lockAssert | unlockAssert | unlockSharedLoad | unlockSharedStore =>
      obtain ⟨rfl, rfl⟩ := by simpa [next] using hn
      constructor
    | tryLockShared a =>
      simp only [next] at hn
      rcases a.step_cases spurious s.state with ⟨a', ha⟩ | ⟨hs, ha⟩ | ha <;> rw [ha] at hn <;>
        obtain ⟨rfl, rfl⟩ := by simpa using hn
      exacts [.trySharedAgain, .trySharedWins hs, .trySharedLoses]
    | lockSharedTry a =>
      simp only [next] at hn
      rcases a.step_cases spurious s.state with ⟨a', ha⟩ | ⟨hs, ha⟩ | ha <;> rw [ha] at hn <;>
        obtain ⟨rfl, rfl⟩ := by simpa using hn
      exacts [.lockSharedAgain, .lockSharedWins hs, .lockSharedLoses]
    | lockSharedWait w =>
      obtain ⟨⟨q, r⟩, hw, he⟩ := Option.map_eq_some_iff.1 hn
      obtain ⟨rfl, rfl⟩ := by simpa using he
      exact .waitShared hw
    | unlockSharedLoop k =>
      simp only [next] at hn
      split_ifs at hn with hk hlt <;> obtain ⟨rfl, rfl⟩ := by simpa using hn
      · obtain ⟨rfl, -⟩ := hk
        exact .unlockSharedLeaves hlt
      · obtain ⟨rfl, -⟩ := hk
        exact .unlockSharedLast hlt
      · exact .unlockSharedAgain
    | handoff f =>
      obtain ⟨⟨s₁, o⟩, hf, he⟩ := Option.map_eq_some_iff.1 hn
      obtain ⟨rfl, rfl⟩ := by simpa using he
      exact .of_handoff hf

/-! ### The two queues -/

/-- What a step does on the writers' queue is an effect of the queue's code. -/
theorem Step.writerEffect {t : τ} {s s' : Shared τ} {l l' : Local τ} (h : Step t s l s' l') :
    Effect t s.writerWaiters l.writerView s'.writerWaiters l'.writerView := by
  cases h with
  | wait hs hw => rename_i r; cases r <;> exact WaitIf.effect hw
  | resumes hr | handsOver hr | findsNobody hr => exact ResumeOne.effect hr
  | waitShared hw => rename_i r; cases r <;> exact .stay
  | resumeAll hr => rename_i o; cases o <;> exact .stay
  | _ => exact .stay

/-- What a step does on the readers' queue is an effect of the queue's code. -/
theorem Step.readerEffect {t : τ} {s s' : Shared τ} {l l' : Local τ} (h : Step t s l s' l') :
    Effect t s.readerWaiters l.readerView s'.readerWaiters l'.readerView := by
  cases h with
  | wait hs hw => rename_i r; cases r <;> exact .stay
  | waitShared hw => rename_i r; cases r <;> exact WaitIf.effect hw
  | resumeAll hr => rename_i o; cases o <;> exact ResumeAll.effect hr
  | _ => exact .stay

variable [Fintype τ] {ok : Config τ (Shared τ) (Local τ) → τ → Act → Prop}
  {c : Config τ (Shared τ) (Local τ)}

/-- The ledger of the writers' queue holds in every run. -/
theorem writerLedger (h : Reach next ok (start τ) c) :
    Ledger c.shared.writerWaiters fun t => (c.loc t).writerView :=
  Ledger.of_reach Shared.writerWaiters Local.writerView rfl (fun _ => rfl)
    (fun _ _ _ _ _ _ hn => (step_of_next hn).writerEffect) h

/-- So does that of the readers' queue. -/
theorem readerLedger (h : Reach next ok (start τ) c) :
    Ledger c.shared.readerWaiters fun t => (c.loc t).readerView :=
  Ledger.of_reach Shared.readerWaiters Local.readerView rfl (fun _ => rfl)
    (fun _ _ _ _ _ _ hn => (step_of_next hn).readerEffect) h

end SharedMutex
end CoopSync
