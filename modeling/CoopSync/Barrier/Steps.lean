/-
# The steps of the barrier

One case for each outcome of a line of `Barrier.Model` (`Step`), what a step does
on the wait queue, and the arithmetic of the phase byte.
-/

import CoopSync.Barrier.Model
import CoopSync.WaitQueue.Wakeups

namespace CoopSync
namespace Barrier

open WaitQueue

/-! ### Phases as bytes -/

/-- Two phases have one byte when they are equal modulo 256. -/
theorem ofNat_eq_ofNat {a b : ℕ} : UInt8.ofNat a = UInt8.ofNat b ↔ a % 256 = b % 256 := by
  rw [← UInt8.toNat_inj]
  simp

/-- The byte of the next phase is the next byte. -/
theorem ofNat_add_one (a : ℕ) : UInt8.ofNat a + 1 = UInt8.ofNat (a + 1) := by
  rw [← UInt8.toNat_inj]
  simp

/-- A token of one of the last two phases is taken for a previous one only if it
is. -/
theorem previous_ofNat {a b : ℕ} (h : previous (UInt8.ofNat a) (UInt8.ofNat b) = true) :
    a % 256 ≠ b % 256 := by
  simp only [previous, decide_eq_true_eq] at h
  simp at h
  omega

variable {τ : Type*}

/-- What a task does on the wait queue. -/
def Local.view (l : Local τ) : View τ :=
  match l.pc with
  | .arrive _ (.resumeAll _ r) => r.view
  | .waitIf _ w => w.view
  | _ => View.idle

variable [DecidableEq τ]

/-- The steps of a task, one case for each outcome of a line of the source. -/
inductive Step (t : τ) (s : Shared τ) : Local τ → Shared τ → Local τ → Prop
  | callArrive {a w k} (hk : k ≠ .drop) : Step t s ⟨a, w, .outside⟩ s ⟨a, w, .arrive k .load⟩
  | callDrop {a w} : Step t s ⟨a, w, .outside⟩ s ⟨a, w, .dropSub⟩
  | callWait {a w p} : Step t s ⟨a, w, .holding p⟩ s ⟨a, w, .waitLoad p⟩
  | dropSub {a w} :
      Step t s ⟨a, w, .dropSub⟩ { s with initialExpected := s.initialExpected - 1 }
        ⟨a, w, .arrive .drop .load⟩
  | load {a w k} : Step t s ⟨a, w, .arrive k .load⟩ s ⟨a, w, .arrive k (.fetchSub s.phase)⟩
  | takesLast {a w k p} (hs : s.expected = 1) :
      Step t s ⟨a, w, .arrive k (.fetchSub p)⟩ { s with expected := s.expected - 1 }
        ⟨a + 1, w, .arrive k (.completion p)⟩
  | takesOne {a w k p} (hs : s.expected ≠ 1) :
      Step t s ⟨a, w, .arrive k (.fetchSub p)⟩ { s with expected := s.expected - 1 }
        ⟨a + 1, w, k.pc p⟩
  | completion {a w k p} :
      Step t s ⟨a, w, .arrive k (.completion p)⟩ { s with completions := s.completions + 1 }
        ⟨a, w, .arrive k (.loadInitial p)⟩
  | loadInitial {a w k p} :
      Step t s ⟨a, w, .arrive k (.loadInitial p)⟩ s
        ⟨a, w, .arrive k (.storeExpected p s.initialExpected)⟩
  | storeExpected {a w k p n} :
      Step t s ⟨a, w, .arrive k (.storeExpected p n)⟩ { s with expected := n }
        ⟨a, w, .arrive k (.storePhase p)⟩
  | storePhase {a w k p} :
      Step t s ⟨a, w, .arrive k (.storePhase p)⟩ { s with phase := p + 1, phases := s.phases + 1 }
        ⟨a, w, .arrive k (.resumeAll p .lock)⟩
  | resumeAll {a w k p r q o} (hr : r.step t s.waiters = some (q, o)) :
      Step t s ⟨a, w, .arrive k (.resumeAll p r)⟩ { s with waiters := q }
        ⟨a, w, o.elim (k.pc p) fun r => .arrive k (.resumeAll p r)⟩
  | waitReturns {a w p} (hp : previous p s.phase = true) :
      Step t s ⟨a, w, .waitLoad p⟩ s ⟨a, w + 1, .outside⟩
  | waitGoesOn {a w p} : Step t s ⟨a, w, .waitLoad p⟩ s ⟨a, w, .waitIf p .fastPath⟩
  | wait {a w p wi q r} (hw : wi.step t (s.phase == p) s.waiters = some (q, some r)) :
      Step t s ⟨a, w, .waitIf p wi⟩ { s with waiters := q } ⟨a, w, .waitIf p r⟩
  | waited {a w p wi q} (hw : wi.step t (s.phase == p) s.waiters = some (q, none)) :
      Step t s ⟨a, w, .waitIf p wi⟩ { s with waiters := q } ⟨a, w + 1, .outside⟩

/-- Every step is one of these. -/
theorem step_of_next {t : τ} {a : Act} {s s' : Shared τ} {l l' : Local τ}
    (hn : next t a s l = some (s', l')) : Step t s l s' l' := by
  obtain ⟨n, w, pc⟩ := l
  cases a with
  | arrive | arriveAndWait | arriveAndDrop | wait =>
    cases pc <;> simp only [next, reduceCtorEq, Option.some.injEq, Prod.mk.injEq] at hn
    obtain ⟨rfl, rfl⟩ := hn
    constructor
    try simp
  | step =>
    cases pc with
    | outside | holding | gone => simp [next] at hn
    | dropSub =>
      obtain ⟨rfl, rfl⟩ := by simpa [next] using hn
      exact .dropSub
    | arrive k a =>
      cases a with
      | fetchSub p =>
        obtain ⟨rfl, rfl⟩ := by simpa [next] using hn
        split_ifs with hs
        · exact .takesLast hs
        · exact .takesOne hs
      | resumeAll p r =>
        obtain ⟨⟨q, o⟩, hr, he⟩ := Option.map_eq_some_iff.1 hn
        obtain ⟨rfl, rfl⟩ := by simpa using he
        exact .resumeAll hr
      | _ =>
        obtain ⟨rfl, rfl⟩ := by simpa [next] using hn
        constructor
    | waitLoad p =>
      obtain ⟨rfl, rfl⟩ := by simpa [next] using hn
      split_ifs with hp
      · exact .waitReturns hp
      · exact .waitGoesOn
    | waitIf p wi =>
      obtain ⟨⟨q, r⟩, hw, he⟩ := Option.map_eq_some_iff.1 hn
      obtain ⟨rfl, rfl⟩ := by simpa using he
      cases r
      · exact .waited hw
      · exact .wait hw

/-- What a step does on the wait queue is an effect of the queue's code. -/
theorem Step.effect {t : τ} {s s' : Shared τ} {l l' : Local τ} (h : Step t s l s' l') :
    Effect t s.waiters l.view s'.waiters l'.view := by
  cases h with
  | takesOne => rename_i k p hs; cases k <;> exact .stay
  | resumeAll hr =>
    rename_i k p r q o
    cases o with
    | none => cases k <;> exact ResumeAll.effect hr
    | some r => exact ResumeAll.effect hr
  | wait hw => exact WaitIf.effect hw
  | waited hw => exact WaitIf.effect hw
  | _ => exact .stay

variable [Fintype τ] {ok : Config τ (Shared τ) (Local τ) → τ → Act → Prop}
  {c : Config τ (Shared τ) (Local τ)}

/-- The ledger of the queue holds in every run. -/
theorem ledger (h : Reach next ok (start τ) c) :
    Ledger c.shared.waiters fun t => (c.loc t).view :=
  Ledger.of_reach Shared.waiters Local.view rfl (fun _ => rfl)
    (fun _ _ _ _ _ _ hn => (step_of_next hn).effect) h

end Barrier
end CoopSync
