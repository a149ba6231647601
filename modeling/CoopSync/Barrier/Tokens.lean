/-
# Tokens and the phase byte

`wait` tells a token of the previous phase by comparing it with `current_phase - 1`,
computed in `int`.  Whatever the tasks call, a byte read from `m_phase` is the number of
the phase modulo 256 (`Numbered`), so the comparison is right for every phase but those
whose number is a multiple of 256: there the byte is 0, what it is compared with is -1,
and a token of the phase before, which is 255, is taken for one of the current phase
(`wait_accepts`).
-/

import CoopSync.Barrier.ClientSteps

namespace CoopSync
namespace Barrier
namespace Clients

open WaitQueue

/-! ### What a byte stands for -/

/-- The token of the phase before is recognised unless the phase byte has wrapped
around. -/
theorem previous_succ (k : ℕ) :
    previous (UInt8.ofNat k) (UInt8.ofNat (k + 1)) = true ↔ (k + 1) % 256 ≠ 0 := by
  simp only [previous, decide_eq_true_eq]
  simp
  omega

/-- A token of the current phase is not taken for one of the phase before. -/
theorem previous_self (p : UInt8) : previous p p = false := by
  simp only [previous, decide_eq_false_iff_not]
  omega

/-- The byte of a token is the phase its call has read. -/
def Token.Numbered (tok : Token) : Prop := tok.phase = UInt8.ofNat tok.call.number

variable {τ : Type*}

/-- The bytes a task holds are the phases read with them. -/
def Pc.Numbered : Pc τ → Prop
  | .arrive call (.fetchSub p) | .arrive call (.completion p) | .arrive call (.loadInitial p)
  | .arrive call (.storeExpected p _) | .arrive call (.storePhase p)
  | .arrive call (.resumeAll p _) => p = UInt8.ofNat call.number
  | .waitLoad tok | .waitIf tok _ => tok.Numbered
  | _ => True

/-- Every byte stands for the number that goes with it. -/
structure Numbered (c : Config τ (Shared τ) (Pc τ)) : Prop where
  phase : c.shared.phase = UInt8.ofNat c.shared.number
  tokens : ∀ tok ∈ c.shared.tokens, tok.Numbered
  tasks : ∀ t, (c.loc t).Numbered

/-- A call that returns hands out a numbered token. -/
theorem enter_numbered {tok : Token} (h : tok.Numbered) (k : After) :
    (After.enter tok k : Pc τ).Numbered := by
  cases k
  · trivial
  · exact h
  · trivial

variable [DecidableEq τ] {c : Config τ (Shared τ) (Pc τ)}

/-- A step keeps every byte with its number: a load reads both, a store adds one to both. -/
theorem Step.numbered {t : τ} {a : Act} {s : Shared τ} {l : Pc τ}
    (hs : Step t c.shared a (c.loc t) s l) (h : Numbered c) :
    Numbered ⟨s, Function.update c.loc t l⟩ := by
  suffices hself : s.phase = UInt8.ofNat s.number ∧ (∀ tok ∈ s.tokens, tok.Numbered) ∧
      l.Numbered by
    obtain ⟨hp, htok, hl⟩ := hself
    refine ⟨hp, htok, fun u => ?_⟩
    rcases eq_or_ne u t with rfl | hne
    · simpa using hl
    · simpa [Function.update_of_ne hne] using h.tasks u
  have ht := h.tasks t
  generalize c.loc t = l₀ at hs ht
  cases hs with
  | callWait htok => exact ⟨h.phase, h.tokens, h.tokens _ htok⟩
  | load => exact ⟨h.phase, h.tokens, h.phase⟩
  | @takes call p s' tok hs hs' htok =>
    obtain rfl := hs'
    have hnum : tok.Numbered := by rw [htok]; exact ht
    exact ⟨h.phase, List.forall_mem_append.2 ⟨h.tokens, List.forall_mem_singleton.2 hnum⟩,
      enter_numbered hnum _⟩
  | @storePhase call p =>
    have hp : p = UInt8.ofNat call.number := ht
    exact ⟨by rw [hp, ofNat_add_one], h.tokens, hp⟩
  | @resumedAll call p r q s' tok hr hs' htok =>
    obtain rfl := hs'
    have hnum : tok.Numbered := by rw [htok]; exact ht
    exact ⟨h.phase, List.forall_mem_append.2 ⟨h.tokens, List.forall_mem_singleton.2 hnum⟩,
      enter_numbered hnum _⟩
  | waitReturns | waited => exact ⟨h.phase, h.tokens, trivial⟩
  | @waitGoesOn tok =>
    unfold Shared.assertCurrent
    split_ifs
    · exact ⟨h.phase, h.tokens, ht⟩
    · exact ⟨h.phase, h.tokens, ht⟩
  | _ => exact ⟨h.phase, h.tokens, ht⟩

/-- Every byte stands for its number in every run, whatever the tasks call. -/
theorem numbered {n : ℕ} {ok : Config τ (Shared τ) (Pc τ) → τ → Act → Prop}
    (h : Reach next ok (start τ n) c) : Numbered c :=
  h.invariant ⟨rfl, by simp [start], fun _ => trivial⟩
    fun _ _ _ _ _ _ hI _ hn => (step_of_next hn).numbered hI

/-! ### Which tokens `wait` accepts -/

/-- The token was made in the phase before the current one. -/
def Token.Preceding (tok : Token) (s : Shared τ) : Prop := tok.call.number + 1 = s.number

/-- The token was made in the current phase or in the one before. -/
def Token.Legal (tok : Token) (s : Shared τ) : Prop := tok.call.number = s.number ∨ tok.Preceding s

/-- The load of `m_phase` in `wait` accepts the token: the assertion holds, and for a token
of the phase before the call returns. -/
def Accepts (tok : Token) (s s' : Shared τ) (l' : Pc τ) : Prop :=
  s'.failures = s.failures ∧ (tok.Preceding s → l' = .outside)

omit [DecidableEq τ] in
/-- The fast path recognises a token of the phase before unless the current phase is a
multiple of 256. -/
theorem Numbered.previous_iff (h : Numbered c) {t : τ} {tok : Token} (hl : c.loc t = .waitLoad tok)
    (hpre : tok.Preceding c.shared) :
    previous tok.phase c.shared.phase = true ↔ c.shared.number % 256 ≠ 0 := by
  have htok : tok.phase = UInt8.ofNat tok.call.number := by
    have := h.tasks t
    rwa [hl] at this
  have hnum : tok.call.number + 1 = c.shared.number := hpre
  rw [htok, h.phase, ← hnum]
  exact previous_succ _

/-- **When `wait` accepts a legal token.**  In every run, whatever the tasks call, the
assertion holds for a token of the current phase or of the one before, and a token of the
phase before passes without suspending, unless the token is of the phase before and the
number of the current phase is a multiple of 256. -/
theorem wait_accepts {n : ℕ} (h : Reachable next (start τ n) c) {t : τ} {tok : Token}
    (hl : c.loc t = .waitLoad tok) (hlegal : tok.Legal c.shared) {s : Shared τ} {l : Pc τ}
    (hn : next t .step c.shared (c.loc t) = some (s, l)) :
    Accepts tok c.shared s l ↔ ¬(tok.Preceding c.shared ∧ c.shared.number % 256 = 0) := by
  have hI := numbered h
  have hs := step_of_next hn
  rw [hl] at hs
  rcases hlegal with hcur | hpre
  · -- a token of the current phase has its byte
    have hb : tok.phase = c.shared.phase := by
      have htok := hI.tasks t
      rw [hl] at htok
      rw [show tok.phase = UInt8.ofNat tok.call.number from htok, hI.phase, hcur]
    have hnot : ¬tok.Preceding c.shared := by
      unfold Token.Preceding
      omega
    refine iff_of_true ?_ fun h => hnot h.1
    cases hs with
    | waitReturns hp => simp [hb, previous_self] at hp
    | waitGoesOn => exact ⟨by simp [Shared.assertCurrent, hb], fun h => absurd h hnot⟩
  · have hprev := hI.previous_iff hl hpre
    cases hs with
    | waitReturns hp => exact iff_of_true ⟨rfl, fun _ => rfl⟩ fun h => hprev.1 hp h.2
    | waitGoesOn hp =>
      have hwrap : c.shared.number % 256 = 0 := by
        by_contra hne
        rw [hprev.2 hne] at hp
        exact absurd hp (by decide)
      refine iff_of_false (fun h => ?_) (not_not.2 ⟨hpre, hwrap⟩)
      exact absurd (h.2 hpre) (by simp)

/-- Task `0` arrives at a barrier for one, and is about to load `m_phase` in the wait for its
token. -/
def arriveThenWait : List (Fin 1 × Act) :=
  turns [(0, 1, .arrive 1), (0, 10, .step), (0, 1, .wait 0)]

/-- The theorem for a token of phase 0 in phase 1. -/
theorem wait_accepts_first_phase : ∃ c, Reachable next (start (Fin 1) 1) c ∧ ∃ tok,
    c.loc 0 = .waitLoad tok ∧ tok.Preceding c.shared ∧
      ∃ s l, next 0 .step c.shared (c.loc 0) = some (s, l) ∧ Accepts tok c.shared s l := by
  obtain ⟨c, hc, hl, hnum⟩ : ∃ c, (start (Fin 1) 1).exec next arriveThenWait = some c ∧
      c.loc 0 = .waitLoad ⟨0, ⟨.keep, 1, 0, 0, 1⟩⟩ ∧ c.shared.number = 1 := ⟨_, rfl, rfl, rfl⟩
  have hreach := reachable_of_exec hc
  have hpre : Token.Preceding ⟨0, ⟨.keep, 1, 0, 0, 1⟩⟩ c.shared := hnum.symm
  obtain ⟨s, l, hn⟩ : ∃ s l, next 0 .step c.shared (c.loc 0) = some (s, l) := by
    rw [hl]
    exact ⟨_, _, rfl⟩
  exact ⟨c, hreach, _, hl, hpre, s, l, hn,
    (wait_accepts hreach hl (.inr hpre) hn).2 fun h => absurd h.2 (by simp [hnum])⟩

/-! ### The token of phase 255 -/

/-- A barrier for one task, which stands outside in phase `k`; in every phase but the
first it holds the token of the phase before. -/
structure Idle (k : ℕ) (c : Config (Fin 1) (Shared (Fin 1)) (Pc (Fin 1))) : Prop where
  loc : c.loc = fun _ => .outside
  initialExpected : c.shared.initialExpected = 1
  expected : c.shared.expected = 1
  waiters : c.shared.waiters = Queue.init (Fin 1)
  number : c.shared.number = k
  token : k = 0 ∨ ∃ (i : ℕ) (tok : Token), c.shared.tokens[i]? = some tok ∧
    tok.call.after = .keep ∧ tok.Preceding c.shared

/-- The task completes a phase. -/
theorem idle_succ {k : ℕ} {c : Config (Fin 1) (Shared (Fin 1)) (Pc (Fin 1))} (h : Idle k c) :
    ∃ c', Reachable next c c' ∧ Idle (k + 1) c' := by
  obtain ⟨⟨⟨i, e, p, q, ps, cs⟩, n, b, a, pe, d, db, toks, comp, w, f⟩, loc⟩ := c
  obtain ⟨rfl, rfl, rfl, rfl, rfl, -⟩ := h
  suffices hex : ∃ c', Config.exec next _ (turns [(0, 1, .arrive 1), (0, 10, .step)]) = some c' ∧
      Idle (n + 1) c' by
    obtain ⟨c', hc', hI⟩ := hex
    exact ⟨c', reachable_of_exec hc', hI⟩
  simp [turns, List.replicate, Config.exec, Config.step, next, Shared.call, ResumeAll.step,
    Queue.acquire, Queue.init, DoResumeAll.step, Shared.return, Queue.release, After.enter]
  exact ⟨rfl, rfl, rfl, rfl, rfl, .inr ⟨toks.length, _, List.getElem?_concat_length, rfl, rfl⟩⟩

/-- The task can complete any number of phases. -/
theorem idle_of_phase (k : ℕ) : ∃ c, Reachable next (start (Fin 1) 1) c ∧ Idle k c := by
  induction k with
  | zero => exact ⟨_, .start, rfl, rfl, rfl, rfl, rfl, .inl rfl⟩
  | succ k ih =>
    obtain ⟨c, hc, hI⟩ := ih
    obtain ⟨c', hc', hI'⟩ := idle_succ hI
    exact ⟨c', hc.trans hc', hI'⟩

/-- **A legal token is not accepted**: one task completes 256 phases and then waits for the
token of phase 255. -/
theorem legal_token_refused : ¬∀ c, Reachable next (start (Fin 1) 1) c → ∀ t tok s l,
    c.loc t = .waitLoad tok → tok.Legal c.shared →
      next t .step c.shared (c.loc t) = some (s, l) → Accepts tok c.shared s l := by
  intro hall
  obtain ⟨c, hc, hI⟩ := idle_of_phase 256
  obtain ⟨i, tok, htok, hkeep, hpre⟩ := hI.token.resolve_left (by decide)
  have hwait : c.step next 0 (.wait i) =
      some ⟨c.shared, Function.update c.loc 0 (.waitLoad tok)⟩ := by
    simp [Config.step, next, hI.loc, htok, hkeep]
  have hreach := hc.step trivial hwait
  have hloc : Function.update c.loc 0 (.waitLoad tok) 0 = .waitLoad tok := Function.update_self ..
  have hprev := (numbered hreach).previous_iff (t := 0) hloc hpre
  have hn : next 0 .step c.shared (.waitLoad tok) =
      some (c.shared.assertCurrent tok, .waitIf tok .fastPath) := by
    have : ¬previous tok.phase c.shared.phase = true := fun h => hprev.1 h (by simp [hI.number])
    simp [next, this]
  have hacc := hall _ hreach 0 tok _ _ hloc (.inr hpre) (by simpa using hn)
  exact absurd (hacc.2 hpre) (by simp)

end Clients
end Barrier
end CoopSync
