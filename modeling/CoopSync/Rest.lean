/-
# Programs that come to rest

A program whose tasks make no more calls should not run for ever, and where it stops
it should be possible to say why it stops.  `ComesToRest` says both: every run of admitted
steps from a configuration is finite, and where no admitted step is left a property
holds.

What makes runs finite is that tasks pay for what they do to each other.  A
`Budget` gives every place a number of moves, by which a task can send others back to
work, a number of waiters in its hands, and a rank, the steps the task can take by
itself as long as nobody moves.  A step that spends moves may raise every rank, and one
that hands a waiter on may raise the waiter's; any other step lowers the rank of its
own task and raises none (`Budget.Spends`).  So the triple of the sums falls in every
step (`Budget.Spends.lt`).

Nothing here is about one program.
-/

import CoopSync.Interleave
import Mathlib.Data.Prod.Lex

namespace CoopSync

variable {τ α σ ℓ : Type*} [DecidableEq τ]

/-- Every run of admitted steps is finite, and `P` holds where it cannot go on. -/
inductive ComesToRest (next : Next τ α σ ℓ) (ok : Config τ σ ℓ → τ → α → Prop)
    (P : Config τ σ ℓ → Prop) : Config τ σ ℓ → Prop
  | intro {c : Config τ σ ℓ} (rest : (∀ t a, ok c t a → c.step next t a = none) → P c)
      (step : ∀ t a c', ok c t a → c.step next t a = some c' → ComesToRest next ok P c') :
      ComesToRest next ok P c

section Measure

variable {next : Next τ α σ ℓ} {ok ok₀ : Config τ σ ℓ → τ → α → Prop} {P : Config τ σ ℓ → Prop}
  {c₀ c : Config τ σ ℓ} {δ : Type*} [LT δ] [WellFoundedLT δ]

/-- **The measure rule.**  Where every admitted step of a reached configuration lowers a
measure, and `P` holds of every reached configuration without such a step, a reached
configuration comes to rest. -/
theorem Reach.comesToRest (μ : Config τ σ ℓ → δ) (hsub : ∀ c t a, ok c t a → ok₀ c t a)
    (hμ : ∀ c t a s l, Reach next ok₀ c₀ c → ok c t a →
      next t a c.shared (c.loc t) = some (s, l) → μ ⟨s, Function.update c.loc t l⟩ < μ c)
    (hP : ∀ c, Reach next ok₀ c₀ c → (∀ t a, ok c t a → c.step next t a = none) → P c)
    (h : Reach next ok₀ c₀ c) : ComesToRest next ok P c := by
  induction hm : μ c using WellFoundedLT.induction generalizing c with
  | ind m ih =>
    refine .intro (hP c h) fun t a c' hok hs => ?_
    obtain ⟨s, l, hn, rfl⟩ := Config.step_eq_some.1 hs
    exact ih _ (hm ▸ hμ c t a s l h hok hn) (h.step (hsub c t a hok) hs) rfl

end Measure

/-! ### Budgets -/

/-- What a task can still do where it stands. -/
structure Budget (σ ℓ : Type*) where
  /-- how often it can send other tasks back to work -/
  moves : ℓ → ℕ
  /-- the tasks it has still to wake -/
  hands : ℓ → ℕ
  /-- the steps it takes before it moves, wakes, leaves or waits -/
  rank : σ → ℓ → ℕ

namespace Budget

variable [Fintype τ] (b : Budget σ ℓ)

/-- What all tasks together can still do. -/
def measure (c : Config τ σ ℓ) : ℕ ×ₗ ℕ ×ₗ ℕ :=
  toLex (total b.moves c.loc, toLex (total b.hands c.loc, total (b.rank c.shared) c.loc))

/-- How a step of task `t` from `l₀` to `s` and `l` uses the budget. -/
inductive Spends (c : Config τ σ ℓ) (t : τ) (l₀ : ℓ) (s : σ) (l : ℓ) : Prop
  | move (hm : b.moves l < b.moves l₀)
  | wake (hm : b.moves l ≤ b.moves l₀) (hh : b.hands l < b.hands l₀)
  | walk (hm : b.moves l ≤ b.moves l₀) (hh : b.hands l ≤ b.hands l₀)
      (hr : b.rank s l < b.rank c.shared l₀)
      (hothers : ∀ u, u ≠ t → b.rank s (c.loc u) ≤ b.rank c.shared (c.loc u))

variable {b} {c : Config τ σ ℓ} {t : τ} {s : σ} {l : ℓ}

/-- **A step that spends lowers the measure.** -/
theorem Spends.lt (h : b.Spends c t (c.loc t) s l) :
    b.measure ⟨s, Function.update c.loc t l⟩ < b.measure c := by
  have hmoves := total_update b.moves c.loc t l
  have hhands := total_update b.hands c.loc t l
  simp only [measure, Prod.Lex.toLex_lt_toLex]
  cases h with
  | move hm => exact .inl (by omega)
  | wake hm hh =>
    rcases Nat.lt_or_eq_of_le hm with hlt | heq
    · exact .inl (by omega)
    · exact .inr ⟨by omega, .inl (by omega)⟩
  | walk hm hh hr hothers =>
    rcases Nat.lt_or_eq_of_le hm with hlt | heq
    · exact .inl (by omega)
    rcases Nat.lt_or_eq_of_le hh with hlt | heq'
    · exact .inr ⟨by omega, .inl (by omega)⟩
    refine .inr ⟨by omega, .inr ⟨by omega, ?_⟩⟩
    refine Finset.sum_lt_sum (fun u _ => ?_) ⟨t, Finset.mem_univ t, by simpa using hr⟩
    rcases eq_or_ne u t with rfl | hne
    · simpa using hr.le
    · simpa [Function.update_of_ne hne] using hothers u hne

end Budget
end CoopSync
