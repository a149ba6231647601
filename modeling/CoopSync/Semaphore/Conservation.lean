/-
# Permits are conserved in the narrow counter

`int_max_value_t` selects a type that holds `LeastMaxValue` (`le_max`), and within `max()`
no conversion to it changes a value.  So the stored counter is what was there at the start,
with what was released and without what was acquired, as integers, in every run whose
releases keep to the room they are promised.
-/

import CoopSync.Semaphore.Permits

namespace CoopSync
namespace Semaphore

variable {τ : Type*} [DecidableEq τ] {leastMaxValue desired : ℤ}

/-- **The selected type holds `LeastMaxValue`**, which is a `ptrdiff_t`. -/
theorem le_max (h : leastMaxValue < 2 ^ 63) : leastMaxValue ≤ max leastMaxValue := by
  unfold max storageWidth
  split_ifs <;> omega

/-- What one step does to the permits: an acquisition takes one that is there, the
`fetch_add` of a `release` adds the update, and nothing else touches the counter. -/
theorem Step.permits {t : τ} {s s' : Shared τ} {l l' : Local τ}
    (h : Step leastMaxValue t s l s' l') (h₀ : 0 ≤ s.counter) (h₁ : s.counter ≤ max leastMaxValue)
    (hroom : ∀ update, l.pc = .releaseAdd update →
      (update : ℤ) ≤ max leastMaxValue - s.counter) :
    l'.acquired = l.acquired ∧ l'.released = l.released ∧ s'.counter = s.counter ∨
    l'.acquired = l.acquired + 1 ∧ l'.released = l.released ∧ 0 < s.counter ∧
      s'.counter = s.counter - 1 ∨
    ∃ update : ℕ, l.pc = .releaseAdd update ∧ l'.acquired = l.acquired ∧
      l'.released = l.released + update ∧ s'.counter = s.counter + update := by
  cases h with
  | tryWins hpos | acquireWins hpos =>
    refine .inr (.inl ⟨rfl, rfl, hpos, ?_⟩)
    exact storageCast_of_range (by omega) (by omega)
  | @releaseAdd m n update =>
    have hu := hroom update rfl
    refine .inr (.inr ⟨update, rfl, rfl, rfl, ?_⟩)
    simp only [Shared.fetchAdd]
    rw [storageCast_of_range (x := (update : ℤ)) (by omega) (by omega)]
    exact storageCast_of_range (by omega) (by omega)
  | _ => exact .inl ⟨rfl, rfl, rfl⟩

variable [Fintype τ] {c : Config τ (Shared τ) (Local τ)}

/-- **Permits are conserved.**  For every `LeastMaxValue` the storage type holds it, and the
conversions of the initial value and of every update there is room for preserve them.
Whatever the tasks do, as long as releases keep to their room, the stored counter is
`desired` and what was released without what was acquired, between zero and `max()`; and in
every step an acquisition takes a permit that is there, one that releases adds its update,
and the counter changes in no other way. -/
theorem permits_conserved (hL : leastMaxValue < 2 ^ 63) (h₀ : 0 ≤ desired)
    (h₁ : desired ≤ max leastMaxValue)
    (h : Reach (next leastMaxValue) (WithinMax leastMaxValue) (start τ leastMaxValue desired) c) :
    leastMaxValue ≤ max leastMaxValue ∧
    storageCast leastMaxValue desired = desired ∧
    (∀ t update, (c.loc t).pc = .releaseAdd update →
      (update : ℤ) ≤ max leastMaxValue - c.shared.counter →
        storageCast leastMaxValue update = update) ∧
    c.shared.counter =
      desired + total Local.released c.loc - total Local.acquired c.loc ∧
    0 ≤ c.shared.counter ∧ c.shared.counter ≤ max leastMaxValue ∧
    ∀ t a s l, WithinMax leastMaxValue c t a →
      next leastMaxValue t a c.shared (c.loc t) = some (s, l) →
      l.acquired = (c.loc t).acquired ∧ l.released = (c.loc t).released ∧
          s.counter = c.shared.counter ∨
        l.acquired = (c.loc t).acquired + 1 ∧ l.released = (c.loc t).released ∧
          0 < c.shared.counter ∧ s.counter = c.shared.counter - 1 ∨
        ∃ update : ℕ, (c.loc t).pc = .releaseAdd update ∧ l.acquired = (c.loc t).acquired ∧
          l.released = (c.loc t).released + update ∧ s.counter = c.shared.counter + update := by
  have hI := inv_of_reach h₀ h₁ h
  refine ⟨le_max hL, storageCast_of_range h₀ h₁, fun t update _ hroom => ?_, ?_, hI.nonneg,
    hI.le_max, fun t a s l hok hn => ?_⟩
  · have := hI.nonneg
    exact storageCast_of_range (by omega) (by omega)
  · have := hI.permits
    omega
  · refine (step_of_next hn).permits hI.nonneg hI.le_max fun update hpc => ?_
    unfold WithinMax at hok
    rwa [hpc] at hok

/-- Two permits are released up to the limit of an 8-bit counter, and one is taken. -/
def upToMax : List (Fin 1 × Act) :=
  turns [(0, 1, .release 2), (0, 8, .step false), (0, 1, .tryAcquire), (0, 2, .step false)]

/-- The theorem at the limit of the narrowest counter. -/
theorem permits_conserved_max : ∃ c, (start (Fin 1) 100 125).exec (next 100) upToMax = some c ∧
    c.shared.counter = 126 ∧ c.shared.counter =
      125 + total Local.released c.loc - total Local.acquired c.loc := by
  refine ⟨_, rfl, rfl, ?_⟩
  have hreach : Reach (next 100) (WithinMax 100) (start (Fin 1) 100 125) _ :=
    reach_of_exec (l := upToMax) rfl (by decide)
  exact (permits_conserved (by decide) (by decide) (by decide) hreach).2.2.2.1

end Semaphore
end CoopSync
