/-
# Resources with one owner

A table `own : ω → Option ρ` says which resource each owner refers to, if any.  It is
exclusive if no two owners refer to the same resource.  Giving an owner a resource
that nobody refers to, moving the resource of one owner to another, exchanging the
resources of two, and taking a resource away keep a table exclusive; here is which
resources each of these leaves with an owner.

Nothing here is about one program.
-/

import Mathlib.Logic.Equiv.Basic

namespace CoopSync
namespace Owners

variable {ω ρ : Type*}

/-- No two owners refer to the same resource. -/
def Exclusive (own : ω → Option ρ) : Prop :=
  ∀ o o' r, own o = some r → own o' = some r → o = o'

/-- Somebody refers to `r`. -/
def Owned (own : ω → Option ρ) (r : ρ) : Prop := ∃ o, own o = some r

variable [DecidableEq ω] {own : ω → Option ρ}

/-- The resource of `src` is moved to `dst`, and what `dst` referred to is let go. -/
def move (own : ω → Option ρ) (dst src : ω) : ω → Option ρ :=
  Function.update (Function.update own src none) dst (own src)

/-- `a` and `b` exchange what they refer to. -/
def exchange (own : ω → Option ρ) (a b : ω) : ω → Option ρ := own ∘ Equiv.swap a b

omit [DecidableEq ω] in
/-- In an exclusive table an owned resource has one owner. -/
theorem Exclusive.existsUnique (h : Exclusive own) {r : ρ} (hr : Owned own r) :
    ∃! o, own o = some r := by
  obtain ⟨o, ho⟩ := hr
  exact ⟨o, ho, fun o' ho' => h o' o r ho' ho⟩

/-- What is left in the table after an entry changed was there before, or is the new
entry. -/
theorem update_eq_some {o o' : ω} {x : Option ρ} {r : ρ} :
    Function.update own o x o' = some r ↔ o' = o ∧ x = some r ∨ o' ≠ o ∧ own o' = some r := by
  rcases eq_or_ne o' o with rfl | hne
  · simp
  · simp [hne]

/-- An owner is given a resource that nobody else refers to. -/
theorem Exclusive.give (h : Exclusive own) {o : ω} {r : ρ} (hr : ∀ o', o' ≠ o → own o' ≠ some r) :
    Exclusive (Function.update own o (some r)) := by
  intro o₁ o₂ r' h₁ h₂
  rw [update_eq_some] at h₁ h₂
  rcases h₁ with ⟨rfl, h₁⟩ | ⟨hne₁, h₁⟩ <;> rcases h₂ with ⟨rfl, h₂⟩ | ⟨hne₂, h₂⟩
  · rfl
  · exact absurd (h₂.trans h₁.symm) (hr o₂ hne₂)
  · exact absurd (h₁.trans h₂.symm) (hr o₁ hne₁)
  · exact h o₁ o₂ r' h₁ h₂

/-- A resource is taken away. -/
theorem Exclusive.clear (h : Exclusive own) (o : ω) : Exclusive (Function.update own o none) := by
  intro o₁ o₂ r h₁ h₂
  rw [update_eq_some] at h₁ h₂
  simp only [reduceCtorEq, and_false, false_or] at h₁ h₂
  exact h o₁ o₂ r h₁.2 h₂.2

/-- A move keeps references exclusive. -/
theorem Exclusive.move (h : Exclusive own) (dst src : ω) : Exclusive (move own dst src) := by
  cases hs : own src with
  | none =>
    rw [Owners.move, hs]
    exact (h.clear src).clear dst
  | some r =>
    rw [Owners.move, hs]
    refine (h.clear src).give fun o' _ ho' => ?_
    rw [update_eq_some] at ho'
    rcases ho' with ⟨-, ho'⟩ | ⟨hne, ho'⟩
    · simp at ho'
    · exact hne (h o' src r ho' hs)

/-- So does an exchange. -/
theorem Exclusive.exchange (h : Exclusive own) (a b : ω) : Exclusive (exchange own a b) :=
  fun _ _ _ h₁ h₂ => (Equiv.swap a b).injective (h _ _ _ h₁ h₂)

/-- What an entry does not say was said before. -/
theorem Owned.of_update {o : ω} {x : Option ρ} {r : ρ} (h : Owned (Function.update own o x) r) :
    x = some r ∨ Owned own r := by
  obtain ⟨o', ho'⟩ := h
  rcases update_eq_some.1 ho' with ⟨-, hx⟩ | ⟨-, ho'⟩
  · exact .inl hx
  · exact .inr ⟨o', ho'⟩

/-- What is owned after an owner is cleared was owned before. -/
theorem Owned.of_clear {o : ω} {r : ρ} (h : Owned (Function.update own o none) r) : Owned own r :=
  h.of_update.resolve_left nofun

/-- A move brings nothing new. -/
theorem Owned.of_move {dst src : ω} {r : ρ} (h : Owned (Owners.move own dst src) r) :
    Owned own r := by
  rcases h.of_update with hs | h
  · exact ⟨src, hs⟩
  · exact h.of_clear

/-- Only what the entry said is let go. -/
theorem owned_update {o : ω} {x : Option ρ} {r : ρ} (hne : own o ≠ some r) (h : Owned own r) :
    Owned (Function.update own o x) r := by
  obtain ⟨o', ho'⟩ := h
  refine ⟨o', update_eq_some.2 (.inr ⟨?_, ho'⟩)⟩
  rintro rfl
  exact hne ho'

/-- A move lets go of what the destination referred to, and of nothing else, unless
it moves onto itself. -/
theorem owned_move (h : Exclusive own) {dst src : ω} {r : ρ} :
    Owned (move own dst src) r ↔ Owned own r ∧ (dst = src ∨ own dst ≠ some r) := by
  constructor
  · rintro ⟨o, ho⟩
    rcases update_eq_some.1 ho with ⟨rfl, hs⟩ | ⟨hne, ho⟩
    · refine ⟨⟨src, hs⟩, ?_⟩
      rcases eq_or_ne o src with rfl | hne
      · exact .inl rfl
      · exact .inr fun hd => hne (h _ _ _ hd hs)
    · rcases update_eq_some.1 ho with ⟨-, ho⟩ | ⟨-, ho⟩
      · simp at ho
      · exact ⟨⟨o, ho⟩, .inr fun hd => hne (h _ _ _ ho hd)⟩
  · rintro ⟨⟨o, ho⟩, hd⟩
    rcases eq_or_ne o src with rfl | hs
    · exact ⟨dst, by simp [move, ho]⟩
    · refine ⟨o, update_eq_some.2 (.inr ⟨?_, update_eq_some.2 (.inr ⟨hs, ho⟩)⟩)⟩
      rintro rfl
      rcases hd with rfl | hd
      exacts [hs rfl, hd ho]

/-- An exchange leaves what is owned. -/
theorem owned_exchange {a b : ω} {r : ρ} : Owned (exchange own a b) r ↔ Owned own r := by
  constructor
  · rintro ⟨o, ho⟩
    exact ⟨Equiv.swap a b o, ho⟩
  · rintro ⟨o, ho⟩
    exact ⟨Equiv.swap a b o, by simpa [exchange] using ho⟩

end Owners
end CoopSync
