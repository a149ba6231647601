/-
# Tasks interleaved over one shared state

A family of tasks `τ` runs over a shared state `σ`.  Each task has a control
state of its own (`Config.loc`), and one step of one task reads and writes the
shared state and its own control state only (`Next`).  A scheduler picks, at
every step, a task and a choice `α` (which operation to call, whether a weak
exchange fails), so a run is a list of such pairs (`Config.exec`), and the
configurations of the runs whose every step meets a side condition `ok` are
`Reach next ok`.

Nothing here is about one program.  The rules a development uses are
`Reach.invariant` (what holds at the start and survives one step holds of
every configuration), `Reach.map` (a run seen through a projection is a run of
the projected machine), `Reach.simulates` (a run is matched by one of another
machine), and the accounting lemmas of `total`: a quantity
summed over all tasks changes, in one step, by what the stepping task's own
control state contributes (`total_update`).
-/

import Mathlib.Algebra.BigOperators.Group.Finset.Piecewise
import Mathlib.Algebra.Order.BigOperators.Group.Finset
import Mathlib.Data.Fintype.BigOperators

namespace CoopSync

/-- A configuration: the shared state and where every task stands. -/
structure Config (τ σ ℓ : Type*) where
  shared : σ
  loc : τ → ℓ

/-- One step of one task under a scheduler's choice, `none` where the task
cannot take it. -/
abbrev Next (τ α σ ℓ : Type*) := τ → α → σ → ℓ → Option (σ × ℓ)

variable {τ α σ ℓ : Type*} [DecidableEq τ]

/-- Task `t` steps with choice `a`; the other tasks stay where they are. -/
def Config.step (next : Next τ α σ ℓ) (c : Config τ σ ℓ) (t : τ) (a : α) :
    Option (Config τ σ ℓ) :=
  (next t a c.shared (c.loc t)).map fun r => ⟨r.1, Function.update c.loc t r.2⟩

/-- The configuration a schedule leads to, `none` if one of its steps is not
possible. -/
def Config.exec (next : Next τ α σ ℓ) : Config τ σ ℓ → List (τ × α) → Option (Config τ σ ℓ)
  | c, [] => some c
  | c, (t, a) :: rest =>
    match c.step next t a with
    | some c' => Config.exec next c' rest
    | none => none

/-- The schedule in which the tasks take turns: a task, how often it steps, and its
choice. -/
def turns (l : List (τ × ℕ × α)) : List (τ × α) :=
  l.flatMap fun r => List.replicate r.2.1 (r.1, r.2.2)

-- The tasks of a schedule that is written out are numerals of `Fin 1`, `Fin 2` or `Fin 3`.
-- With these no schedule needs a proof of its own that they are.

instance neZeroOne : @NeZero ℕ Zero.ofOfNat0 1 := Nat.instNeZeroSucc

instance neZeroTwo : @NeZero ℕ Zero.ofOfNat0 2 := Nat.instNeZeroSucc

instance neZeroThree : @NeZero ℕ Zero.ofOfNat0 3 := Nat.instNeZeroSucc

/-- The configurations of the runs from `c₀` whose every step, taken by `t`
with choice `a` in configuration `c`, meets `ok c t a`. -/
inductive Reach (next : Next τ α σ ℓ) (ok : Config τ σ ℓ → τ → α → Prop) (c₀ : Config τ σ ℓ) :
    Config τ σ ℓ → Prop
  | start : Reach next ok c₀ c₀
  | step {c c' : Config τ σ ℓ} {t : τ} {a : α} :
      Reach next ok c₀ c → ok c t a → c.step next t a = some c' → Reach next ok c₀ c'

/-- The configurations of all runs from `c₀`. -/
abbrev Reachable (next : Next τ α σ ℓ) (c₀ : Config τ σ ℓ) : Config τ σ ℓ → Prop :=
  Reach next (fun _ _ _ => True) c₀

variable {next : Next τ α σ ℓ} {ok ok' : Config τ σ ℓ → τ → α → Prop} {c₀ c c' : Config τ σ ℓ}

/-- A step of one task changes the shared state and where that task stands. -/
theorem Config.step_eq_some {t : τ} {a : α} :
    c.step next t a = some c' ↔
      ∃ s l, next t a c.shared (c.loc t) = some (s, l) ∧ c' = ⟨s, Function.update c.loc t l⟩ := by
  constructor
  · intro h
    obtain ⟨⟨s, l⟩, hn, rfl⟩ := Option.map_eq_some_iff.1 h
    exact ⟨s, l, hn, rfl⟩
  · rintro ⟨s, l, hn, rfl⟩
    exact Option.map_eq_some_iff.2 ⟨(s, l), hn, rfl⟩

/-- **The invariant rule.**  What holds at the start and is kept by every
admitted step of a reached configuration holds of every reached one. -/
theorem Reach.invariant {I : Config τ σ ℓ → Prop} (h : Reach next ok c₀ c) (start : I c₀)
    (keep : ∀ c t a s l, Reach next ok c₀ c → I c → ok c t a →
      next t a c.shared (c.loc t) = some (s, l) → I ⟨s, Function.update c.loc t l⟩) : I c := by
  induction h with
  | start => exact start
  | step hr hok hs ih =>
    obtain ⟨s, l, hn, rfl⟩ := Config.step_eq_some.1 hs
    exact keep _ _ _ _ _ hr ih hok hn

/-- A run under a stronger side condition is one under a weaker. -/
theorem Reach.mono (h : Reach next ok c₀ c) (hw : ∀ c t a, ok c t a → ok' c t a) :
    Reach next ok' c₀ c := by
  induction h with
  | start => exact .start
  | step _ hok hs ih => exact .step ih (hw _ _ _ hok) hs

/-- Every run under a side condition is a run. -/
theorem Reach.reachable (h : Reach next ok c₀ c) : Reachable next c₀ c :=
  h.mono fun _ _ _ _ => trivial

/-- Runs compose. -/
theorem Reach.trans (h : Reach next ok c₀ c) (h' : Reach next ok c c') : Reach next ok c₀ c' := by
  induction h' with
  | start => exact h
  | step _ hok hs ih => exact .step ih hok hs

/-- A run starts with its first step. -/
theorem Config.exec_cons {t : τ} {a : α} (h : c.step next t a = some c') (l : List (τ × α)) :
    c.exec next ((t, a) :: l) = c'.exec next l := by
  simp only [Config.exec, h]

/-- Every step of the schedule meets the side condition. -/
def Config.Admits (next : Next τ α σ ℓ) (ok : Config τ σ ℓ → τ → α → Prop) :
    Config τ σ ℓ → List (τ × α) → Prop
  | _, [] => True
  | c, (t, a) :: rest =>
    ok c t a ∧ match c.step next t a with
      | some c' => Config.Admits next ok c' rest
      | none => True

instance Config.decidableAdmits [∀ c t a, Decidable (ok c t a)] :
    ∀ (c : Config τ σ ℓ) (l : List (τ × α)), Decidable (c.Admits next ok l)
  | _, [] => .isTrue trivial
  | c, (t, a) :: rest =>
    haveI : Decidable (match c.step next t a with
        | some c' => Config.Admits next ok c' rest
        | none => True) :=
      match c.step next t a with
      | some c' => Config.decidableAdmits c' rest
      | none => .isTrue trivial
    inferInstanceAs (Decidable (_ ∧ _))

/-- Every schedule meets a condition that always holds. -/
theorem Config.admits_true (c : Config τ σ ℓ) (l : List (τ × α)) :
    c.Admits next (fun _ _ _ => True) l := by
  induction l generalizing c with
  | nil => trivial
  | cons ta rest ih =>
    refine ⟨trivial, ?_⟩
    split
    · exact ih _
    · trivial

/-- What a schedule executes is reached, under the side condition it meets. -/
theorem reach_of_exec {l : List (τ × α)} (h : c.exec next l = some c')
    (ha : c.Admits next ok l) : Reach next ok c c' := by
  induction l generalizing c with
  | nil =>
    obtain rfl := Option.some.inj h
    exact .start
  | cons ta rest ih =>
    simp only [Config.exec] at h
    obtain ⟨hok, ha⟩ := ha
    split at h
    · rename_i c₁ hc₁
      rw [hc₁] at ha
      exact (Reach.step .start hok hc₁).trans (ih h ha)
    · simp at h

/-- What a schedule executes is reachable. -/
theorem reachable_of_exec {l : List (τ × α)} (h : c.exec next l = some c') :
    Reachable next c c' :=
  reach_of_exec h (c.admits_true l)

/-- **The guard rule.**  Where every step of a configuration with the invariant keeps the
invariant if it meets the side condition, and loses `P` if it does not, `P` holds all along
a schedule exactly if every step of it meets the side condition. -/
theorem Config.prefix_iff_admits {I P : Config τ σ ℓ → Prop} (hP : ∀ c, I c → P c)
    (keep : ∀ c t a c', I c → c.step next t a = some c' → ok c t a → I c')
    (lose : ∀ c t a c', I c → c.step next t a = some c' → P c' → ok c t a)
    {l : List (τ × α)} (hI : I c) (h : c.exec next l = some c') :
    (∀ l₁ c₁, l₁ <+: l → c.exec next l₁ = some c₁ → P c₁) ↔ c.Admits next ok l := by
  induction l generalizing c with
  | nil =>
    refine iff_of_true (fun l₁ c₁ hl₁ hc₁ => ?_) trivial
    obtain rfl := List.prefix_nil.1 hl₁
    obtain rfl := Option.some.inj hc₁
    exact hP _ hI
  | cons ta rest ih =>
    obtain ⟨t, a⟩ := ta
    simp only [Config.exec] at h
    split at h
    · rename_i c₁ hc₁
      simp only [Config.Admits, hc₁]
      constructor
      · intro hall
        have hok := lose c t a c₁ hI hc₁
          (hall [(t, a)] c₁ (List.cons_prefix_cons.2 ⟨rfl, List.nil_prefix⟩)
            (Config.exec_cons hc₁ []))
        refine ⟨hok, (ih (keep c t a c₁ hI hc₁ hok) h).1 fun l₁ c₂ hl₁ hc₂ => ?_⟩
        exact hall ((t, a) :: l₁) c₂ (List.cons_prefix_cons.2 ⟨rfl, hl₁⟩)
          ((Config.exec_cons hc₁ l₁).trans hc₂)
      · rintro ⟨hok, ha⟩ l₁ c₂ hl₁ hc₂
        cases l₁ with
        | nil =>
          obtain rfl := Option.some.inj hc₂
          exact hP _ hI
        | cons ta' l₁ =>
          obtain ⟨rfl, hrest⟩ := List.cons_prefix_cons.1 hl₁
          exact (ih (keep c t a c₁ hI hc₁ hok) h).2 ha l₁ c₂ hrest
            ((Config.exec_cons hc₁ l₁).symm.trans hc₂)
    · simp at h

/-- Where every step uses up some of `μ`, a run goes on until no admitted step is left. -/
theorem Reach.exists_maximal {μ : Config τ σ ℓ → ℕ}
    (hμ : ∀ c t a c', c.step next t a = some c' → μ c' < μ c) (h : Reach next ok c₀ c) :
    ∃ c', Reach next ok c₀ c' ∧ ∀ t a, ok c' t a → c'.step next t a = none := by
  induction hn : μ c using Nat.strong_induction_on generalizing c with
  | _ n ih =>
    by_cases hmax : ∀ t a, ok c t a → c.step next t a = none
    · exact ⟨c, h, hmax⟩
    · push Not at hmax
      obtain ⟨t, a, hok, hs⟩ := hmax
      obtain ⟨c', hs⟩ := Option.ne_none_iff_exists'.1 hs
      exact ih (μ c') (hn ▸ hμ c t a c' hs) (h.step hok hs) rfl

/-! ### A task that runs alone -/

/-- Task `t` alone, with choice `a` at every step, leads from `c` to `c'`. -/
def Solo (next : Next τ α σ ℓ) (t : τ) (a : α) (c c' : Config τ σ ℓ) : Prop :=
  ∃ n, c.exec next (List.replicate n (t, a)) = some c'

/-- Taking no step is a run of one task. -/
theorem Solo.refl {t : τ} {a : α} : Solo next t a c c := ⟨0, rfl⟩

/-- So is a step of it with such a run behind it. -/
theorem Solo.head {t : τ} {a : α} {c₁ : Config τ σ ℓ} (h : c.step next t a = some c₁)
    (h' : Solo next t a c₁ c') : Solo next t a c c' := by
  obtain ⟨n, hn⟩ := h'
  exact ⟨n + 1, (Config.exec_cons h _).trans hn⟩

/-! ### Projections -/

section Projection

variable {σ' ℓ' α' : Type*}

/-- The configuration seen through `f` on the shared state and `g` on every
task. -/
def Config.map (f : σ → σ') (g : ℓ → ℓ') (c : Config τ σ ℓ) : Config τ σ' ℓ' :=
  ⟨f c.shared, fun t => g (c.loc t)⟩

omit [DecidableEq τ] in
@[simp] theorem Config.map_shared (f : σ → σ') (g : ℓ → ℓ') (c : Config τ σ ℓ) :
    (c.map f g).shared = f c.shared := rfl

omit [DecidableEq τ] in
@[simp] theorem Config.map_loc (f : σ → σ') (g : ℓ → ℓ') (c : Config τ σ ℓ) (t : τ) :
    (c.map f g).loc t = g (c.loc t) := rfl

/-- **The projection rule.**  If every step is, seen through `f` and `g`,
either no step or a step of `next'`, then so is every run. -/
theorem Reach.map {next' : Next τ α' σ' ℓ'} (f : σ → σ') (g : ℓ → ℓ')
    (hstep : ∀ t a s l s' l', next t a s l = some (s', l') →
      (f s' = f s ∧ g l' = g l) ∨ ∃ a', next' t a' (f s) (g l) = some (f s', g l'))
    (h : Reach next ok c₀ c) : Reachable next' (c₀.map f g) (c.map f g) := by
  induction h with
  | start => exact .start
  | @step c _ t a hr hok hs ih =>
    obtain ⟨s, l, hn, rfl⟩ := Config.step_eq_some.1 hs
    have hupd : (fun u => g (Function.update c.loc t l u)) =
        Function.update (fun u => g (c.loc u)) t (g l) := by
      funext u
      exact Function.apply_update (fun _ => g) c.loc t l u
    rcases hstep t a c.shared (c.loc t) s l hn with ⟨hf, hg⟩ | ⟨a', ha'⟩
    · have : (⟨s, Function.update c.loc t l⟩ : Config τ σ ℓ).map f g = c.map f g := by
        simp only [Config.map, hf, hupd, hg, Function.update_eq_self]
      exact this ▸ ih
    · refine ih.step (a := a') trivial (Config.step_eq_some.2 ⟨f s, g l, ha', ?_⟩)
      simp only [Config.map, hupd]

/-- **The simulation rule.**  If every step, taken where `R` holds, is matched by no step or
by one step of the same task in the other machine, then every reached configuration is
related to one the other machine reaches. -/
theorem Reach.simulates {next' : Next τ α' σ' ℓ'} {d₀ : Config τ σ' ℓ'}
    (R : Config τ σ ℓ → Config τ σ' ℓ' → Prop) (h₀ : R c₀ d₀)
    (hstep : ∀ c d t a s l, Reachable next' d₀ d → R c d →
      next t a c.shared (c.loc t) = some (s, l) → ∃ s' l',
        (s' = d.shared ∧ l' = d.loc t ∨ ∃ a', next' t a' d.shared (d.loc t) = some (s', l')) ∧
          R ⟨s, Function.update c.loc t l⟩ ⟨s', Function.update d.loc t l'⟩)
    (h : Reach next ok c₀ c) : ∃ d, Reachable next' d₀ d ∧ R c d := by
  induction h with
  | start => exact ⟨d₀, .start, h₀⟩
  | @step c _ t a _ _ hs ih =>
    obtain ⟨d, hd, hR⟩ := ih
    obtain ⟨s, l, hn, rfl⟩ := Config.step_eq_some.1 hs
    obtain ⟨s', l', hmatch, hR'⟩ := hstep c d t a s l hd hR hn
    refine ⟨_, ?_, hR'⟩
    rcases hmatch with ⟨rfl, rfl⟩ | ⟨a', ha'⟩
    · rwa [Function.update_eq_self]
    · exact hd.step trivial (Config.step_eq_some.2 ⟨s', l', ha', rfl⟩)

end Projection

/-! ### Accounts: quantities summed over all tasks -/

section Total

variable [Fintype τ]

/-- The sum over all tasks of what each contributes where it stands. -/
def total (w : ℓ → ℕ) (loc : τ → ℓ) : ℕ := ∑ t, w (loc t)

/-- **One step moves an account by the stepping task's share.** -/
theorem total_update (w : ℓ → ℕ) (loc : τ → ℓ) (t : τ) (l : ℓ) :
    total w (Function.update loc t l) + w (loc t) = total w loc + w l := by
  have h : ∀ u, w (Function.update loc t l u) = Function.update (fun u => w (loc u)) t (w l) u :=
    fun u => Function.apply_update (fun _ => w) loc t l u
  simp only [total, h]
  rw [Finset.sum_update_of_mem (Finset.mem_univ t), ← Finset.add_sum_erase _ _ (Finset.mem_univ t),
    Finset.sdiff_singleton_eq_erase]
  omega

/-- A step that keeps the task's share keeps the account. -/
theorem total_update_eq {w : ℓ → ℕ} {loc : τ → ℓ} {t : τ} {l : ℓ} (h : w l = w (loc t)) :
    total w (Function.update loc t l) = total w loc := by
  have := total_update w loc t l
  omega

omit [DecidableEq τ] in
/-- A task's share is at most the account. -/
theorem le_total (w : ℓ → ℕ) (loc : τ → ℓ) (t : τ) : w (loc t) ≤ total w loc :=
  Finset.single_le_sum (f := fun u => w (loc u)) (fun _ _ => Nat.zero_le _) (Finset.mem_univ t)

/-- Two tasks' shares together are at most the account. -/
theorem add_le_total (w : ℓ → ℕ) (loc : τ → ℓ) {t u : τ} (h : t ≠ u) :
    w (loc t) + w (loc u) ≤ total w loc := by
  have := Finset.sum_le_sum_of_subset (f := fun v => w (loc v)) (Finset.subset_univ {t, u})
  rwa [Finset.sum_pair h] at this

omit [DecidableEq τ] in
/-- A positive account has a contributor. -/
theorem total_pos {w : ℓ → ℕ} {loc : τ → ℓ} : 0 < total w loc ↔ ∃ t, 0 < w (loc t) := by
  simp [total, Finset.sum_pos_iff]

omit [DecidableEq τ] in
/-- An account is empty when no task contributes. -/
theorem total_eq_zero {w : ℓ → ℕ} {loc : τ → ℓ} : total w loc = 0 ↔ ∀ t, w (loc t) = 0 := by
  simp [total]

omit [DecidableEq τ] in
/-- Totals compare as their summands do. -/
theorem total_mono {v w : ℓ → ℕ} (h : ∀ l, v l ≤ w l) (loc : τ → ℓ) :
    total v loc ≤ total w loc :=
  Finset.sum_le_sum fun t _ => h (loc t)

omit [DecidableEq τ] in
/-- The total of a sum. -/
theorem total_add (v w : ℓ → ℕ) (loc : τ → ℓ) :
    total (fun l => v l + w l) loc = total v loc + total w loc :=
  Finset.sum_add_distrib

omit [DecidableEq τ] in
/-- With all tasks in one place the account is empty if that place
contributes nothing. -/
theorem total_const_zero {w : ℓ → ℕ} {l : ℓ} (h : w l = 0) : total w (fun _ : τ => l) = 0 :=
  total_eq_zero.2 fun _ => h

end Total

end CoopSync
