/-
# Objects whose operations take effect at one instant

An object is a state and what each operation may do to it at one instant
(`Object`).  The tasks of a program call operations and return from them, and what
is seen of a run from outside is its history: the calls and returns, in order
(`Config.history`).  A history is linearizable if its operations can be put in one
sequence that the object allows, each between its call and its return, with the
values that were returned (`Object.Linearizes`).

The rule a development uses is `Object.linearizable_of_simulation`.  It asks
for a relation to the atomic machine of the object, in which a call is made, takes
effect and returns in three moves of its own (`Object.Moves`), and for moves that
match every step of the program.  A step may be matched by the effects of several
tasks, so a task can be served by another one.

Nothing here is about one program.
-/

import CoopSync.Interleave

namespace CoopSync

/-- What the operations of an object do: `step t op s v s'` if task `t`, in state
`s`, can perform `op` at one instant, obtain `v` and leave `s'`.  An operation that
has to wait has no such step. -/
structure Object (τ Op Val σ : Type*) where
  init : σ
  step : τ → Op → σ → Val → σ → Prop

/-- What is seen of a task from outside. -/
inductive Object.Event (τ Op Val : Type*)
  | call (t : τ) (op : Op)
  | ret (t : τ) (v : Val)
deriving DecidableEq, Repr

/-- Where a task stands on an atomic object. -/
inductive Object.Phase (Op Val : Type*)
  | idle
  /-- it has called, and the operation has not taken effect -/
  | called (op : Op)
  /-- the operation has taken effect, and the task has not returned -/
  | done (v : Val)

/-- The operation a task has called and that has not taken effect. -/
def Object.Phase.pending {Op Val : Type*} : Object.Phase Op Val → List Op
  | .called op => [op]
  | _ => []

/-- The value a task has obtained and not returned. -/
def Object.Phase.obtained {Op Val : Type*} : Object.Phase Op Val → List Val
  | .done v => [v]
  | _ => []

variable {τ α σ ℓ Op Val σ' : Type*} [DecidableEq τ]

/-! ### Histories -/

namespace Object

/-- The operations task `t` calls in a history. -/
def calls (t : τ) (h : List (Event τ Op Val)) : List Op :=
  h.filterMap fun
    | .call u op => if u = t then some op else none
    | .ret _ _ => none

/-- The values task `t` returns with in a history. -/
def rets (t : τ) (h : List (Event τ Op Val)) : List Val :=
  h.filterMap fun
    | .call _ _ => none
    | .ret u v => if u = t then some v else none

/-- What task `t` does in a sequence of operations, with the values obtained. -/
def done (t : τ) (l : List (τ × Op × Val)) : List (Op × Val) :=
  l.filterMap fun o => if o.1 = t then some o.2 else none

@[simp] theorem calls_nil (t : τ) : calls t ([] : List (Event τ Op Val)) = [] := rfl

@[simp] theorem rets_nil (t : τ) : rets t ([] : List (Event τ Op Val)) = [] := rfl

@[simp] theorem done_nil (t : τ) : done t ([] : List (τ × Op × Val)) = [] := rfl

@[simp] theorem calls_append_call (t u : τ) (h : List (Event τ Op Val)) (op : Op) :
    calls t (h ++ [.call u op]) = calls t h ++ if u = t then [op] else [] := by
  rw [calls, List.filterMap_append]
  split_ifs with hu <;> simp [calls, hu]

@[simp] theorem calls_append_ret (t u : τ) (h : List (Event τ Op Val)) (v : Val) :
    calls t (h ++ [.ret u v]) = calls t h := by
  simp [calls, List.filterMap_append]

@[simp] theorem rets_append_call (t u : τ) (h : List (Event τ Op Val)) (op : Op) :
    rets t (h ++ [.call u op]) = rets t h := by
  simp [rets, List.filterMap_append]

@[simp] theorem rets_append_ret (t u : τ) (h : List (Event τ Op Val)) (v : Val) :
    rets t (h ++ [.ret u v]) = rets t h ++ if u = t then [v] else [] := by
  rw [rets, List.filterMap_append]
  split_ifs with hu <;> simp [rets, hu]

@[simp] theorem done_append (t u : τ) (l : List (τ × Op × Val)) (op : Op) (v : Val) :
    done t (l ++ [(u, op, v)]) = done t l ++ if u = t then [(op, v)] else [] := by
  rw [done, List.filterMap_append]
  split_ifs with hu <;> simp [done, hu]

/-- What is seen of a step of task `t` from `s` and `l` to `l'`. -/
abbrev Observe (τ α σ ℓ Op Val : Type*) := τ → α → σ → ℓ → ℓ → List (Event τ Op Val)

end Object

/-- What is seen of a schedule, up to its first step that is not possible. -/
def Config.history (next : Next τ α σ ℓ) (observe : Object.Observe τ α σ ℓ Op Val) :
    Config τ σ ℓ → List (τ × α) → List (Object.Event τ Op Val)
  | _, [] => []
  | c, (t, a) :: rest =>
    match c.step next t a with
    | some c' =>
      observe t a c.shared (c.loc t) (c'.loc t) ++ Config.history next observe c' rest
    | none => []

namespace Object

variable (O : Object τ Op Val σ')

/-- The object allows the operations of `l` one after the other, from `s` to `s'`. -/
inductive Legal : List (τ × Op × Val) → σ' → Prop
  | nil : Legal [] O.init
  | snoc {l s t op v s'} : Legal l s → O.step t op s v s' → Legal (l ++ [(t, op, v)]) s'

/-- The operations of a history, put in the sequence `l`.  An operation that was
called and has not returned may be in it or not. -/
structure Linearizes (h : List (Event τ Op Val)) (l : List (τ × Op × Val)) : Prop where
  /-- The object allows the sequence. -/
  legal : ∃ s, O.Legal l s
  /-- It holds what each task called, in the task's order, -/
  called (t : τ) : (done t l).map Prod.fst <+: calls t h
  /-- and every operation that has returned, with the value returned. -/
  returned (t : τ) : rets t h <+: (done t l).map Prod.snd
  /-- At every moment of the history a part of the sequence has taken effect that
  holds no operation before its call and every operation from its return on. -/
  inTime (h₁ : List (Event τ Op Val)) : h₁ <+: h → ∃ l₁, l₁ <+: l ∧ ∀ t,
    (done t l₁).length ≤ (calls t h₁).length ∧ (rets t h₁).length ≤ (done t l₁).length

/-- **Linearizability.** -/
def Linearizable (h : List (Event τ Op Val)) : Prop := ∃ l, O.Linearizes h l

/-! ### The atomic machine of an object -/

/-- An object that no task has used. -/
def start : Config τ σ' (Phase Op Val) := ⟨O.init, fun _ => .idle⟩

/-- The moves of the tasks on an object: what is seen of them, and which operations
take effect, in order. -/
inductive Moves (d : Config τ σ' (Phase Op Val)) :
    List (Event τ Op Val) → List (τ × Op × Val) → Config τ σ' (Phase Op Val) → Prop
  | refl : Moves d [] [] d
  | call {h l d' t} (op : Op) : Moves d h l d' → d'.loc t = .idle →
      Moves d (h ++ [.call t op]) l ⟨d'.shared, Function.update d'.loc t (.called op)⟩
  | effect {h l d' t op v s} : Moves d h l d' → d'.loc t = .called op →
      O.step t op d'.shared v s →
      Moves d h (l ++ [(t, op, v)]) ⟨s, Function.update d'.loc t (.done v)⟩
  | ret {h l d' t v} : Moves d h l d' → d'.loc t = .done v →
      Moves d (h ++ [.ret t v]) l ⟨d'.shared, Function.update d'.loc t .idle⟩

variable {O} {d d' : Config τ σ' (Phase Op Val)} {h h' : List (Event τ Op Val)}
  {l l' : List (τ × Op × Val)}

/-- Moves compose. -/
theorem Moves.trans {d'' : Config τ σ' (Phase Op Val)} (hm : O.Moves d h l d')
    (hm' : O.Moves d' h' l' d'') : O.Moves d (h ++ h') (l ++ l') d'' := by
  induction hm' with
  | refl => simpa using hm
  | call op _ hp ih =>
    rw [← List.append_assoc]
    exact ih.call op hp
  | effect _ hp hs ih =>
    rw [← List.append_assoc l]
    exact ih.effect hp hs
  | ret _ hp ih =>
    rw [← List.append_assoc]
    exact ih.ret hp

/-- An operation takes effect and returns. -/
theorem Moves.serve {t : τ} {op : Op} {v : Val} {s : σ'} (hp : d.loc t = .called op)
    (hs : O.step t op d.shared v s) :
    O.Moves d [.ret t v] [(t, op, v)] ⟨s, Function.update d.loc t .idle⟩ := by
  have hm : O.Moves d ([] ++ [.ret t v]) ([] ++ [(t, op, v)]) _ :=
    (Moves.refl.effect hp hs).ret (Function.update_self ..)
  rwa [Function.update_idem] at hm

/-! ### The histories of the atomic machine -/

/-- What task `t` has called has taken effect or is pending. -/
theorem Moves.calls_eq (hm : O.Moves O.start h l d) (t : τ) :
    calls t h = (done t l).map Prod.fst ++ (d.loc t).pending := by
  induction hm with
  | refl => rfl
  | @call h l d u op _ hp ih =>
    rcases eq_or_ne u t with rfl | hne
    · simp [ih, hp, Phase.pending]
    · simp [ih, hne, Function.update_of_ne hne.symm]
  | @effect h l d u op v s _ hp _ ih =>
    rcases eq_or_ne u t with rfl | hne
    · simp [ih, hp, Phase.pending]
    · simp [ih, hne, Function.update_of_ne hne.symm]
  | @ret h l d u v _ hp ih =>
    rcases eq_or_ne u t with rfl | hne
    · simp [ih, hp, Phase.pending]
    · simp [ih, Function.update_of_ne hne.symm]

/-- What task `t` has obtained was returned or is to be returned. -/
theorem Moves.rets_eq (hm : O.Moves O.start h l d) (t : τ) :
    (done t l).map Prod.snd = rets t h ++ (d.loc t).obtained := by
  induction hm with
  | refl => rfl
  | @call h l d u op _ hp ih =>
    rcases eq_or_ne u t with rfl | hne
    · simp [ih, hp, Phase.obtained]
    · simp [ih, Function.update_of_ne hne.symm]
  | @effect h l d u op v s _ hp _ ih =>
    rcases eq_or_ne u t with rfl | hne
    · simp [ih, hp, Phase.obtained]
    · simp [ih, hne, Function.update_of_ne hne.symm]
  | @ret h l d u v _ hp ih =>
    rcases eq_or_ne u t with rfl | hne
    · simp [ih, hp, Phase.obtained]
    · simp [ih, hne, Function.update_of_ne hne.symm]

/-- What has taken effect is a legal sequence of operations. -/
theorem Moves.legal (hm : O.Moves O.start h l d) : O.Legal l d.shared := by
  induction hm with
  | refl => exact .nil
  | call _ _ _ ih | ret _ _ ih => exact ih
  | effect _ _ hs ih => exact ih.snoc hs

/-- What has taken effect so far has been called, and holds what has returned. -/
theorem Moves.inTime (hm : O.Moves O.start h l d) (h₁ : List (Event τ Op Val)) (hp : h₁ <+: h) :
    ∃ l₁, l₁ <+: l ∧ ∀ t,
      (done t l₁).length ≤ (calls t h₁).length ∧ (rets t h₁).length ≤ (done t l₁).length := by
  -- a prefix of the whole history is the whole of it, or one of the history before
  have whole {h l d} (hm : O.Moves O.start h l d) (t : τ) :
      (done t l).length ≤ (calls t h).length ∧ (rets t h).length ≤ (done t l).length := by
    have hc := congrArg List.length (hm.calls_eq t)
    have hr := congrArg List.length (hm.rets_eq t)
    simp only [List.length_append, List.length_map] at hc hr
    omega
  induction hm with
  | refl =>
    obtain rfl := List.prefix_nil.1 hp
    exact ⟨[], List.nil_prefix, fun t => ⟨le_rfl, le_rfl⟩⟩
  | call op hm hi ih =>
    rcases List.prefix_concat_iff.1 hp with rfl | hp
    · exact ⟨_, List.prefix_rfl, whole (hm.call op hi)⟩
    · exact ih hp
  | effect hm hi hs ih =>
    obtain ⟨l₁, hl₁, hle⟩ := ih hp
    exact ⟨l₁, hl₁.trans (List.prefix_append ..), hle⟩
  | ret hm hi ih =>
    rcases List.prefix_concat_iff.1 hp with rfl | hp
    · exact ⟨_, List.prefix_rfl, whole (hm.ret hi)⟩
    · exact ih hp

/-- **The atomic machine is linearizable.** -/
theorem Moves.linearizes (hm : O.Moves O.start h l d) : O.Linearizes h l where
  legal := ⟨d.shared, hm.legal⟩
  called t := ⟨_, (hm.calls_eq t).symm⟩
  returned t := ⟨_, (hm.rets_eq t).symm⟩
  inTime := hm.inTime

/-! ### Programs that implement an object -/

/-- Where the tasks stand on the object, as their places in the program tell. -/
def Tracks (phase : ℓ → Phase Op Val) (loc : τ → ℓ) (ph : τ → Phase Op Val) : Prop :=
  ∀ t, ph t = phase (loc t)

namespace Tracks

variable {phase : ℓ → Phase Op Val} {loc : τ → ℓ} {ph : τ → Phase Op Val} {t : τ} {l : ℓ}

/-- A task moves in the program and on the object. -/
theorem update (hp : Tracks phase loc ph) :
    Tracks phase (Function.update loc t l) (Function.update ph t (phase l)) := by
  intro u
  rcases eq_or_ne u t with rfl | hne
  · simp
  · simpa [Function.update_of_ne hne] using hp u

/-- A task moves in the program only. -/
theorem stay (hp : Tracks phase loc ph) (hl : phase l = phase (loc t)) :
    Tracks phase (Function.update loc t l) ph := by
  intro u
  rcases eq_or_ne u t with rfl | hne
  · simpa [hl] using hp u
  · simpa [Function.update_of_ne hne] using hp u

end Tracks

/-- **The simulation rule.**  If a relation to the configurations of the atomic machine
holds at the start, and every step the program takes where it holds is matched by moves
that look the same from outside, then what is seen of every schedule is
linearizable. -/
theorem linearizable_of_simulation {next : Next τ α σ ℓ} {ok : Config τ σ ℓ → τ → α → Prop}
    {c₀ : Config τ σ ℓ} (observe : Observe τ α σ ℓ Op Val)
    (R : Config τ σ ℓ → Config τ σ' (Phase Op Val) → Prop) (h₀ : R c₀ O.start)
    (hstep : ∀ c d t a s l, Reach next ok c₀ c → R c d → ok c t a →
      next t a c.shared (c.loc t) = some (s, l) → ∃ ops d',
        O.Moves d (observe t a c.shared (c.loc t) l) ops d' ∧
          R ⟨s, Function.update c.loc t l⟩ d')
    (sched : List (τ × α)) (hok : c₀.Admits next ok sched) :
    O.Linearizable (c₀.history next observe sched) := by
  -- the induction is on what is left of the schedule
  suffices hgo : ∀ (sched : List (τ × α)) (c : Config τ σ ℓ) (d h l), Reach next ok c₀ c → R c d →
      O.Moves O.start h l d → c.Admits next ok sched →
      ∃ l' d', O.Moves O.start (h ++ c.history next observe sched) l' d' by
    obtain ⟨l, d, hm⟩ := hgo sched c₀ _ _ _ .start h₀ .refl hok
    exact ⟨l, hm.linearizes⟩
  intro sched
  induction sched with
  | nil =>
    intro c d h l _ _ hm _
    exact ⟨l, d, by simpa [Config.history] using hm⟩
  | cons ta rest ih =>
    obtain ⟨t, a⟩ := ta
    intro c d h l hr hR hm hadm
    obtain ⟨hok, hadm⟩ := hadm
    simp only [Config.history]
    split
    · rename_i c' hc'
      rw [hc'] at hadm
      obtain ⟨s, l₁, hn, rfl⟩ := Config.step_eq_some.1 hc'
      obtain ⟨ops, d', hops, hR'⟩ := hstep c d t a s l₁ hr hR hok hn
      rw [← List.append_assoc]
      simp only [Function.update_self]
      exact ih _ d' _ _ (hr.step hok hc') hR' (hm.trans hops) hadm
    · exact ⟨l, d, by simpa using hm⟩

end Object
end CoopSync
