/-
# Holders come to rest

A member function of a holder has no loop, so it makes finitely many calls of locks.  If
the steps in the calls of every lock lower a measure of the lock (`Lockable.Settles`), the
steps of the functions lower a measure of all locks and holders (`measure_lt`).

Where no function can go on (`AtRest`) every lock is at rest, a function that still runs
waits in a call of the lock that its holder points to, and whoever owns a lock is a holder
of which no function runs: the preconditions of `Holder.Rules` have a holder own nothing
in its calls, so no holder waits for one that waits.
-/

import CoopSync.Holder.Rules
import CoopSync.Rest
import Mathlib.Algebra.Order.Monoid.Prod

namespace CoopSync
namespace Holder

variable {κ μ χ α σ ℓ M ω δ : Type*}

/-- The lines that are left, each with the call that it may make. -/
def Local.effort (l : Local ω M μ) : ℕ :=
  match l.run with
  | none => 0
  | some r => 2 * r.code.length + if r.inside then 1 else 2

/-- The holder is outside its functions and has locked `m` in the mode `v`. -/
def Local.Holds (l : Local ω M μ) (m : M) (v : μ) : Prop :=
  l.run = none ∧ l.fields = some ⟨some m, v⟩

variable [DecidableEq κ]

/-- What is asked of a lock: its calls, with the choice `x` in every step, lower
`measure`, and `P` holds where no call can go on. -/
structure Lockable.Settles [LT δ] (L : Lockable κ μ χ α σ ℓ) (x : χ)
    (measure : Config κ σ ℓ → δ) (P : Config κ σ ℓ → Prop) : Prop where
  lt {d : Config κ σ ℓ} {k : κ} {s : σ} {l : ℓ} : Reachable L.next L.start d →
    L.next k (L.step x) d.shared (d.loc k) = some (s, l) →
      measure ⟨s, Function.update d.loc k l⟩ < measure d
  /-- A user outside is in no call that could go on. -/
  outside {k : κ} {s : σ} {l : ℓ} : L.during l = none → L.next k (L.step x) s l = none
  rest {d : Config κ σ ℓ} : Reachable L.next L.start d →
    (∀ k, L.next k (L.step x) d.shared (d.loc k) = none) → P d
  /-- Only a call that locks can be left. -/
  locking {d : Config κ σ ℓ} {k : κ} {p : Phase μ} : P d → L.during (d.loc k) = some p →
    ∃ w, p = .locking w

/-- Nothing is left to do without a new call. -/
structure AtRest (L : Lockable κ μ χ α σ ℓ) (P : Config κ σ ℓ → Prop)
    (c : Config κ (M → Config κ σ ℓ) (Local ω M μ)) : Prop where
  locks (m : M) : P (c.shared m)
  /-- A function that runs waits for the lock that its holder points to. -/
  everyone (k : κ) : (c.loc k).run = none ∨ ∃ m v w, (c.loc k).fields = some ⟨some m, v⟩ ∧
    L.during ((c.shared m).loc k) = some (.locking w)
  /-- A holder of which no function runs is in no call. -/
  outside {k : κ} : (c.loc k).run = none → ∀ m, L.during ((c.shared m).loc k) = none
  /-- A lock is owned by a holder outside its functions. -/
  owners {k : κ} {m : M} {v : μ} : 0 < L.owns ((c.shared m).loc k) v → (c.loc k).Holds m v

/-- What an instruction locks is the mutex of its holder. -/
theorem mutex_of_does_lock [DecidableEq μ] {i : Instr M μ} {f : Fields M μ} {m : M} {w : μ}
    (h : i.does f = .calls m (.lock w)) : f.mutex = some m := by
  obtain ⟨mutex, mode⟩ := f
  cases i with
  | lock | unlock | unlockHeld => cases mutex <;> simp_all [Instr.does, Fields.calls]
  | tryLock => simp [Instr.does] at h
  | throwIfHeld | throwIfFree | returnIfFree | returnTrueIf =>
    simp only [Instr.does] at h
    split_ifs at h
  | setMutex | setMode | ret => simp [Instr.does] at h

variable [DecidableEq M] [DecidableEq μ] {L : Lockable κ μ χ α σ ℓ} {C : Code ω M μ} {k : κ} {x : χ}
  {s s' : M → Config κ σ ℓ} {l l' : Local ω M μ}

/-- A step of a function leaves less of it, or it is a step in the call of a lock. -/
theorem effort_of_next (hn : next L C k (.step x) s l = some (s', l')) :
    l'.effort < l.effort ∨ l'.effort = l.effort ∧ ∃ m d,
      (s m).step L.next k (L.step x) = some d ∧ s' = Function.update s m d := by
  obtain ⟨fields, run, finished⟩ := l
  cases fields with
  | none => simp [next] at hn
  | some f =>
    cases run with
    | none => simp [next] at hn
    | some r =>
      obtain ⟨op, code, inside, entry, kept⟩ := r
      simp only [next, Run.step] at hn
      cases code with
      | nil =>
        obtain ⟨-, rfl⟩ := by simpa using hn
        refine .inl ?_
        cases inside <;> simp [Local.effort, Local.finish]
      | cons i rest =>
        simp only at hn
        cases hdoes : i.does f with
        | goesOn f' =>
          obtain ⟨-, rfl⟩ := by simpa [hdoes] using hn
          refine .inl ?_
          simp only [Local.effort, List.length_cons]
          omega
        | returns o =>
          obtain ⟨-, rfl⟩ := by simpa [hdoes] using hn
          refine .inl ?_
          simp [Local.effort, Local.finish]
        | fails => simp [hdoes] at hn
        | calls m c =>
          simp only [hdoes] at hn
          obtain ⟨d, hd, he⟩ := Option.map_eq_some_iff.1 hn
          obtain ⟨rfl, rfl⟩ := Prod.mk.inj he
          cases inside with
          | false => exact .inl (by simp [Local.effort])
          | true =>
            simp only [Bool.not_true, Bool.false_or]
            split_ifs with hd₁ hd₂
            · exact .inr ⟨rfl, m, d, hd, rfl⟩
            · exact .inl (by simp [Local.effort, Local.finish])
            · refine .inl ?_
              simp only [Local.effort, List.length_cons, if_true, Bool.false_eq_true, if_false]
              omega

variable {lockMeasure : Config κ σ ℓ → δ} {P : Config κ σ ℓ → Prop}
  {ok : Config κ (M → Config κ σ ℓ) (Local ω M μ) → κ → Act ω χ → Prop}
  {c : Config κ (M → Config κ σ ℓ) (Local ω M μ)}

/-- A function is called where none runs. -/
theorem run_of_call {d : Config κ (M → Config κ σ ℓ) (Local ω M μ)} {op : ω}
    (hd : c.step (next L C) k (.call op) = some d) :
    (c.loc k).run = none ∧ (d.loc k).run.isSome := by
  obtain ⟨s, l, hn, rfl⟩ := Config.step_eq_some.1 hd
  obtain ⟨l₁, hl, he⟩ := Option.map_eq_some_iff.1 hn
  obtain ⟨-, rfl⟩ := Prod.mk.inj he
  simp only [Local.call] at hl
  simp only [Function.update_self]
  split at hl <;> cases hl <;> exact ⟨by assumption, rfl⟩

section Measure

variable [Fintype κ] [Fintype M] [AddCommMonoid δ]

/-- What all functions together can still do, and then the calls. -/
def measure (lockMeasure : Config κ σ ℓ → δ) (c : Config κ (M → Config κ σ ℓ) (Local ω M μ)) :
    ℕ ×ₗ δ :=
  toLex (total Local.effort c.loc, ∑ m, lockMeasure (c.shared m))

variable [PartialOrder δ] [IsOrderedCancelAddMonoid δ]

/-- **A step of a function lowers the measure.** -/
theorem measure_lt (hS : L.Settles x lockMeasure P) (h : Reach (next L C) ok (start L ω M) c)
    (hn : next L C k (.step x) c.shared (c.loc k) = some (s', l')) :
    measure lockMeasure ⟨s', Function.update c.loc k l'⟩ < measure lockMeasure c := by
  have htotal := total_update Local.effort c.loc k l'
  simp only [measure, Prod.Lex.toLex_lt_toLex]
  rcases effort_of_next hn with hlt | ⟨heq, m, d, hd, rfl⟩
  · exact .inl (by omega)
  · obtain ⟨sh, l₁, hl, rfl⟩ := Config.step_eq_some.1 hd
    have hm := hS.lt (lock_reachable h m) hl
    refine .inr ⟨by omega, Finset.sum_lt_sum (fun m' _ => ?_) ⟨m, Finset.mem_univ m, ?_⟩⟩
    · rcases eq_or_ne m' m with rfl | hne
      · rw [Function.update_self]
        exact hm.le
      · rw [Function.update_of_ne hne]
    · rwa [Function.update_self]

end Measure

/-- A function that runs and cannot go on is in the call of a lock, which cannot go on, and
its holder owns nothing. -/
theorem call_of_stuck (hL : L.Lawful) (hC : C.Lawful) (h : Reach (next L C) ok (start L ω M) c)
    {r : Run ω M μ} (hr : (c.loc k).run = some r) (hk : c.step (next L C) k (.step x) = none) :
    ∃ (f : Fields M μ) (i : Instr M μ) (m : M) (d : LockCall μ), (c.loc k).fields = some f ∧
      i.does f = .calls m d ∧ L.during ((c.shared m).loc k) = some d.phase ∧
      (∀ m', m' ≠ m → L.during ((c.shared m').loc k) = none) ∧ Owns L k c.shared none ∧
      L.next k (L.step x) (c.shared m).shared ((c.shared m).loc k) = none := by
  have hplace := (ok_of_reach hL hC h k).place
  cases hf : (c.loc k).fields with
  | none =>
    rw [hf, hr] at hplace
    cases hplace
  | some f =>
    rw [hf, hr] at hplace
    cases hplace with
    | runs hinside =>
      have hgo := (accounted_of_reach hL hC h).goesOn hr hinside x
      simp [hk] at hgo
    | @calls _ _ _ i rest m d hinside hcode hdoes _ hduring hout hown =>
      refine ⟨f, i, m, d, rfl, hdoes, hduring, hout, hown, ?_⟩
      simpa [Config.step, next, hf, hr, Run.step, Run.stepCall, hcode, hdoes, hinside] using hk

/-- A holder of which no function runs is in no call. -/
theorem outside_of_idle (hL : L.Lawful) (hC : C.Lawful) (h : Reach (next L C) ok (start L ω M) c)
    (hr : (c.loc k).run = none) : Outside L k c.shared := by
  have hplace := (ok_of_reach hL hC h k).place
  rw [hr] at hplace
  generalize (c.loc k).fields = f at hplace
  cases hplace with
  | gone hout | rests hout => exact hout

/-- **Where no function can go on** every lock is at rest, and its owners are holders of
which no function runs. -/
theorem at_rest [LT δ] (hL : L.Lawful) (hC : C.Lawful) (hS : L.Settles x lockMeasure P)
    (h : Reach (next L C) ok (start L ω M) c)
    (hrest : ∀ k, (c.loc k).run.isSome → c.step (next L C) k (.step x) = none) : AtRest L P c := by
  have hcall {k r} (hr : (c.loc k).run = some r) :=
    call_of_stuck hL hC h hr (hrest k (by simp [hr]))
  have hidle {k} := outside_of_idle hL hC h (k := k)
  have hlocks (m : M) : P (c.shared m) := by
    refine hS.rest (lock_reachable h m) fun k => ?_
    cases hr : (c.loc k).run with
    | none => exact hS.outside (hidle hr m)
    | some r =>
      obtain ⟨f, i, m', d, -, -, -, hout, -, hnone⟩ := hcall hr
      rcases eq_or_ne m m' with rfl | hne
      · exact hnone
      · exact hS.outside (hout m hne)
  refine ⟨hlocks, fun k => ?_, hidle, fun {k m v} hpos => ?_⟩
  · cases hr : (c.loc k).run with
    | none => exact .inl rfl
    | some r =>
      obtain ⟨⟨mutex, v⟩, i, m, d, hf, hdoes, hduring, -⟩ := hcall hr
      obtain ⟨w, hw⟩ := hS.locking (hlocks m) hduring
      refine .inr ⟨m, v, w, ?_, hduring.trans (congrArg some hw)⟩
      cases d with
      | lock w' => rw [hf, show mutex = some m from mutex_of_does_lock hdoes]
      | tryLock w' | unlock w' => cases hw
  · cases hr : (c.loc k).run with
    | some r =>
      -- a holder in a call owns nothing
      obtain ⟨-, -, -, -, -, -, -, -, hown, -⟩ := hcall hr
      simp [hown m v] at hpos
    | none =>
      cases hf : (c.loc k).fields with
      | none => simp [((accounted_of_reach hL hC h).gone hf m).2 v] at hpos
      | some f =>
        obtain ⟨mutex, mode⟩ := f
        have howns := (accounted_of_reach hL hC h).owns hf hr m v
        have hheld : mutex = some m ∧ mode = v := by
          by_contra hne
          rw [if_neg hne] at howns
          omega
        exact ⟨hr, by rw [hf, hheld.1, hheld.2]⟩

end Holder
end CoopSync
