/-
# A shared state comes to rest

With no new calls the tasks inside `set_value`, `set_exception`, `break_promise`, `wait`
and `get` on one shared state come to rest (`future_comes_to_rest`): none of them has a
loop, and whoever makes the status final pays for those it sends on.  Where they stop
nobody is between the exchange of the status and the final store, and a task is suspended
in `wait` only if no call has been made that satisfies or breaks the promise.
-/

import CoopSync.Future.Waiting
import CoopSync.WaitQueue.Rest

namespace CoopSync
namespace Future

open WaitQueue

variable {τ ν σ ε : Type*}

/-- A step of a task inside the code. -/
def Inside (_ : Config τ (SharedState τ σ ε) (User τ ν ε)) (_ : τ) : UserAct ν ε → Prop
  | .step _ | .take => True
  | _ => False

/-- How often a task can still change the status or take the list. -/
def User.moves (l : User τ ν ε) : ℕ :=
  l.place.debt + match l with
    | .setter (.exchange _) => 3
    | .setter w => 2 * w.writing
    | _ => 0

/-- The writes of a setter up to its final store. -/
def Setter.rank : Setter τ ν ε → ℕ
  | .construct _ => 3
  | .mark _ | .writeException _ _ => 2
  | .storeValue _ | .storeException _ _ => 1
  | .exchange _ | .resumeAll _ => 0

/-- A writer has its store and its `resume_all` to come. -/
theorem User.moves_of_writing {w : Setter τ ν ε} (h : w.writing = 1) :
    (User.setter w).moves = 2 := by
  cases w <;> first | rfl | simp [Setter.writing] at h

variable [DecidableEq τ]

omit [DecidableEq τ] in
/-- Each write brings the final store nearer. -/
theorem Setter.step_rank {V : Variant ν σ} {t : τ} {thrown : Option ε} {s s' : SharedState τ σ ε}
    {w w' : Setter τ ν ε} {e : Option (Event τ ν ε)}
    (h : w.step V t thrown s = some (s', some w', e)) (hw : w.writing = 1)
    (hw' : w'.writing = 1) : w'.rank < w.rank := by
  cases w with
  | exchange | resumeAll => simp [Setter.writing] at hw
  | construct v =>
    simp only [Setter.step] at h
    split at h
    · obtain ⟨-, rfl, -⟩ := by simpa using h
      exact Nat.lt_succ_self 2
    · obtain ⟨-, rfl, -⟩ := by simpa using h
      split_ifs
      · exact Nat.lt_succ_self 2
      · exact Nat.lt_of_sub_eq_succ rfl
  | mark v =>
    obtain ⟨-, rfl, -⟩ := by simpa [Setter.step] using h
    exact Nat.one_lt_two
  | writeException call x =>
    obtain ⟨-, rfl, -⟩ := by simpa [Setter.step] using h
    exact Nat.one_lt_two
  | storeValue v | storeException call x =>
    obtain ⟨-, rfl, -⟩ := by simpa [Setter.step] using h
    simp [Setter.writing] at hw'

omit [DecidableEq τ] in
/-- A setter has to wait for the queue at most. -/
theorem Setter.exists_of_step_eq_none {V : Variant ν σ} {t : τ} {thrown : Option ε}
    {s : SharedState τ σ ε} {w : Setter τ ν ε} (h : w.step V t thrown s = none) :
    ∃ r, w = .resumeAll r ∧ r.step t s.waiters = none := by
  cases w with
  | resumeAll r => exact ⟨r, rfl, Option.map_eq_none_iff.1 h⟩
  | exchange call =>
    simp only [Setter.step] at h
    split_ifs at h <;> cases call <;> simp at h
  | construct v =>
    simp only [Setter.step] at h
    split at h <;> simp at h
  | _ => simp [Setter.step] at h

/-- The steps of a task as long as nobody changes the status or wakes it. -/
def User.rank (s : SharedState τ σ ε) : User τ ν ε → ℕ
  | .idle => 0
  | .setter (.exchange _) => 1
  | .setter (.resumeAll r) => (WaitQueue.Pc.resumeAll r).rank s.waiters.resumed true 0
  | .setter w => w.rank
  | .waiter w => (WaitQueue.Pc.waitIf w).rank s.waiters.resumed (!s.status.ready) 1
  | .assertReady => 1

/-- The rank of a writer is that of its setter. -/
theorem User.rank_of_writing {w : Setter τ ν ε} (h : w.writing = 1) (s : SharedState τ σ ε) :
    (User.setter w).rank s = w.rank := by
  cases w <;> first | rfl | simp [Setter.writing] at h

/-- The budget of a task. -/
def budget (τ ν σ ε : Type*) [DecidableEq τ] : Budget (SharedState τ σ ε) (User τ ν ε) where
  moves := User.moves
  hands l := l.place.view.hands.length
  rank := User.rank

/-- While the status stays, the rank of a task changes only if it is woken. -/
theorem rank_congr {s s' : SharedState τ σ ε} (l : User τ ν ε) (hs : s'.status = s.status)
    (hr : ∀ sp, l.place.view.stage = .pushed sp →
      (sp ∈ s'.waiters.resumed ↔ sp ∈ s.waiters.resumed)) : l.rank s' = l.rank s := by
  cases l with
  | setter w =>
    cases w with
    | resumeAll r => exact WaitQueue.Pc.rank_congr hr
    | _ => rfl
  | waiter w =>
    simp only [User.rank, hs]
    exact WaitQueue.Pc.rank_congr hr
  | _ => rfl

variable [Fintype τ] {V : Variant ν σ} {c : Config τ (SharedState τ σ ε) (User τ ν ε)} {t : τ}
  {a : UserAct ν ε} {s : SharedState τ σ ε} {l : User τ ν ε}

/-- **No step of a task inside is free.** -/
theorem spends (hL : Ledger c.shared.waiters fun t => (c.loc t).place.view) (ha : Inside c t a)
    (hn : User.next V t a c.shared (c.loc t) = some (s, l)) :
    (budget τ ν σ ε).Spends c t (c.loc t) s l := by
  have hs := User.step_of_next hn
  -- a step of the queue raises no other task's rank, unless it wakes
  have hothers : s.status = c.shared.status →
      (budget τ ν σ ε).hands (c.loc t) ≤ (budget τ ν σ ε).hands l → ∀ u, u ≠ t →
        (budget τ ν σ ε).rank s (c.loc u) ≤ (budget τ ν σ ε).rank c.shared (c.loc u) :=
    fun hl hh u hu => (rank_congr _ hl fun sp hsp => hs.queue.effect.resumed_iff hL hh hu hsp).le
  have hcall : ∀ sp, (c.loc t).place.view.stage = .callback sp → sp ∉ c.shared.waiters.resumed :=
    fun sp hst => hL.not_resumed_of_callback hst
  generalize c.loc t = l₀ at *
  cases hs with
  | set | wait => cases a <;> first | exact ha.elim | simp [User.next] at hn
  | @quiet _ _ hl hq hst =>
    rcases hl with rfl | rfl
    · cases a <;> first | exact ha.elim | simp [User.next] at hn
    · refine .walk le_rfl le_rfl Nat.zero_lt_one fun u hu => (rank_congr _ hst fun sp _ => ?_).le
      rw [hq]
  | @setter w s' o m =>
    cases m with
    | rejects => exact .walk (Nat.zero_le _) le_rfl Nat.zero_lt_one fun u _ => le_rfl
    | claims hq he hst hw =>
      refine .move ?_
      simp only [budget, Option.elim_some, User.moves_of_writing hw]
      exact Nat.lt_succ_self 2
    | settles => exact .move (Nat.lt_of_sub_eq_succ rfl)
    | publishes hq hw =>
      refine .move ?_
      simp only [budget, Option.elim_some, User.moves_of_writing hw]
      exact Nat.one_lt_two
    | @writes w w' s' hq hst hw hw' =>
      have hlt : w'.rank < w.rank := by
        cases a with
        | step thrown =>
          obtain ⟨⟨s₁, o, e⟩, hstep, he⟩ := Option.map_eq_some_iff.1 hn
          cases o with
          | none => simp at he
          | some w₁ =>
            obtain ⟨-, rfl⟩ := by simpa using he
            exact Setter.step_rank hstep hw hw'
        | take => simp [User.next] at hn
        | _ => exact ha.elim
      refine .walk ?_ ?_ ?_ fun u _ => (rank_congr _ hst fun sp _ => by rw [hq]).le
      · simp only [budget, Option.elim_some, User.moves_of_writing hw, User.moves_of_writing hw']
        exact le_rfl
      · simp only [budget, Option.elim_some, place_of_writing hw, place_of_writing hw']
        exact le_rfl
      · simpa only [budget, Option.elim_some, User.rank_of_writing hw, User.rank_of_writing hw']
          using hlt
    | @resumes r q o hr =>
      have hq : WaitQueue.next t (.step true) c.shared.waiters (.resumeAll r) =
          some (q, o.elim .idle .resumeAll) := by
        simp [WaitQueue.next, hr]
      have hsp := next_spent (k := 0) hq hcall
      cases o <;> exact hsp.spends (Nat.add_comm ..).le le_rfl le_rfl (hothers rfl)
  | @waiter w q w' hw =>
    have hq : WaitQueue.next t (.step (!c.shared.status.ready)) c.shared.waiters (.waitIf w) =
        some (q, .waitIf w') := by
      simp [WaitQueue.next, hw]
    exact (next_spent (k := 1) hq hcall).spends le_rfl le_rfl le_rfl (hothers rfl)
  | @waited w q hw =>
    have hq : WaitQueue.next t (.step (!c.shared.status.ready)) c.shared.waiters (.waitIf w) =
        some (q, .idle) := by
      simp [WaitQueue.next, hw]
    exact (next_spent (k := 1) hq hcall).spends le_rfl le_rfl le_rfl (hothers rfl)

/-- Nothing is left to do without a new call. -/
structure AtRest (c : Config τ (SharedState τ σ ε) (User τ ν ε)) : Prop where
  /-- Every task is outside, or it is suspended in `wait` and in the queue. -/
  everyone (t : τ) : c.loc t = .idle ∨ ∃ sp, c.loc t = .waiter (.queued sp) ∧
    sp ∈ c.shared.waiters.waiters ∧ sp ∉ c.shared.waiters.resumed
  /-- The promise is satisfied, broken, or as it was, -/
  settled : c.shared.status = .empty ∨ c.shared.status.ready = true
  /-- and a suspended task waits for a call that satisfies or breaks it. -/
  waits (t : τ) : c.loc t ≠ .idle → c.shared.status = .empty
  /-- With every task outside nobody is in the queue, as its destructor asserts. -/
  empty : (∀ t, c.loc t = .idle) → c.shared.waiters.waiters = []

/-- Where nobody inside can step, the shared state is at rest. -/
theorem atRest (hI : Users c)
    (hrest : ∀ t a, Inside c t a → c.step (User.next V) t a = none) : AtRest c := by
  have hnone (t : τ) : User.next V t (.step none) c.shared (c.loc t) = none :=
    Option.map_eq_none_iff.1 (hrest t (.step none) trivial)
  have hqueue := (hI.ledger.at_rest fun t hne => by
    have := hnone t
    generalize c.loc t = l at this hne ⊢
    cases l with
    | waiter w =>
      obtain ⟨b, hb⟩ := WaitIf.exists_step_eq_none (Option.map_eq_none_iff.1 this)
      exact ⟨b, by simp [User.place, WaitQueue.next, hb]⟩
    | setter w =>
      obtain ⟨r, rfl, hr⟩ := Setter.exists_of_step_eq_none (Option.map_eq_none_iff.1 this)
      exact ⟨true, by simp [User.place, WaitQueue.next, hr]⟩
    | _ => exact absurd rfl hne).2
  have hall (t : τ) : c.loc t = .idle ∨ ∃ sp, c.loc t = .waiter (.queued sp) ∧
      sp ∈ c.shared.waiters.waiters ∧ sp ∉ c.shared.waiters.resumed := by
    have hq := hqueue t
    have hn := hnone t
    generalize c.loc t = l at hq hn
    cases l with
    | idle => exact .inl rfl
    | waiter w => exact .inr (by simpa [User.place] using hq)
    | assertReady => simp [User.next] at hn
    | setter w =>
      obtain ⟨r, rfl, -⟩ := Setter.exists_of_step_eq_none (Option.map_eq_none_iff.1 hn)
      simp [User.place] at hq
  have hsettled : c.shared.status = .empty ∨ c.shared.status.ready = true := by
    have hw := hI.writing
    rw [total_eq_zero.2 fun u => by rcases hall u with ho | ⟨sp, ho, -⟩ <;> simp [ho, User.writing]]
      at hw
    cases hs : c.shared.status <;> simp [hs, Status.ready] at hw ⊢
  refine ⟨hall, hsettled, fun t hne => ?_, fun hout => ?_⟩
  · obtain ⟨sp, -, hsp, -⟩ := (hall t).resolve_left hne
    refine hsettled.resolve_right fun hr => ?_
    -- a task that makes the status final takes the list
    rcases hI.attended.queued sp hsp with hnr | ⟨u, hu⟩
    · simp [hnr] at hr
    · rcases hall u with ho | ⟨sp', ho, -⟩ <;> simp [ho, User.place, WaitQueue.Pc.owes] at hu
  · exact hI.ledger.waiters_eq_nil fun t => by simp [hout t, User.place, WaitQueue.Pc.view]

/-- **A shared state comes to rest.**  From every configuration of every run of
`set_value`, `set_exception`, `break_promise`, `wait` and `get` on one shared state, of any
variant and by any number of tasks, the steps of the tasks inside, in whatever order, end.
Where they end every task is outside or suspended in the queue, the promise is satisfied,
broken or untouched, and a task is suspended only if it is untouched; and with every task
outside the queue is empty. -/
theorem future_comes_to_rest (h : Reachable (User.next V) (User.start V τ ε) c) :
    ComesToRest (User.next V) Inside AtRest c :=
  h.comesToRest (budget τ ν σ ε).measure (fun _ _ _ _ => trivial)
    (fun _ _ _ _ _ hr ha hn => (spends (Users.of_reach hr).ledger ha hn).lt)
    fun _ hr hrest => atRest (Users.of_reach hr) hrest

/-- The theorem where a task has been resumed. -/
theorem future_comes_to_rest_throw :
    ∃ c, (User.start (sharedState ℕ) (Fin 2) ℕ).exec (User.next (sharedState ℕ)) waitsForThrow =
        some c ∧ c.loc 0 = .assertReady ∧
      ComesToRest (User.next (sharedState ℕ)) Inside AtRest c := by
  refine ⟨_, rfl, rfl, ?_⟩
  have hreach : Reachable (User.next (sharedState ℕ)) (User.start (sharedState ℕ) (Fin 2) ℕ) _ :=
    reachable_of_exec (l := waitsForThrow) rfl
  exact future_comes_to_rest hreach

end Future
end CoopSync
