/-
# The mutex is an atomic lock, and it comes to rest

From outside, `mutex` cannot be told from a lock that a task takes and gives back at
one instant (`mutex_linearizable`): `lock` and a successful `try_lock` take effect at the
exchange, `unlock` at its store, and the wait queue is invisible.

With no new calls the tasks inside come to rest, and then only tasks are left whose
`lock()` an owner outside keeps waiting (`mutex_comes_to_rest`).  A task in `lock()` that
goes round its loop is paid for by one that changed the flag, or by one that woke it.
-/

import CoopSync.Linearize
import CoopSync.Mutex.Exclusion
import CoopSync.WaitQueue.Rest

namespace CoopSync
namespace Mutex

open WaitQueue

variable {τ : Type*}

/-! ### The lock -/

inductive Op
  | lock
  | tryLock
  | unlock
deriving DecidableEq, Repr

/-- What the operations of a lock do, whose state is the task that has it. -/
inductive Serves (t : τ) : Op → Option τ → Option Bool → Option τ → Prop
  | lock : Serves t .lock none none (some t)
  | tryLock : Serves t .tryLock none (some true) (some t)
  | tryLockFails {s : Option τ} : s ≠ none → Serves t .tryLock s (some false) s
  | unlock : Serves t .unlock (some t) none none

/-- A lock nobody has.  Functions that return `void` return `none`. -/
def lock (τ : Type*) : Object τ Op (Option Bool) (Option τ) := ⟨none, Serves⟩

variable [DecidableEq τ]

/-- What is seen of a step: a call, or the return with its value. -/
def observe : Object.Observe τ Act (Shared τ) (Local τ) Op (Option Bool)
  | t, .lock, _, _, _ => [.call t .lock]
  | t, .tryLock, _, _, _ => [.call t .tryLock]
  | t, .unlock, _, _, _ => [.call t .unlock]
  | t, .step, s, ⟨_, .tryLock⟩, ⟨_, .outside⟩ => [.ret t (some s.tryLock.1)]
  | t, .step, _, _, ⟨_, .outside⟩ => [.ret t none]
  | _, _, _, _, _ => []

/-- Where a task stands on the lock. -/
def Pc.stand : Pc τ → Object.Phase Op (Option Bool)
  | .outside => .idle
  | .tryLock => .called .tryLock
  | .lockTry | .lockWait _ => .called .lock
  | .unlockAssert | .unlockStore => .called .unlock
  | .unlockResume _ => .done none

/-- The lock behind a configuration: the one who has it is the owner of the mutex. -/
structure Implements (c : Config τ (Shared τ) (Local τ))
    (d : Config τ (Option τ) (Object.Phase Op (Option Bool))) : Prop where
  phases : Object.Tracks (fun l : Local τ => l.pc.stand) c.loc d.loc
  owner (t : τ) : d.shared = some t ↔ 0 < (c.loc t).owner

namespace Implements

variable {c : Config τ (Shared τ) (Local τ)}
  {d : Config τ (Option τ) (Object.Phase Op (Option Bool))} {t : τ} {s : Shared τ} {l : Local τ}

/-- A step after which its task owns the mutex as before leaves the owner. -/
theorem owner_update (h : Implements c d) (ho : l.owner = (c.loc t).owner) (u : τ) :
    d.shared = some u ↔ 0 < (Function.update c.loc t l u).owner := by
  rcases eq_or_ne u t with rfl | hne
  · simpa [ho] using h.owner u
  · simpa [Function.update_of_ne hne] using h.owner u

variable [Fintype τ]

omit [DecidableEq τ] in
/-- The lock is free exactly where the flag is not set. -/
theorem free_iff (h : Implements c d) (hI : Inv c) : d.shared = none ↔ c.shared.locked = false := by
  rw [← Bool.not_eq_true, locked_iff_owned hI, Option.eq_none_iff_forall_ne_some]
  constructor
  · rintro hn ⟨t, ht⟩
    exact hn t ((h.owner t).2 ht)
  · intro hn t ht
    exact hn ⟨t, (h.owner t).1 ht⟩

end Implements

variable [Fintype τ]

/-- Every step is matched on the lock. -/
theorem implements_step {c : Config τ (Shared τ) (Local τ)}
    {d : Config τ (Option τ) (Object.Phase Op (Option Bool))} {t : τ} {a : Act} {s : Shared τ}
    {l : Local τ} (hL : Ledger c.shared.waitQueue fun t => (c.loc t).view) (hI : Inv c)
    (h : Implements c d) (hn : next t a c.shared (c.loc t) = some (s, l)) : ∃ ops d',
      (lock τ).Moves d (observe t a c.shared (c.loc t) l) ops d' ∧
        Implements ⟨s, Function.update c.loc t l⟩ d' := by
  have hp := h.phases t
  have hI' := inv_step hL hI (step_of_next hn)
  have hfree := h.free_iff hI
  -- a step that changes no owner, and the lock sees it or not
  have hquiet (ho : l.owner = (c.loc t).owner) (hq : l.pc.stand = (c.loc t).pc.stand) :
      Implements ⟨s, Function.update c.loc t l⟩ d := ⟨h.phases.stay hq, h.owner_update ho⟩
  have hseen (ho : l.owner = (c.loc t).owner) : Implements ⟨s, Function.update c.loc t l⟩
      ⟨d.shared, Function.update d.loc t l.pc.stand⟩ := ⟨h.phases.update, h.owner_update ho⟩
  -- a step that gives the lock to its task, or takes it back
  have htaken (hl : 0 < l.owner) : Implements ⟨s, Function.update c.loc t l⟩
      ⟨some t, Function.update d.loc t l.pc.stand⟩ := by
    refine ⟨h.phases.update, fun u => ⟨?_, fun hu => ?_⟩⟩
    · rintro ⟨⟩
      simpa using hl
    · rw [owns_unique hI' (t := t) (u := u) (by simpa [Local.Owns] using hl) hu]
  have hgiven (hs : s.locked = false) : Implements ⟨s, Function.update c.loc t l⟩
      ⟨none, Function.update d.loc t l.pc.stand⟩ := by
    refine ⟨h.phases.update, fun u => iff_of_false (by simp) fun hu => ?_⟩
    have := (locked_iff_owned hI').2 ⟨u, hu⟩
    simp [hs] at this
  have howner := h.owner t
  generalize c.loc t = l₀ at *
  cases a with
  | lock | tryLock =>
    cases step_of_next hn <;> simp [next] at hn
    exact ⟨_, _, .call _ .refl hp, hseen rfl⟩
  | unlock =>
    cases step_of_next hn with
    | @callLock n | @callTryLock n => cases n <;> simp [next] at hn
    | callUnlock => exact ⟨_, _, .call _ .refl hp, hseen rfl⟩
    | _ => simp [next] at hn
  | step =>
    cases step_of_next hn with
    | callLock | callTryLock | callUnlock => simp [next] at hn
    | tryLockFails hs =>
      have hs' := hfree.not.2 (by simp [hs])
      have hv : c.shared.tryLock.1 = false := by simp [Shared.tryLock, hs]
      refine ⟨[(t, .tryLock, some false)], _, ?_, hseen rfl⟩
      simpa [observe, hv, Pc.stand] using
        Object.Moves.serve (O := lock τ) hp (Serves.tryLockFails hs')
    | tryLockWins hs =>
      have hs' := hfree.2 hs
      have hv : c.shared.tryLock.1 = true := by simp [Shared.tryLock, hs]
      refine ⟨[(t, .tryLock, some true)], _, ?_, htaken (by simp [Local.owner])⟩
      simpa [observe, hv, Pc.stand] using Object.Moves.serve (O := lock τ) hp (hs' ▸ Serves.tryLock)
    | lockFails hs => exact ⟨_, _, .refl, hquiet rfl rfl⟩
    | lockWins hs =>
      have hs' := hfree.2 hs
      refine ⟨[(t, .lock, none)], _, ?_, htaken (by simp [Local.owner])⟩
      simpa [observe, Pc.stand] using Object.Moves.serve (O := lock τ) hp (hs' ▸ Serves.lock)
    | @wait n w q r hw => cases r <;> exact ⟨_, _, .refl, hquiet rfl rfl⟩
    | unlockAssert => exact ⟨_, _, .refl, hquiet rfl rfl⟩
    | unlockStore =>
      have hs' := howner.2 (by simp [Local.owner])
      exact ⟨_, _, .effect .refl hp (hs' ▸ Serves.unlock), hgiven rfl⟩
    | @resume n r q o hr =>
      cases o with
      | inl r' => exact ⟨_, _, .refl, hquiet rfl rfl⟩
      | inr b => exact ⟨_, _, .ret .refl hp, hseen rfl⟩

/-- **The mutex is an atomic lock.**  Whatever the tasks do, what they see can be
explained by a lock whose operations take effect at one instant, each between its call
and its return: `lock` gives the lock to its task where nobody has it, `try_lock` does
so or returns `false` where somebody has it, and `unlock` takes it back from its
task. -/
theorem mutex_linearizable (sched : List (τ × Act)) :
    (lock τ).Linearizable ((start τ).history next observe sched) := by
  refine Object.linearizable_of_simulation observe Implements ?_ ?_ sched (Config.admits_true ..)
  · exact ⟨fun t => rfl, fun t => by simp [lock, start, Object.start, Local.owner]⟩
  · intro c d t a s l hr h _ hn
    exact implements_step (ledger hr) (inv_of_reach hr) h hn

/-- Two tasks, of which one waits in `lock` until the other one's `unlock`. -/
example : (start (Fin 2)).history next observe (turns [(0, 1, .lock), (0, 1, .step), (1, 1, .lock),
      (1, 1, .step), (0, 1, .unlock), (0, 2, .step), (1, 2, .step)]) =
    [.call 0 .lock, .ret 0 none, .call 1 .lock, .call 0 .unlock, .ret 1 none] := by
  decide

/-! ### Rest -/

/-- A step of a task inside the code. -/
def Inside (_ : Config τ (Shared τ) (Local τ)) (_ : τ) (a : Act) : Prop := a = .step

/-- Where a task stands in the code of the queue. -/
def Local.place (l : Local τ) : WaitQueue.Pc τ :=
  match l.pc with
  | .lockWait w => .waitIf w
  | .unlockResume r => .resumeOne r
  | _ => .idle

omit [DecidableEq τ] [Fintype τ] in
/-- What a task does on the queue is what its place in the queue's code does. -/
theorem view_eq (l : Local τ) : l.view = l.place.view := by
  obtain ⟨n, pc⟩ := l
  cases pc <;> rfl

/-- What a task can still do to the flag and to the queue. -/
def Local.moves (l : Local τ) : ℕ :=
  l.place.debt + match l.pc with
    | .tryLock | .lockTry | .lockWait _ => 1
    | .unlockAssert | .unlockStore => 2
    | _ => 0

/-- The steps from `while (!try_lock())` on: with the flag clear the task wins. -/
def again (locked : Bool) : ℕ := if locked then 7 else 0

/-- The steps of a task as long as nobody changes the flag or wakes it. -/
def Local.rank (s : Shared τ) (l : Local τ) : ℕ :=
  match l.pc with
  | .outside | .unlockStore => 0
  | .tryLock | .unlockAssert => 1
  | .lockTry => again s.locked
  | .lockWait w => (Pc.waitIf w).rank s.waitQueue.resumed s.locked (again s.locked)
  | .unlockResume r => (Pc.resumeOne r).rank s.waitQueue.resumed s.locked 0

/-- The budget of a task. -/
def budget (τ : Type*) [DecidableEq τ] : Budget (Shared τ) (Local τ) where
  moves := Local.moves
  hands l := l.view.hands.length
  rank := Local.rank

omit [Fintype τ] in
/-- While the flag stays, the rank of a task changes only if it is woken. -/
theorem rank_congr {s s' : Shared τ} (l : Local τ) (hs : s'.locked = s.locked)
    (hr : ∀ sp, l.view.stage = .pushed sp →
      (sp ∈ s'.waitQueue.resumed ↔ sp ∈ s.waitQueue.resumed)) :
    l.rank s' = l.rank s := by
  obtain ⟨n, pc⟩ := l
  cases pc with
  | lockWait w | unlockResume r => simpa only [Local.rank, hs] using Pc.rank_congr hr
  | _ => simp [Local.rank, hs]

/-- **No step of a task inside is free.** -/
theorem spends {c : Config τ (Shared τ) (Local τ)} {t : τ} {s : Shared τ} {l : Local τ}
    (hL : Ledger c.shared.waitQueue fun t => (c.loc t).view)
    (hn : next t .step c.shared (c.loc t) = some (s, l)) :
    (budget τ).Spends c t (c.loc t) s l := by
  have hs := step_of_next hn
  -- a step of the queue raises no other task's rank, unless it wakes
  have hothers : s.locked = c.shared.locked → (budget τ).hands (c.loc t) ≤ (budget τ).hands l →
      ∀ u, u ≠ t → (budget τ).rank s (c.loc u) ≤ (budget τ).rank c.shared (c.loc u) :=
    fun hl hh u hu => (rank_congr _ hl fun sp hsp => hs.effect.resumed_iff hL hh hu hsp).le
  have hcall : ∀ sp, (c.loc t).view.stage = .callback sp → sp ∉ c.shared.waitQueue.resumed :=
    fun sp hst => hL.not_resumed_of_callback hst
  generalize c.loc t = l₀ at *
  cases hs with
  | callLock | callTryLock | callUnlock => simp [next] at hn
  | tryLockFails =>
    exact .walk (Nat.zero_le _) le_rfl Nat.zero_lt_one fun u _ => le_rfl
  | unlockAssert => exact .walk le_rfl le_rfl Nat.zero_lt_one fun u _ => le_rfl
  | tryLockWins | lockWins => exact .move Nat.zero_lt_one
  | unlockStore => exact .move Nat.one_lt_two
  | lockFails hs =>
    refine .walk le_rfl le_rfl ?_ fun u _ => le_rfl
    simp [budget, Local.rank, Pc.rank, WaitIf.rank, again, hs]
  | @wait n w q r hw =>
    have hq : WaitQueue.next t (.step c.shared.locked) c.shared.waitQueue (.waitIf w) =
        some (q, r.elim .idle .waitIf) := by
      simp [WaitQueue.next, hw]
    have hsp := next_spent (k := again c.shared.locked) hq hcall
    cases r <;> exact hsp.spends le_rfl le_rfl le_rfl (hothers rfl)
  | @resume n r q o hr =>
    have hq : WaitQueue.next t (.step c.shared.locked) c.shared.waitQueue (.resumeOne r) =
        some (q, o.elim .resumeOne fun _ => .idle) := by
      simp [WaitQueue.next, hr]
    have hsp := next_spent (k := 0) hq hcall
    cases o <;> exact hsp.spends (Nat.add_comm ..).le le_rfl le_rfl (hothers rfl)

/-- Nothing is left to do without a new call. -/
structure AtRest (c : Config τ (Shared τ) (Local τ)) : Prop where
  /-- Every task is outside, or it is suspended in `lock()` and in the queue. -/
  everyone (t : τ) : (c.loc t).pc = .outside ∨ ∃ sp, (c.loc t).pc = .lockWait (.queued sp) ∧
    sp ∈ c.shared.waitQueue.waiters ∧ sp ∉ c.shared.waitQueue.resumed
  /-- A suspended task waits for an owner. -/
  held (t : τ) : (c.loc t).pc ≠ .outside → ∃ u, (c.loc u).Owns
  /-- With every task outside nobody is in the queue, as its destructor asserts. -/
  empty : (∀ t, (c.loc t).pc = .outside) → c.shared.waitQueue.waiters = []

/-- Where nobody inside can step, the mutex is at rest. -/
theorem atRest {c : Config τ (Shared τ) (Local τ)}
    (hL : Ledger c.shared.waitQueue fun t => (c.loc t).view) (hI : Inv c)
    (hrest : ∀ t a, Inside c t a → c.step next t a = none) : AtRest c := by
  have hnone (t : τ) : next t .step c.shared (c.loc t) = none :=
    Option.map_eq_none_iff.1 (hrest t .step rfl)
  have hL' : Ledger c.shared.waitQueue fun t => (c.loc t).place.view := by
    simpa only [view_eq] using hL
  have hqueue := (hL'.at_rest fun t hne => ⟨c.shared.locked, by
    have := hnone t
    generalize c.loc t = l at this hne
    obtain ⟨n, pc⟩ := l
    cases pc with
    | lockWait w | unlockResume r =>
      simpa [Local.place, WaitQueue.next, next] using this
    | _ => exact absurd rfl hne⟩).2
  have hall (t : τ) : (c.loc t).pc = .outside ∨ ∃ sp, (c.loc t).pc = .lockWait (.queued sp) ∧
      sp ∈ c.shared.waitQueue.waiters ∧ sp ∉ c.shared.waitQueue.resumed := by
    have hq := hqueue t
    have hn := hnone t
    generalize c.loc t = l at hq hn
    obtain ⟨n, pc⟩ := l
    cases pc with
    | outside => exact .inl rfl
    | lockWait w => exact .inr (by simpa [Local.place] using hq)
    | unlockResume r => simp [Local.place] at hq
    | _ => simp [next] at hn
  refine ⟨hall, fun t hne => ?_, fun hout => ?_⟩
  · obtain ⟨sp, hpc, hsp, hnr⟩ := (hall t).resolve_left hne
    refine (locked_iff_owned hI).1 (by_contra fun hfree => ?_)
    -- with the flag clear somebody would be on the way to it
    obtain ⟨u, ⟨hin, hns⟩ | ⟨r, hun⟩⟩ :=
      exists_coming hL hI (by simpa using hfree) (List.ne_nil_of_mem hsp)
    · rcases hall u with ho | ⟨sp', hpc', -, hnr'⟩
      · rcases hin with hin | ⟨w, hin⟩ <;> simp [hin] at ho
      · exact hns ⟨sp', hpc', hnr'⟩
    · rcases hall u with ho | ⟨sp', hpc', -⟩
      · simp [hun] at ho
      · simp [hun] at hpc'
  · exact hL.waiters_eq_nil fun t => by simp [Local.view, hout t, View.idle]

/-- **The mutex comes to rest.**  From every configuration of every run, the steps of
the tasks inside, in whatever order, end: no task goes round the loop of `lock()` for
ever.  Where they end every task is outside or suspended in the queue of a mutex that
somebody owns; and with every task outside the queue is empty. -/
theorem mutex_comes_to_rest {c : Config τ (Shared τ) (Local τ)} (h : Reachable next (start τ) c) :
    ComesToRest next Inside AtRest c :=
  h.comesToRest (budget τ).measure (fun _ _ _ _ => trivial)
    (fun _ _ _ _ _ hr ha hn => by
      subst ha
      exact (spends (ledger hr) hn).lt)
    fun _ hr hrest => atRest (ledger hr) (inv_of_reach hr) hrest

/-- The theorem where task `1` has been woken and the flag is clear. -/
theorem mutex_comes_to_rest_handover :
    ∃ c, (start (Fin 2)).exec next handover = some c ∧ c.shared.locked = false ∧
      ComesToRest next Inside AtRest c :=
  ⟨_, rfl, rfl, mutex_comes_to_rest (reachable_of_exec (l := handover) rfl)⟩

end Mutex
end CoopSync
