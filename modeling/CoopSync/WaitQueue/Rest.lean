/-
# What the queue costs, and where it stops

The budget of a task in the code of the queue.  Its debt is what it has still to take
off the list, and its hands hold what it took; it pays for a task that goes back to work
with one of the two.  Its rank (`Pc.rank`) is the number of steps it takes by itself: in
`wait_if` it depends on the predicate, on whether the task was resumed, and on the
place the task goes on from.  No step of the code is free (`next_spent`), and no step
but a wake-up touches the rank of another task (`Effect.resumed_iff`).

`Ledger.at_rest` is the other half: where no task can step, the lock is free and
every task in the code is in the list.
-/

import CoopSync.Rest
import CoopSync.WaitQueue.Release

namespace CoopSync
namespace WaitQueue

variable {τ : Type*}

/-- Who waits holds nobody. -/
@[simp] theorem WaitIf.view_hands (w : WaitIf τ) : w.view.hands = [] := by
  cases w <;> rfl

/-- How much a task has still to take off the list: waiters one by one, or the list as a
whole. -/
def Pc.debt : Pc τ → ℕ
  | .resumeOne r => r.owes
  | .resumeAll r => r.owes
  | .resumeN r => r.owes
  | _ => 0

def DoResumeAll.rank (k : ℕ) : DoResumeAll τ → ℕ
  | .popFront _ => k + 2
  | .resume _ _ => k + 1

variable [DecidableEq τ]

/-- The steps of a task in `wait_if` before it waits or reaches a place of rank `k`. -/
def WaitIf.rank (resumed : List (SuspendPoint τ)) (pred : Bool) (k : ℕ) : WaitIf τ → ℕ
  | .fastPath => if pred then 6 else k + 1
  | .suspend => if pred then 5 else k + 6
  | .lock _ => if pred then 4 else k + 5
  | .recheck _ => if pred then 3 else k + 4
  | .pushBack _ => 2
  | .unlockQueued sp => if sp ∈ resumed then k + 2 else 1
  | .queued sp => if sp ∈ resumed then k + 1 else 0
  | .unlockResume _ => k + 3
  | .resume _ => k + 2
  | .selfResumed _ => k + 1

/-- The steps of a task before it waits, has taken what it owes, wakes somebody or
reaches a place of rank `k`. -/
def Pc.rank (resumed : List (SuspendPoint τ)) (pred : Bool) (k : ℕ) : Pc τ → ℕ
  | .idle => k
  | .waitIf w => w.rank resumed pred k
  | .resumeOne .lock => k + 3
  | .resumeOne .popFront => k + 2
  | .resumeOne (.unlock _) => k + 2
  | .resumeOne (.resume _) => k + 1
  | .resumeAll .lock => k + 5
  | .resumeAll .swap => k + 4
  | .resumeAll (.unlock _) => k + 3
  | .resumeAll (.doResumeAll d) => d.rank k
  | .resumeN (.enter _) => k + 6
  | .resumeN (.lock _) => k + 5
  | .resumeN (.loop _ _ _) => k + 4
  | .resumeN (.unlock _ _) => k + 3
  | .resumeN (.doResumeAll _ d) => d.rank k
  | .empty .lock => k + 3
  | .empty .read => k + 2
  | .empty (.unlock _) => k + 1

/-- How a step uses debt, hands and rank. -/
inductive Spent (debt debt' hands hands' rank rank' : ℕ) : Prop
  | takes (hd : debt' < debt)
  | wakes (hd : debt' ≤ debt) (hh : hands' < hands)
  | walks (hd : debt' ≤ debt) (hh : hands' ≤ hands) (hr : rank' < rank)

variable {t : τ} {q q' : Queue τ} {pc pc' : Pc τ} {pred : Bool} {k : ℕ}

omit [DecidableEq τ] in
/-- A free lock can be taken. -/
theorem Queue.acquire_of_free (h : q.waitersMutex = none) : q.acquire t ≠ none := by
  simp [Queue.acquire, h]

/-- A step of `wait_if` lowers the rank, as long as a callback has its task
suspended. -/
theorem WaitIf.step_rank {w : WaitIf τ} {r : Option (WaitIf τ)}
    (h : w.step t pred q = some (q', r))
    (hsp : ∀ sp, w.view.stage = .callback sp → sp ∉ q.resumed) :
    (r.elim k fun w' => w'.rank q'.resumed pred k) < w.rank q.resumed pred k := by
  cases w with
  | fastPath =>
    obtain ⟨rfl, rfl⟩ := by simpa [WaitIf.step] using h
    cases pred <;> simp [WaitIf.rank]
  | suspend =>
    obtain ⟨rfl, rfl⟩ := by simpa [WaitIf.step] using h
    cases pred <;> simp [WaitIf.rank]
  | lock sp =>
    obtain ⟨q₁, hq, he⟩ := Option.map_eq_some_iff.1 h
    obtain ⟨rfl, rfl⟩ := by simpa using he
    cases pred <;> simp [WaitIf.rank]
  | recheck sp =>
    obtain ⟨rfl, rfl⟩ := by simpa [WaitIf.step] using h
    cases pred <;> simp [WaitIf.rank]
  | pushBack sp =>
    obtain ⟨rfl, rfl⟩ := by simpa [WaitIf.step] using h
    simp [WaitIf.rank, hsp sp rfl]
  | unlockQueued sp =>
    obtain ⟨rfl, rfl⟩ := by simpa [WaitIf.step] using h
    show (if sp ∈ q.resumed then k + 1 else 0) < if sp ∈ q.resumed then k + 2 else 1
    split_ifs <;> omega
  | unlockResume sp | resume sp =>
    obtain ⟨rfl, rfl⟩ := by simpa [WaitIf.step] using h
    simp [WaitIf.rank]
  | queued sp =>
    simp only [WaitIf.step] at h
    split at h
    · rename_i hr
      obtain ⟨rfl, rfl⟩ := by simpa using h
      simp [WaitIf.rank, hr]
    · simp at h
  | selfResumed sp =>
    simp only [WaitIf.step] at h
    split at h
    · obtain ⟨rfl, rfl⟩ := by simpa using h
      simp [WaitIf.rank]
    · simp at h

omit [DecidableEq τ] in
/-- A step of the loop spends: it resumes one of those in hand, or ends. -/
theorem DoResumeAll.step_spent (q : Queue τ) (d : DoResumeAll τ) :
    Spent 0 0 d.view.hands.length ((d.step q).2.elim 0 fun d' => d'.view.hands.length)
      (d.rank k) ((d.step q).2.elim k (DoResumeAll.rank k)) := by
  cases d with
  | popFront l =>
    cases l <;> exact .walks le_rfl le_rfl (by simp [DoResumeAll.step, DoResumeAll.rank])
  | resume waiter rest => exact .wakes le_rfl (by simp [DoResumeAll.step, DoResumeAll.view])

/-- **No step of the queue is free.**  It takes what its task owes off the list, wakes a
task, or lowers the rank of its own. -/
theorem next_spent (h : next t (.step pred) q pc = some (q', pc'))
    (hsp : ∀ sp, pc.view.stage = .callback sp → sp ∉ q.resumed) :
    Spent pc.debt pc'.debt pc.view.hands.length pc'.view.hands.length
      (pc.rank q.resumed pred k) (pc'.rank q'.resumed pred k) := by
  cases pc with
  | idle => simp [next] at h
  | waitIf w =>
    obtain ⟨⟨q₁, r⟩, hr, he⟩ := Option.map_eq_some_iff.1 h
    obtain ⟨rfl, rfl⟩ := by simpa using he
    have hlt := w.step_rank (k := k) hr hsp
    cases r with
    | none => exact .walks le_rfl (Nat.zero_le _) hlt
    | some w' => exact .walks le_rfl (by cases w' <;> exact Nat.zero_le _) hlt
  | resumeOne r =>
    obtain ⟨⟨q₁, o⟩, hr, he⟩ := Option.map_eq_some_iff.1 h
    obtain ⟨rfl, rfl⟩ := by simpa using he
    cases r with
    | lock =>
      obtain ⟨q₂, -, he⟩ := Option.map_eq_some_iff.1 hr
      obtain ⟨rfl, rfl⟩ := by simpa using he
      exact .walks le_rfl le_rfl (by simp [Pc.rank])
    | popFront =>
      obtain ⟨rfl, rfl⟩ := by simpa [ResumeOne.step] using hr
      exact .takes Nat.zero_lt_one
    | unlock waiter =>
      cases waiter <;> obtain ⟨rfl, rfl⟩ := by simpa [ResumeOne.step] using hr
      · exact .walks le_rfl le_rfl (by simp [Pc.rank])
      · exact .walks le_rfl le_rfl (by simp [Pc.rank])
    | resume waiter =>
      obtain ⟨rfl, rfl⟩ := by simpa [ResumeOne.step] using hr
      exact .wakes le_rfl Nat.zero_lt_one
  | resumeAll r =>
    obtain ⟨⟨q₁, o⟩, hr, he⟩ := Option.map_eq_some_iff.1 h
    obtain ⟨rfl, rfl⟩ := by simpa using he
    cases r with
    | lock =>
      obtain ⟨q₂, -, he⟩ := Option.map_eq_some_iff.1 hr
      obtain ⟨rfl, rfl⟩ := by simpa using he
      exact .walks le_rfl le_rfl (by simp [Pc.rank])
    | swap =>
      obtain ⟨rfl, rfl⟩ := by simpa [ResumeAll.step] using hr
      exact .takes Nat.zero_lt_one
    | unlock l =>
      obtain ⟨rfl, rfl⟩ := by simpa [ResumeAll.step] using hr
      exact .walks le_rfl le_rfl (by simp [Pc.rank, DoResumeAll.rank])
    | doResumeAll d =>
      obtain ⟨rfl, rfl⟩ := by simpa [ResumeAll.step] using hr
      have hd := d.step_spent (k := k) q
      cases he : (d.step q).2 <;> simpa [he, Pc.debt, ResumeAll.owes, Pc.view, ResumeAll.view,
        Pc.rank] using hd
  | resumeN r =>
    obtain ⟨⟨q₁, o⟩, hr, he⟩ := Option.map_eq_some_iff.1 h
    obtain ⟨rfl, rfl⟩ := by simpa using he
    cases r with
    | enter n =>
      obtain ⟨rfl, rfl⟩ := by simpa [ResumeN.step] using hr
      split_ifs
      · exact .walks (Nat.zero_le _) le_rfl (by simp [Pc.rank])
      · exact .walks le_rfl le_rfl (by simp [Pc.rank])
    | lock n =>
      obtain ⟨q₂, -, he⟩ := Option.map_eq_some_iff.1 hr
      obtain ⟨rfl, rfl⟩ := by simpa using he
      exact .walks le_rfl le_rfl (by simp [Pc.rank])
    | loop n resumed l =>
      simp only [ResumeN.step] at hr
      split at hr
      · split at hr <;> obtain ⟨rfl, rfl⟩ := by simpa using hr
        · exact .walks (Nat.zero_le _) le_rfl (by simp [Pc.rank])
        · exact .takes (by simp [Pc.debt, ResumeN.owes]; omega)
      · obtain ⟨rfl, rfl⟩ := by simpa using hr
        exact .walks (Nat.zero_le _) le_rfl (by simp [Pc.rank])
    | unlock resumed l =>
      obtain ⟨rfl, rfl⟩ := by simpa [ResumeN.step] using hr
      exact .walks le_rfl le_rfl (by simp [Pc.rank, DoResumeAll.rank])
    | doResumeAll resumed d =>
      obtain ⟨rfl, rfl⟩ := by simpa [ResumeN.step] using hr
      have hd := d.step_spent (k := k) q
      cases he : (d.step q).2 <;> simpa [he, Pc.debt, ResumeN.owes, Pc.view, ResumeN.view,
        Pc.rank] using hd
  | empty e =>
    obtain ⟨⟨q₁, o⟩, hr, he⟩ := Option.map_eq_some_iff.1 h
    obtain ⟨rfl, rfl⟩ := by simpa using he
    cases e with
    | lock =>
      obtain ⟨q₂, -, he⟩ := Option.map_eq_some_iff.1 hr
      obtain ⟨rfl, rfl⟩ := by simpa using he
      exact .walks le_rfl le_rfl (by simp [Pc.rank])
    | read | unlock result =>
      obtain ⟨rfl, rfl⟩ := by simpa [Empty.step] using hr
      exact .walks le_rfl le_rfl (by simp [Pc.rank])

/-- The rank of a task depends on what was resumed only through its own suspension. -/
theorem Pc.rank_congr {r r' : List (SuspendPoint τ)}
    (h : ∀ sp, pc.view.stage = .pushed sp → (sp ∈ r' ↔ sp ∈ r)) :
    pc.rank r' pred k = pc.rank r pred k := by
  cases pc with
  | waitIf w =>
    cases w with
    | unlockQueued sp | queued sp =>
      have := h sp rfl
      simp [Pc.rank, WaitIf.rank, this]
    | _ => rfl
  | resumeOne r => cases r <;> rfl
  | resumeAll r => cases r <;> rfl
  | resumeN r => cases r <;> rfl
  | empty e => cases e <;> rfl
  | idle => rfl

variable [Fintype τ] {v : τ → View τ}

/-- A step that wakes nobody resumes at most its own task. -/
theorem Effect.resumed_iff {v' : View τ} (e : Effect t q (v t) q' v') (hL : Ledger q v)
    (hh : (v t).hands.length ≤ v'.hands.length) {u : τ} (hu : u ≠ t) {sp : SuspendPoint τ}
    (hsp : (v u).stage = .pushed sp) : sp ∈ q'.resumed ↔ sp ∈ q.resumed := by
  have htask := (hL.own u sp (by rw [hsp]; rfl)).1
  generalize hv : v t = v₀ at e hh
  cases e with
  | resume => simp at hh
  | @resumeSelf _ sp₁ =>
    have hown := (hL.own t sp₁ (by rw [hv]; rfl)).1
    have hne : sp ≠ sp₁ := fun heq => hu (htask ▸ heq ▸ hown)
    simp [Queue.resume, hne]
  | _ => exact Iff.rfl

omit [DecidableEq τ] [Fintype τ] in
/-- A program pays for a step of its queue from the budget of the task. -/
theorem Spent.spends {σ ℓ : Type*} {b : Budget σ ℓ} {c : Config τ σ ℓ} {s : σ} {l₀ l : ℓ}
    {d d' r r' : ℕ} (h : Spent d d' (b.hands l₀) (b.hands l) r r')
    (hm : b.moves l + d ≤ b.moves l₀ + d') (hr : r ≤ b.rank c.shared l₀) (hr' : b.rank s l ≤ r')
    (hothers : b.hands l₀ ≤ b.hands l →
      ∀ u, u ≠ t → b.rank s (c.loc u) ≤ b.rank c.shared (c.loc u)) : b.Spends c t l₀ s l := by
  cases h with
  | takes hd => exact .move (by omega)
  | wakes hd hh => exact .wake (by omega) hh
  | walks hd hh hlt =>
    rcases Nat.lt_or_eq_of_le hh with hh' | hh'
    · exact .wake (by omega) hh'
    · exact .walk (by omega) hh (by omega) (hothers hh'.ge)

/-! ### Where nobody can step -/

omit [Fintype τ] in
/-- Why a task in the code cannot step: it stands before the lock, or it is suspended. -/
theorem next_none (h : next t (.step pred) q pc = none) :
    pc = .idle ∨ q.waitersMutex ≠ none ∧ pc.view.critical = false ∧ pc.view.hands = [] ∨
      ∃ sp, (pc = .waitIf (.queued sp) ∨ pc = .waitIf (.selfResumed sp)) ∧ sp ∉ q.resumed := by
  have hlock : q.acquire t = none → q.waitersMutex ≠ none := fun ha hf =>
    Queue.acquire_of_free hf ha
  cases pc with
  | idle => exact .inl rfl
  | waitIf w =>
    have hw := Option.map_eq_none_iff.1 h
    cases w with
    | lock sp => exact .inr (.inl ⟨hlock (Option.map_eq_none_iff.1 hw), rfl, rfl⟩)
    | queued sp =>
      exact .inr (.inr ⟨sp, .inl rfl, fun hr => by simp [WaitIf.step, hr] at hw⟩)
    | selfResumed sp =>
      exact .inr (.inr ⟨sp, .inr rfl, fun hr => by simp [WaitIf.step, hr] at hw⟩)
    | _ => simp [WaitIf.step] at hw
  | resumeOne r =>
    have hr := Option.map_eq_none_iff.1 h
    cases r with
    | lock => exact .inr (.inl ⟨hlock (Option.map_eq_none_iff.1 hr), rfl, rfl⟩)
    | unlock waiter => cases waiter <;> simp [ResumeOne.step] at hr
    | _ => simp [ResumeOne.step] at hr
  | resumeAll r =>
    have hr := Option.map_eq_none_iff.1 h
    cases r with
    | lock => exact .inr (.inl ⟨hlock (Option.map_eq_none_iff.1 hr), rfl, rfl⟩)
    | _ => simp [ResumeAll.step] at hr
  | resumeN r =>
    have hr := Option.map_eq_none_iff.1 h
    cases r with
    | lock n => exact .inr (.inl ⟨hlock (Option.map_eq_none_iff.1 hr), rfl, rfl⟩)
    | loop n resumed l =>
      simp only [ResumeN.step] at hr
      split at hr
      · split at hr <;> simp at hr
      · simp at hr
    | _ => simp [ResumeN.step] at hr
  | empty e =>
    have he := Option.map_eq_none_iff.1 h
    cases e with
    | lock => exact .inr (.inl ⟨hlock (Option.map_eq_none_iff.1 he), rfl, rfl⟩)
    | _ => simp [Empty.step] at he

omit [Fintype τ] in
/-- Where a `wait_if` whose predicate does something cannot go on, its code cannot. -/
theorem WaitIf.exists_step_eq_none {σ : Type*} {p : σ → Bool × σ} {s : σ} {w : WaitIf τ}
    (h : w.stepWith p t s q = none) : ∃ b, w.step t b q = none := by
  unfold WaitIf.stepWith at h
  split at h
  · exact ⟨_, Option.map_eq_none_iff.1 h⟩
  · exact ⟨_, Option.map_eq_none_iff.1 h⟩

/-- A callback that resumed its task did. -/
theorem Ledger.selfResumed_mem (h : Ledger q v) {sp : SuspendPoint τ}
    (hs : (v t).stage = .selfResumed sp) : sp ∈ q.resumed := by
  have hsp : (v t).stage.suspendPoint = some sp := by rw [hs]; rfl
  obtain ⟨htask, -⟩ := h.own t sp hsp
  have honce := h.once sp
  rw [h.made_eq_one hsp] at honce
  have hnot : ¬(sp ∈ q.waiters ∨ ∃ u, sp ∈ (v u).hands) := fun hp => by
    have := h.placed sp hp
    rw [htask, hs] at this
    simp at this
  have hcarries : total (View.carries sp) v = 0 := by
    refine total_eq_zero.2 fun u => ?_
    have hne : (v u).stage ≠ .callback sp := fun hc => by
      obtain ⟨hu, -⟩ := h.own u sp (by rw [hc]; rfl)
      rw [← hu, htask, hs] at hc
      simp at hc
    simp [View.carries, hne, List.count_eq_zero.2 fun hu => hnot (.inr ⟨u, hu⟩)]
  have hwaiters : q.waiters.count sp = 0 := List.count_eq_zero.2 fun hw => hnot (.inl hw)
  exact List.count_pos_iff.1 (by omega)

/-- **Where the code stops.**  If no task in the code of the queue can step, the lock
is free, and every task in the code is suspended and in the list. -/
theorem Ledger.at_rest {pcs : τ → Pc τ} (hL : Ledger q fun t => (pcs t).view)
    (hrest : ∀ t, pcs t ≠ .idle → ∃ pred, next t (.step pred) q (pcs t) = none) :
    q.waitersMutex = none ∧ ∀ t, pcs t = .idle ∨
      ∃ sp, pcs t = .waitIf (.queued sp) ∧ sp ∈ q.waiters ∧ sp ∉ q.resumed := by
  have hwhy : ∀ t, _ := fun t => (em (pcs t = .idle)).elim .inl fun hne =>
    let ⟨_, hn⟩ := hrest t hne
    next_none hn
  have hfree : q.waitersMutex = none := by
    by_contra hheld
    obtain ⟨t, ht⟩ := Option.ne_none_iff_exists'.1 hheld
    have hcrit : (pcs t).view.critical = true := (hL.mutex t).2 ht
    rcases hwhy t with hi | ⟨-, hc, -⟩ | ⟨sp, hpc | hpc, -⟩
    · simp [hi, Pc.view] at hcrit
    · simp [hc] at hcrit
    · simp [hpc, Pc.view, WaitIf.view] at hcrit
    · simp [hpc, Pc.view, WaitIf.view] at hcrit
  refine ⟨hfree, fun t => ?_⟩
  rcases hwhy t with hi | ⟨hheld, -⟩ | ⟨sp, hpc | hpc, hres⟩
  · exact .inl hi
  · exact absurd hfree hheld
  · refine .inr ⟨sp, hpc, ?_, hres⟩
    -- nobody has the waiter in hands, for such a task could step
    have hpushed : (pcs t).view.stage = .pushed sp := by simp [hpc, Pc.view, WaitIf.view]
    rcases hL.pushed_cases hpushed with hw | ⟨u, hu⟩ | hr
    · exact hw
    · rcases hwhy u with hi | ⟨hheld, -⟩ | ⟨sp', hpc' | hpc', -⟩
      · simp [hi, Pc.view] at hu
      · exact absurd hfree hheld
      · simp [hpc', Pc.view, WaitIf.view] at hu
      · simp [hpc', Pc.view, WaitIf.view] at hu
    · exact absurd hr hres
  · exact absurd (hL.selfResumed_mem (t := t) (by simp [hpc, Pc.view, WaitIf.view])) hres

/-- A task that has not called is in no list: with all tasks outside the list is
empty. -/
theorem Ledger.waiters_eq_nil (h : Ledger q v) (hout : ∀ t, (v t).stage = .out) :
    q.waiters = [] := by
  refine List.eq_nil_iff_forall_not_mem.2 fun sp hsp => ?_
  have := h.placed sp (.inl hsp)
  rw [hout] at this
  simp at this

end WaitQueue
end CoopSync
