/-
# Waiting until a condition holds

A primitive evaluates, in the predicate it gives `wait_if`, whether its task still has
to wait, and calls `resume_all` after every change that may end a wait.  Two facts are
kept by such a primitive, whatever the condition is.

`Attended`: whoever is in the list, or has seen the predicate true under the lock, still
has to wait, or somebody is on the way to take the list as a whole.  So when nobody is,
no task is left in the list that could go on.

`Settled`, for a condition that stays once it holds: nobody is resumed before it holds.
So `wait_if` returns only when it holds (`Settled.returns`).

The rules are about the steps of the queue (`next`), which every primitive takes in its
own.
-/

import CoopSync.WaitQueue.Wakeups

namespace CoopSync
namespace WaitQueue

variable {τ : Type*}

/-- One for a task that has found the predicate true under the lock. -/
def Pc.pushing : Pc τ → ℕ
  | .waitIf w => w.pushing
  | _ => 0

/-- One for a task that is to take the list as a whole. -/
def Pc.owes : Pc τ → ℕ
  | .resumeAll r => r.owes
  | _ => 0

/-- Past a re-check that came out false, or resuming waiters. -/
def Pc.past : Pc τ → Bool
  | .waitIf (.unlockResume _) | .waitIf (.resume _) | .waitIf (.selfResumed _) => true
  | .resumeOne _ | .resumeAll _ | .resumeN _ => true
  | _ => false

/-- Who is about to push holds the queue's lock. -/
theorem Pc.critical_of_pushing {pc : Pc τ} (h : 0 < pc.pushing) : pc.view.critical = true := by
  cases pc with
  | waitIf w => exact WaitIf.critical_of_pushing h
  | _ => simp [Pc.pushing] at h

variable [DecidableEq τ] {t : τ} {a : Act} {q q' : Queue τ} {pc pc' : Pc τ}

/-- A call is made outside the code and leaves the queue as it is. -/
theorem next_call {op : Op} (h : next t (.call op) q pc = some (q', pc')) :
    pc = .idle ∧ q' = q ∧ pc' = op.enter := by
  cases pc with
  | idle =>
    obtain ⟨rfl, rfl⟩ := by simpa [next] using h
    exact ⟨rfl, rfl, rfl⟩
  | _ => simp [next] at h

/-- A step of `wait_if` in a step of the queue. -/
theorem next_waitIf {w : WaitIf τ} (h : next t a q (.waitIf w) = some (q', pc')) :
    ∃ pred r, a = .step pred ∧ w.step t pred q = some (q', r) ∧ pc' = r.elim .idle .waitIf := by
  cases a with
  | call op => simp [next] at h
  | step pred =>
    obtain ⟨⟨q₁, r⟩, hr, he⟩ := Option.map_eq_some_iff.1 h
    obtain ⟨rfl, rfl⟩ := by simpa using he
    exact ⟨pred, r, rfl, hr, rfl⟩

/-- A task comes to push itself by finding the predicate true. -/
theorem next_pushing (h : next t a q pc = some (q', pc')) (hp : 0 < pc'.pushing) :
    0 < pc.pushing ∨ a = .step true := by
  cases pc with
  | waitIf w =>
    obtain ⟨pred, r, rfl, hr, rfl⟩ := next_waitIf h
    cases WaitIf.step_moves hr with
    | stays _ _ hb => exact .inl (by simpa [Pc.pushing, hb] using hp)
    | returns => simp [Pc.pushing] at hp
    | begins hpred => exact .inr (by rw [hpred])
    | pushes _ hb => exact .inl (by simp [Pc.pushing, hb])
  | idle =>
    cases a with
    | call op =>
      obtain ⟨-, -, rfl⟩ := next_call h
      cases op <;> simp [Op.enter, Pc.pushing, WaitIf.pushing] at hp
    | step pred => simp [next] at h
  | _ =>
    cases a with
    | call op => simp [next] at h
    | step pred =>
      obtain ⟨⟨q₁, r⟩, -, he⟩ := Option.map_eq_some_iff.1 h
      obtain ⟨-, rfl⟩ := by simpa using he
      cases r <;> simp [Pc.pushing] at hp

/-- A waiter in the list after a step was there before it, or had found the predicate
true. -/
theorem next_mem_waiters {sp : SuspendPoint τ} (h : next t a q pc = some (q', pc'))
    (hsp : sp ∈ q'.waiters) :
    sp ∈ q.waiters ∨ 0 < pc.pushing ∧ pc.view.stage = .callback sp := by
  rcases (effect_of_next h).mem_waiters hsp with hw | ⟨hc, -⟩
  · exact .inl hw
  cases pc with
  | waitIf w =>
    obtain ⟨pred, r, rfl, hr, rfl⟩ := next_waitIf h
    cases WaitIf.step_moves hr with
    | stays hq | returns hq | begins _ hq => exact .inl (hq ▸ hsp)
    | pushes _ hb => exact .inr ⟨by simp [Pc.pushing, hb], hc⟩
  | idle => simp [Pc.view] at hc
  | empty e => cases e <;> simp [Pc.view, Empty.view] at hc
  | _ => simp [Pc.view] at hc

omit [DecidableEq τ] in
/-- Taking the lock resumes nobody. -/
theorem Queue.acquire_resumed (h : q.acquire t = some q') : q'.resumed = q.resumed := by
  unfold Queue.acquire at h
  split at h
  · obtain rfl := Option.some.inj h
    rfl
  · simp at h

/-- Only tasks that are past a re-check or resume waiters add to what was resumed. -/
theorem next_resumed (h : next t a q pc = some (q', pc')) :
    q'.resumed = q.resumed ∨ pc.past = true := by
  cases pc with
  | idle =>
    cases a with
    | call op =>
      obtain ⟨-, rfl, -⟩ := next_call h
      exact .inl rfl
    | step pred => simp [next] at h
  | waitIf w =>
    obtain ⟨pred, r, rfl, hr, rfl⟩ := next_waitIf h
    cases w with
    | lock sp =>
      obtain ⟨q₁, hq, he⟩ := Option.map_eq_some_iff.1 hr
      obtain ⟨rfl, -⟩ := by simpa using he
      exact .inl (Queue.acquire_resumed hq)
    | queued sp | selfResumed sp =>
      simp only [WaitIf.step] at hr
      split at hr
      · obtain ⟨rfl, -⟩ := by simpa using hr
        exact .inl rfl
      · simp at hr
    | unlockResume sp | resume sp => exact .inr rfl
    | _ =>
      obtain ⟨rfl, -⟩ := by simpa [WaitIf.step] using hr
      exact .inl rfl
  | empty e =>
    cases a with
    | call op => simp [next] at h
    | step pred =>
      obtain ⟨⟨q₁, r⟩, hr, he⟩ := Option.map_eq_some_iff.1 h
      obtain ⟨rfl, -⟩ := by simpa using he
      cases e with
      | lock =>
        obtain ⟨q₂, hq, he⟩ := Option.map_eq_some_iff.1 hr
        obtain ⟨rfl, -⟩ := by simpa using he
        exact .inl (Queue.acquire_resumed hq)
      | _ =>
        obtain ⟨rfl, -⟩ := by simpa [Empty.step] using hr
        exact .inl rfl
  | _ => exact .inr rfl

/-! ### How often a task is suspended -/

/-- One for a task that has not been suspended in this call of `wait_if`. -/
def WaitIf.unsuspended : WaitIf τ → ℕ
  | .fastPath | .suspend => 1
  | _ => 0

/-- A task's suspensions are its own steps. -/
theorem Effect.suspends_of_ne {v v' : View τ} (e : Effect t q v q' v') {u : τ} (hu : u ≠ t) :
    q'.suspends u = q.suspends u := by
  cases e with
  | suspend => exact Function.update_of_ne hu ..
  | _ => rfl

/-- Who is outside `wait_if` makes no suspension. -/
theorem Effect.suspends_eq {v v' : View τ} (e : Effect t q v q' v') (hv : v'.stage = .out) :
    q'.suspends = q.suspends := by
  cases e with
  | suspend => simp at hv
  | _ => rfl

/-- `wait_if` suspends its task once. -/
theorem WaitIf.step_suspends {pred : Bool} {w : WaitIf τ} {r : Option (WaitIf τ)}
    (h : w.step t pred q = some (q', r)) :
    q'.suspends t + r.elim 0 WaitIf.unsuspended ≤ q.suspends t + w.unsuspended := by
  cases w with
  | fastPath =>
    obtain ⟨rfl, rfl⟩ := by simpa [WaitIf.step] using h
    cases pred <;> simp [WaitIf.unsuspended]
  | lock sp =>
    obtain ⟨q₁, hq, he⟩ := Option.map_eq_some_iff.1 h
    obtain ⟨rfl, rfl⟩ := by simpa using he
    unfold Queue.acquire at hq
    split at hq
    · obtain rfl := Option.some.inj hq
      exact le_rfl
    · simp at hq
  | recheck sp =>
    obtain ⟨rfl, rfl⟩ := by simpa [WaitIf.step] using h
    cases pred <;> exact le_rfl
  | queued sp | selfResumed sp =>
    simp only [WaitIf.step] at h
    split at h
    · obtain ⟨rfl, rfl⟩ := by simpa using h
      exact le_rfl
    · simp at h
  | _ =>
    obtain ⟨rfl, rfl⟩ := by simpa [WaitIf.step] using h
    simp [WaitIf.unsuspended, Queue.release, Queue.resume]

/-! ### A program over the queue -/

/-- What a step of a program does in the code of its queue: nothing, or a step of the
queue, in which the predicate is true only if `still`. -/
def QueueStep (t : τ) (still : Prop) (q : Queue τ) (pc : Pc τ) (q' : Queue τ) (pc' : Pc τ) : Prop :=
  q' = q ∧ pc' = pc ∨ ∃ a, next t a q pc = some (q', pc') ∧ (a = .step true → still)

section QueueStep

variable {still : Prop}

/-- A step outside the queue's code. -/
theorem QueueStep.stay : QueueStep t still q pc q pc := .inl ⟨rfl, rfl⟩

/-- A call of the queue's code. -/
theorem QueueStep.call (op : Op) : QueueStep t still q .idle q op.enter :=
  .inr ⟨.call op, rfl, by simp⟩

/-- A step of `resume_all`. -/
theorem QueueStep.resumeAll {r : ResumeAll τ} {o : Option (ResumeAll τ)}
    (h : r.step t q = some (q', o)) :
    QueueStep t still q (.resumeAll r) q' (o.elim .idle .resumeAll) :=
  .inr ⟨.step false, by simp [next, h], by simp⟩

/-- A step of `resume_one`. -/
theorem QueueStep.resumeOne {r : ResumeOne τ} {o : ResumeOne τ ⊕ Bool}
    (h : r.step t q = some (q', o)) :
    QueueStep t still q (.resumeOne r) q' (o.elim .resumeOne fun _ => .idle) :=
  .inr ⟨.step false, by simp [next, h], by simp⟩

/-- A step of `wait_if` with a predicate that is true only where the task may still wait. -/
theorem QueueStep.waitIf {pred : Bool} {w : WaitIf τ} {r : Option (WaitIf τ)}
    (h : w.step t pred q = some (q', r)) (hp : pred = true → still) :
    QueueStep t still q (.waitIf w) q' (r.elim .idle .waitIf) :=
  .inr ⟨.step pred, by simp [next, h], by simpa using hp⟩

/-- A step of the queue's code is an effect on the queue. -/
theorem QueueStep.effect (h : QueueStep t still q pc q' pc') : Effect t q pc.view q' pc'.view := by
  rcases h with ⟨rfl, rfl⟩ | ⟨a, hn, -⟩
  · exact .stay
  · exact effect_of_next hn

/-- A `resume_all` is to take the list until it does. -/
theorem QueueStep.owes (h : QueueStep t still q pc q' pc') (ho : 0 < pc.owes) :
    0 < pc'.owes ∨ pc = .resumeAll .swap ∧ pc' ≠ .resumeAll .swap := by
  rcases h with ⟨-, rfl⟩ | ⟨a, hn, -⟩
  · exact .inl ho
  cases pc with
  | resumeAll r =>
    cases a with
    | call op => simp [next] at hn
    | step pred =>
      obtain ⟨⟨q₁, o⟩, hr, he⟩ := Option.map_eq_some_iff.1 hn
      obtain ⟨rfl, rfl⟩ := by simpa using he
      rcases ResumeAll.step_swaps hr with ⟨-, ho'⟩ | ⟨rfl, -⟩
      · have ho : 0 < r.owes := ho
        cases o with
        | none => exact absurd ho (by simp [← ho'])
        | some r' => exact .inl (by simpa [Pc.owes, ← ho'] using ho)
      · obtain ⟨-, rfl⟩ := by simpa [ResumeAll.step] using hr
        exact .inr ⟨rfl, by simp⟩
  | _ => simp [Pc.owes] at ho

end QueueStep

/-- Where the tasks of a program stand in the queue, after one of them has moved. -/
theorem place_update {ℓ : Type*} (place : ℓ → Pc τ) (loc : τ → ℓ) (t : τ) (l : ℓ) :
    (fun u => place (Function.update loc t l u)) =
      Function.update (fun u => place (loc u)) t (place l) :=
  funext fun u => Function.apply_update (fun _ => place) loc t l u

/-- The ledger of a program over the queue. -/
theorem Ledger.queueStep [Fintype τ] {still : Prop} {pcs : τ → Pc τ}
    (h : Ledger q fun u => (pcs u).view) (hs : QueueStep t still q (pcs t) q' pc') :
    Ledger q' fun u => (Function.update pcs t pc' u).view := by
  have hv : (fun u => (Function.update pcs t pc' u).view) =
      Function.update (fun u => (pcs u).view) t pc'.view :=
    funext fun u => Function.apply_update (fun _ => Pc.view) pcs t pc' u
  rw [hv]
  exact h.effect hs.effect

/-! ### Nobody is left waiting -/

/-- Whoever is in the list, or about to push itself, still has to wait, or somebody is
to take the list. -/
structure Attended (q : Queue τ) (pcs : τ → Pc τ) (still : τ → Prop) (owed : Prop) : Prop where
  pushing : ∀ t, 0 < (pcs t).pushing → still t ∨ owed
  queued : ∀ sp ∈ q.waiters, still sp.task ∨ owed

namespace Attended

variable {pcs : τ → Pc τ} {still still' : τ → Prop} {owed owed' : Prop}

omit [DecidableEq τ] in
/-- Nobody waits on an empty queue. -/
theorem start : Attended (Queue.init τ) (fun _ => .idle) still owed where
  pushing t h := by simp [Pc.pushing] at h
  queued sp h := by simp [Queue.init] at h

omit [DecidableEq τ] in
/-- A step outside the queue: a task that goes on without need is attended to by somebody
who is to take the list. -/
theorem quiet (h : Attended q pcs still owed) (howed : owed → owed')
    (hstill : ∀ u, still u → still' u ∨ owed') : Attended q pcs still' owed' where
  pushing u hu := (h.pushing u hu).elim (hstill u) fun ho => .inr (howed ho)
  queued sp hsp := (h.queued sp hsp).elim (hstill sp.task) fun ho => .inr (howed ho)

variable [Fintype τ]

/-- A step of the queue.  Only the swap of `resume_all` relieves those who are to take
the list, and it leaves nobody in it. -/
theorem step (h : Attended q pcs still owed) (hL : Ledger q fun u => (pcs u).view)
    (hs : QueueStep t (still t) q (pcs t) q' pc')
    (howed : owed → owed' ∨ pcs t = .resumeAll .swap ∧ pc' ≠ .resumeAll .swap)
    (hstill : ∀ u, still u → still' u ∨ owed') :
    Attended q' (Function.update pcs t pc') still' owed' := by
  rcases hs with ⟨rfl, rfl⟩ | ⟨a, hn, htrue⟩
  · rw [Function.update_eq_self]
    exact h.quiet (fun ho => (howed ho).resolve_right fun hne => hne.2 hne.1) hstill
  by_cases hswap : pcs t = .resumeAll .swap
  · -- the list is empty, and nobody else is under the lock
    rw [hswap] at hn
    cases a with
    | call op => simp [next] at hn
    | step pred =>
      obtain ⟨rfl, rfl⟩ := by simpa [next, ResumeAll.step] using hn
      refine ⟨fun u hu => ?_, by simp⟩
      rcases eq_or_ne u t with rfl | hne
      · simp [Pc.pushing] at hu
      · rw [Function.update_of_ne hne] at hu
        refine absurd (hL.critical_unique (Pc.critical_of_pushing hu) ?_) hne
        simp only [hswap]
        rfl
  · have howed : owed → owed' := fun ho => (howed ho).resolve_right fun hne => hswap hne.1
    have hself : 0 < (pcs t).pushing → still' t ∨ owed' := fun hp =>
      (h.pushing t hp).elim (hstill t) fun ho => .inr (howed ho)
    refine ⟨fun u hu => ?_, fun sp hsp => ?_⟩
    · rcases eq_or_ne u t with rfl | hne
      · rw [Function.update_self] at hu
        rcases next_pushing hn hu with hp | ha
        · exact hself hp
        · exact hstill u (htrue ha)
      · rw [Function.update_of_ne hne] at hu
        exact (h.pushing u hu).elim (hstill u) fun ho => .inr (howed ho)
    · rcases next_mem_waiters hn hsp with hw | ⟨hp, hc⟩
      · exact (h.queued sp hw).elim (hstill sp.task) fun ho => .inr (howed ho)
      · rw [(hL.own t sp (by rw [hc]; rfl)).1]
        exact hself hp

/-- The same where those who are to take the list are the tasks in `resume_all`. -/
theorem step_owes (h : Attended q pcs still (∃ u, 0 < (pcs u).owes))
    (hL : Ledger q fun u => (pcs u).view) (hs : QueueStep t (still t) q (pcs t) q' pc')
    (hstill : ∀ u, still u → still' u ∨ 0 < pc'.owes) :
    Attended q' (Function.update pcs t pc') still' (∃ u, 0 < (Function.update pcs t pc' u).owes) := by
  refine h.step hL hs ?_ fun u hu => (hstill u hu).imp_right fun ho => ⟨t, by simpa using ho⟩
  rintro ⟨u, hu⟩
  rcases eq_or_ne u t with rfl | hne
  · rcases hs.owes hu with ho | hswap
    · exact .inl ⟨u, by simpa using ho⟩
    · exact .inr hswap
  · exact .inl ⟨u, by rwa [Function.update_of_ne hne]⟩

end Attended

/-! ### Nobody is let go early -/

/-- Nobody is resumed, or about to be, before `done` holds. -/
structure Settled (q : Queue τ) (pcs : τ → Pc τ) (done : Prop) : Prop where
  resumed : q.resumed ≠ [] → done
  past : ∀ t, (pcs t).past = true → done

namespace Settled

variable {pcs : τ → Pc τ} {done done' : Prop}

omit [DecidableEq τ] in
/-- Nobody has been resumed from an empty queue. -/
theorem start : Settled (Queue.init τ) (fun _ => .idle) done where
  resumed h := by simp [Queue.init] at h
  past t h := by simp [Pc.past] at h

/-- A step of the queue. -/
theorem step {still : Prop} (h : Settled q pcs done) (hs : QueueStep t still q (pcs t) q' pc')
    (hdone : done → done') (hpast : pc'.past = true → (pcs t).past = true ∨ done') :
    Settled q' (Function.update pcs t pc') done' where
  resumed hr := by
    rcases hs with ⟨rfl, -⟩ | ⟨a, hn, -⟩
    · exact hdone (h.resumed hr)
    rcases next_resumed hn with heq | hp
    · exact hdone (h.resumed (heq ▸ hr))
    · exact hdone (h.past t hp)
  past u hu := by
    rcases eq_or_ne u t with rfl | hne
    · rw [Function.update_self] at hu
      exact (hpast hu).elim (fun hp => hdone (h.past u hp)) id
    · rw [Function.update_of_ne hne] at hu
      exact hdone (h.past u hu)

/-- **`wait_if` returns only when the condition holds**, unless it saw so itself on the
fast path. -/
theorem returns {w : WaitIf τ} {pred : Bool} (h : Settled q pcs done) (hpc : pcs t = .waitIf w)
    (hw : w.step t pred q = some (q', none)) : done ∨ pred = false := by
  cases w with
  | fastPath =>
    cases pred with
    | false => exact .inr rfl
    | true => simp [WaitIf.step] at hw
  | queued sp =>
    simp only [WaitIf.step] at hw
    split at hw
    · exact .inl (h.resumed (List.ne_nil_of_mem ‹_›))
    · simp at hw
  | selfResumed sp => exact .inl (h.past t (by rw [hpc]; rfl))
  | lock sp =>
    obtain ⟨q₁, -, he⟩ := Option.map_eq_some_iff.1 hw
    simp at he
  | _ => simp [WaitIf.step] at hw

end Settled

/-- A task gets past its re-check by finding the predicate false. -/
theorem WaitIf.step_past {pred : Bool} {w : WaitIf τ} {r : Option (WaitIf τ)}
    (h : w.step t pred q = some (q', r)) (hp : (r.elim .idle Pc.waitIf).past = true) :
    (Pc.waitIf w).past = true ∨ pred = false := by
  cases w with
  | recheck sp =>
    cases pred with
    | false => exact .inr rfl
    | true =>
      obtain ⟨rfl, rfl⟩ := by simpa [WaitIf.step] using h
      simp [Pc.past] at hp
  | unlockResume sp | resume sp | selfResumed sp => exact .inl rfl
  | lock sp =>
    obtain ⟨q₁, -, he⟩ := Option.map_eq_some_iff.1 h
    obtain ⟨rfl, rfl⟩ := by simpa using he
    simp [Pc.past] at hp
  | queued sp =>
    simp only [WaitIf.step] at h
    split at h
    · obtain ⟨rfl, rfl⟩ := by simpa using h
      simp [Pc.past] at hp
    · simp at h
  | fastPath =>
    obtain ⟨rfl, rfl⟩ := by simpa [WaitIf.step] using h
    cases pred <;> simp [Pc.past] at hp
  | _ =>
    obtain ⟨rfl, rfl⟩ := by simpa [WaitIf.step] using h
    simp [Pc.past] at hp

end WaitQueue
end CoopSync
