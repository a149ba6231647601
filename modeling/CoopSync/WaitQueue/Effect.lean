/-
# What the code of a wait queue does to suspensions

The program points of `WaitQueue.Model` carry more than a proof about waiters
needs.  Here a task holds the spin lock or not, it is at some stage of a call of
`wait_if`, and it holds in its hands the waiters it took off the list and has not
resumed yet (`View`).  A step of the code moves at most one thing (`Effect`): the
lock, a suspension from its callback to the list, waiters from the list into a
pair of hands, one waiter out of the hands to `tbb::task::resume`.

Every step of `WaitQueue.next` is such an effect (`effect_of_next`).
-/

import CoopSync.WaitQueue.Model

namespace CoopSync
namespace WaitQueue

/-- How far a task has come in a call of `wait_if`. -/
inductive Stage (τ : Type*)
  /-- not suspended -/
  | out
  /-- suspended, the callback has neither pushed nor resumed -/
  | callback (sp : SuspendPoint τ)
  /-- pushed by the callback, not continued -/
  | pushed (sp : SuspendPoint τ)
  /-- resumed by the callback, not continued -/
  | selfResumed (sp : SuspendPoint τ)
deriving DecidableEq

/-- The suspension a task is in. -/
def Stage.suspendPoint {τ : Type*} : Stage τ → Option (SuspendPoint τ)
  | .out => none
  | .callback sp | .pushed sp | .selfResumed sp => some sp

/-- What the ledger sees of a task. -/
structure View (τ : Type*) where
  /-- inside `m_waiters_mutex` -/
  critical : Bool
  stage : Stage τ
  /-- waiters taken off the list and not resumed yet, in order -/
  hands : List (SuspendPoint τ)

variable {τ : Type*}

/-- The view of a task outside the code. -/
def View.idle : View τ := ⟨false, .out, []⟩

/-- One for a task that has been pushed and has not continued. -/
def View.pushed (v : View τ) : ℕ :=
  match v.stage with
  | .pushed _ => 1
  | _ => 0

/-- Who is idle has pushed nothing. -/
@[simp] theorem View.idle_pushed : (View.idle : View τ).pushed = 0 := rfl

/-- A task counts as pushed when its suspend point is. -/
theorem View.pushed_pos {v : View τ} : 0 < v.pushed ↔ ∃ sp, v.stage = .pushed sp := by
  cases hs : v.stage <;> simp [View.pushed, hs]

def WaitIf.view : WaitIf τ → View τ
  | .fastPath | .suspend => ⟨false, .out, []⟩
  | .lock sp => ⟨false, .callback sp, []⟩
  | .recheck sp | .pushBack sp | .unlockResume sp => ⟨true, .callback sp, []⟩
  | .unlockQueued sp => ⟨true, .pushed sp, []⟩
  | .resume sp => ⟨false, .callback sp, []⟩
  | .queued sp => ⟨false, .pushed sp, []⟩
  | .selfResumed sp => ⟨false, .selfResumed sp, []⟩

def ResumeOne.view : ResumeOne τ → View τ
  | .lock => ⟨false, .out, []⟩
  | .popFront => ⟨true, .out, []⟩
  | .unlock waiter => ⟨true, .out, waiter.toList⟩
  | .resume waiter => ⟨false, .out, [waiter]⟩

def DoResumeAll.view : DoResumeAll τ → View τ
  | .popFront l => ⟨false, .out, l⟩
  | .resume waiter rest => ⟨false, .out, waiter :: rest⟩

def ResumeAll.view : ResumeAll τ → View τ
  | .lock => ⟨false, .out, []⟩
  | .swap => ⟨true, .out, []⟩
  | .unlock l => ⟨true, .out, l⟩
  | .doResumeAll d => d.view

def ResumeN.view : ResumeN τ → View τ
  | .enter _ | .lock _ => ⟨false, .out, []⟩
  | .loop _ _ l | .unlock _ l => ⟨true, .out, l⟩
  | .doResumeAll _ d => d.view

def Empty.view : Empty → View τ
  | .lock => ⟨false, .out, []⟩
  | .read | .unlock _ => ⟨true, .out, []⟩

/-- Who is outside `wait_if` has pushed nothing. -/
theorem View.pushed_of_out {v : View τ} (h : v.stage = .out) : v.pushed = 0 := by
  simp [View.pushed, h]

/-- Resumers are not suspended. -/
@[simp] theorem ResumeOne.view_stage (r : ResumeOne τ) : r.view.stage = .out := by
  cases r <;> rfl

@[simp] theorem DoResumeAll.view_stage (d : DoResumeAll τ) : d.view.stage = .out := by
  cases d <;> rfl

@[simp] theorem ResumeAll.view_stage (r : ResumeAll τ) : r.view.stage = .out := by
  cases r with
  | doResumeAll d => exact d.view_stage
  | _ => rfl

@[simp] theorem ResumeN.view_stage (r : ResumeN τ) : r.view.stage = .out := by
  cases r with
  | doResumeAll k d => exact d.view_stage
  | _ => rfl

/-- Who is in `resume_one` has pushed nothing. -/
@[simp] theorem ResumeOne.view_pushed (r : ResumeOne τ) : r.view.pushed = 0 :=
  View.pushed_of_out r.view_stage

@[simp] theorem ResumeN.view_pushed (r : ResumeN τ) : r.view.pushed = 0 :=
  View.pushed_of_out r.view_stage

/-- What the ledger sees of a program point. -/
def Pc.view : Pc τ → View τ
  | .idle => ⟨false, .out, []⟩
  | .waitIf w => w.view
  | .resumeOne r => r.view
  | .resumeAll r => r.view
  | .resumeN r => r.view
  | .empty e => e.view

variable [DecidableEq τ]

/-- A pushed task that has been resumed and has not continued. -/
def View.wokenIn (q : Queue τ) (v : View τ) : Bool :=
  match v.stage with
  | .pushed sp => sp ∈ q.resumed
  | _ => false

/-- A pushed task that is in the list. -/
def View.waitingIn (q : Queue τ) (v : View τ) : Bool :=
  match v.stage with
  | .pushed sp => sp ∈ q.waiters
  | _ => false

/-- A task waits in the list when what it has pushed is still there. -/
theorem View.waitingIn_iff {q : Queue τ} {v : View τ} :
    v.waitingIn q = true ↔ ∃ sp, v.stage = .pushed sp ∧ sp ∈ q.waiters := by
  cases hs : v.stage <;> simp [View.waitingIn, hs]

/-- What one step of task `t` can do to the queue and to the task's view. -/
inductive Effect (t : τ) : Queue τ → View τ → Queue τ → View τ → Prop
  /-- nothing the ledger sees -/
  | stay {q v} : Effect t q v q v
  /-- the lock is taken -/
  | acquire {q s h} (free : q.waitersMutex = none) :
      Effect t q ⟨false, s, h⟩ { q with waitersMutex := some t } ⟨true, s, h⟩
  /-- the lock is released -/
  | release {q s h} : Effect t q ⟨true, s, h⟩ q.release ⟨false, s, h⟩
  /-- the task is suspended and its callback starts -/
  | suspend {q b h} :
      Effect t q ⟨b, .out, h⟩ { q with suspends := Function.update q.suspends t (q.suspends t + 1) }
        ⟨b, .callback ⟨t, q.suspends t⟩, h⟩
  /-- the callback queues the task -/
  | push {q h sp} :
      Effect t q ⟨true, .callback sp, h⟩ { q with waiters := q.waiters ++ [sp] }
        ⟨true, .pushed sp, h⟩
  /-- the first `k` waiters go from the list into the task's hands -/
  | take {q s h} (k : ℕ) :
      Effect t q ⟨true, s, h⟩ { q with waiters := q.waiters.drop k }
        ⟨true, s, h ++ q.waiters.take k⟩
  /-- a waiter in the task's hands is resumed -/
  | resume {q s h sp} : Effect t q ⟨false, s, sp :: h⟩ (q.resume sp) ⟨false, s, h⟩
  /-- the callback resumes its own task -/
  | resumeSelf {q h sp} :
      Effect t q ⟨false, .callback sp, h⟩ (q.resume sp) ⟨false, .selfResumed sp, h⟩
  /-- the task continues after its suspend point was resumed -/
  | continue {q s h sp} (hs : s = .pushed sp ∨ s = .selfResumed sp) (hr : sp ∈ q.resumed) :
      Effect t q ⟨false, s, h⟩ q ⟨false, .out, h⟩

/-- Taking the queue's lock is the first of the effects. -/
theorem Effect.of_acquire {t : τ} {q q' : Queue τ} {s : Stage τ} {h : List (SuspendPoint τ)}
    (ha : q.acquire t = some q') : Effect t q ⟨false, s, h⟩ q' ⟨true, s, h⟩ := by
  unfold Queue.acquire at ha
  split at ha
  · obtain rfl := Option.some.inj ha
    exact .acquire ‹_›
  · simp at ha

/-- A step of `wait_if` has one of the effects. -/
theorem WaitIf.effect {t : τ} {pred : Bool} {q q' : Queue τ} {w : WaitIf τ}
    {r : Option (WaitIf τ)} (h : w.step t pred q = some (q', r)) :
    Effect t q w.view q' (r.elim View.idle WaitIf.view) := by
  cases w with
  | fastPath =>
    obtain ⟨rfl, rfl⟩ := by simpa [WaitIf.step] using h
    cases pred <;> exact .stay
  | suspend =>
    obtain ⟨rfl, rfl⟩ := by simpa [WaitIf.step] using h
    exact .suspend
  | lock sp =>
    obtain ⟨q₁, hq, he⟩ := Option.map_eq_some_iff.1 h
    obtain ⟨rfl, rfl⟩ := by simpa using he
    exact .of_acquire hq
  | recheck sp =>
    obtain ⟨rfl, rfl⟩ := by simpa [WaitIf.step] using h
    cases pred <;> exact .stay
  | pushBack sp =>
    obtain ⟨rfl, rfl⟩ := by simpa [WaitIf.step] using h
    exact .push
  | unlockQueued sp =>
    obtain ⟨rfl, rfl⟩ := by simpa [WaitIf.step] using h
    exact .release
  | unlockResume sp =>
    obtain ⟨rfl, rfl⟩ := by simpa [WaitIf.step] using h
    exact .release
  | resume sp =>
    obtain ⟨rfl, rfl⟩ := by simpa [WaitIf.step] using h
    exact .resumeSelf
  | queued sp =>
    simp only [WaitIf.step] at h
    split at h
    · obtain ⟨rfl, rfl⟩ := by simpa using h
      exact .continue (.inl rfl) ‹_›
    · simp at h
  | selfResumed sp =>
    simp only [WaitIf.step] at h
    split at h
    · obtain ⟨rfl, rfl⟩ := by simpa using h
      exact .continue (.inr rfl) ‹_›
    · simp at h

/-- So has a step of `resume_one`. -/
theorem ResumeOne.effect {t : τ} {q q' : Queue τ} {r : ResumeOne τ} {o : ResumeOne τ ⊕ Bool}
    (h : r.step t q = some (q', o)) :
    Effect t q r.view q' (o.elim ResumeOne.view fun _ => View.idle) := by
  cases r with
  | lock =>
    obtain ⟨q₁, hq, he⟩ := Option.map_eq_some_iff.1 h
    obtain ⟨rfl, rfl⟩ := by simpa using he
    exact .of_acquire hq
  | popFront =>
    obtain ⟨rfl, rfl⟩ := by simpa [ResumeOne.step] using h
    have := Effect.take (t := t) (q := q) (s := .out) (h := []) 1
    cases hw : q.waiters <;> simpa [hw, ResumeOne.view] using this
  | unlock waiter =>
    cases waiter <;>
    · obtain ⟨rfl, rfl⟩ := by simpa [ResumeOne.step] using h
      exact .release
  | resume waiter =>
    obtain ⟨rfl, rfl⟩ := by simpa [ResumeOne.step] using h
    exact .resume

/-- So has a step of the loop that resumes a local list. -/
theorem DoResumeAll.effect {t : τ} (q : Queue τ) (d : DoResumeAll τ) :
    Effect t q d.view (d.step q).1 ((d.step q).2.elim View.idle DoResumeAll.view) := by
  cases d with
  | popFront l => cases l <;> exact .stay
  | resume waiter rest => exact .resume

/-- So has a step of `resume_all`. -/
theorem ResumeAll.effect {t : τ} {q q' : Queue τ} {r : ResumeAll τ} {o : Option (ResumeAll τ)}
    (h : r.step t q = some (q', o)) : Effect t q r.view q' (o.elim View.idle ResumeAll.view) := by
  cases r with
  | lock =>
    obtain ⟨q₁, hq, he⟩ := Option.map_eq_some_iff.1 h
    obtain ⟨rfl, rfl⟩ := by simpa using he
    exact .of_acquire hq
  | swap =>
    obtain ⟨rfl, rfl⟩ := by simpa [ResumeAll.step] using h
    simpa [ResumeAll.view] using
      Effect.take (t := t) (q := q) (s := .out) (h := []) q.waiters.length
  | unlock l =>
    obtain ⟨rfl, rfl⟩ := by simpa [ResumeAll.step] using h
    exact .release
  | doResumeAll d =>
    obtain ⟨rfl, rfl⟩ := by simpa [ResumeAll.step] using h
    have := d.effect (t := t) q
    cases hd : (d.step q).2 <;> simpa [hd, ResumeAll.view] using this

/-- So has a step of `resume_n`. -/
theorem ResumeN.effect {t : τ} {q q' : Queue τ} {r : ResumeN τ} {o : ResumeN τ ⊕ ℕ}
    (h : r.step t q = some (q', o)) :
    Effect t q r.view q' (o.elim ResumeN.view fun _ => View.idle) := by
  cases r with
  | enter n =>
    obtain ⟨rfl, rfl⟩ := by simpa [ResumeN.step] using h
    split_ifs <;> exact .stay
  | lock n =>
    obtain ⟨q₁, hq, he⟩ := Option.map_eq_some_iff.1 h
    obtain ⟨rfl, rfl⟩ := by simpa using he
    exact .of_acquire hq
  | loop n resumed l =>
    simp only [ResumeN.step] at h
    split at h
    · split at h
      · obtain ⟨rfl, rfl⟩ := by simpa using h
        exact .stay
      · rename_i waiter rest hw
        obtain ⟨rfl, rfl⟩ := by simpa using h
        simpa [hw, ResumeN.view] using Effect.take (t := t) (q := q) (s := .out) (h := l) 1
    · obtain ⟨rfl, rfl⟩ := by simpa using h
      exact .stay
  | unlock resumed l =>
    obtain ⟨rfl, rfl⟩ := by simpa [ResumeN.step] using h
    exact .release
  | doResumeAll resumed d =>
    obtain ⟨rfl, rfl⟩ := by simpa [ResumeN.step] using h
    have := d.effect (t := t) q
    cases hd : (d.step q).2 <;> simpa [hd, ResumeN.view] using this

/-- So has a step of `empty`. -/
theorem Empty.effect {t : τ} {q q' : Queue τ} {e : Empty} {o : Empty ⊕ Bool}
    (h : e.step t q = some (q', o)) :
    Effect t q e.view q' (o.elim Empty.view fun _ => View.idle) := by
  cases e with
  | lock =>
    obtain ⟨q₁, hq, he⟩ := Option.map_eq_some_iff.1 h
    obtain ⟨rfl, rfl⟩ := by simpa using he
    exact .of_acquire hq
  | read =>
    obtain ⟨rfl, rfl⟩ := by simpa [Empty.step] using h
    exact .stay
  | unlock result =>
    obtain ⟨rfl, rfl⟩ := by simpa [Empty.step] using h
    exact .release

/-- **Every step of the code of the queue is an effect on the ledger.** -/
theorem effect_of_next {t : τ} {a : Act} {q q' : Queue τ} {pc pc' : Pc τ}
    (h : next t a q pc = some (q', pc')) : Effect t q pc.view q' pc'.view := by
  cases a with
  | call op =>
    cases pc with
    | idle =>
      obtain ⟨rfl, rfl⟩ := by simpa [next] using h
      cases op <;> exact .stay
    | _ => simp [next] at h
  | step pred =>
    cases pc with
    | idle => simp [next] at h
    | waitIf w =>
      obtain ⟨⟨q₁, r⟩, hr, he⟩ := Option.map_eq_some_iff.1 h
      obtain ⟨rfl, rfl⟩ := by simpa using he
      cases r <;> exact w.effect hr
    | resumeOne r =>
      obtain ⟨⟨q₁, o⟩, hr, he⟩ := Option.map_eq_some_iff.1 h
      obtain ⟨rfl, rfl⟩ := by simpa using he
      cases o <;> exact r.effect hr
    | resumeAll r =>
      obtain ⟨⟨q₁, o⟩, hr, he⟩ := Option.map_eq_some_iff.1 h
      obtain ⟨rfl, rfl⟩ := by simpa using he
      cases o <;> exact r.effect hr
    | resumeN r =>
      obtain ⟨⟨q₁, o⟩, hr, he⟩ := Option.map_eq_some_iff.1 h
      obtain ⟨rfl, rfl⟩ := by simpa using he
      cases o <;> exact r.effect hr
    | empty e =>
      obtain ⟨⟨q₁, o⟩, hr, he⟩ := Option.map_eq_some_iff.1 h
      obtain ⟨rfl, rfl⟩ := by simpa using he
      cases o <;> exact e.effect hr

/-- A waiter in the list after a step was there before it, or its callback pushed
it. -/
theorem Effect.mem_waiters {t : τ} {q q' : Queue τ} {v v' : View τ} {sp : SuspendPoint τ}
    (e : Effect t q v q' v') (h : sp ∈ q'.waiters) :
    sp ∈ q.waiters ∨ v.stage = .callback sp ∧ v'.stage = .pushed sp := by
  cases e with
  | push =>
    rcases List.mem_append.1 h with hw | hw
    · exact .inl hw
    · obtain rfl := List.mem_singleton.1 hw
      exact .inr ⟨rfl, rfl⟩
  | take k => exact .inl (List.mem_of_mem_drop h)
  | _ => exact .inl h

/-- A waiter after a step was a waiter before it, or its callback pushed it. -/
theorem Effect.placed {t : τ} {q q' : Queue τ} {v v' : View τ} {sp : SuspendPoint τ}
    (e : Effect t q v q' v') (h : sp ∈ q'.waiters ∨ sp ∈ v'.hands) :
    sp ∈ q.waiters ∨ sp ∈ v.hands ∨ v.stage = .callback sp ∧ v'.stage = .pushed sp := by
  rcases h with hw | hh
  · exact (e.mem_waiters hw).imp id .inr
  cases e with
  | take k =>
    rcases List.mem_append.1 hh with hh | hh
    exacts [.inr (.inl hh), .inl (List.mem_of_mem_take hh)]
  | resume => exact .inr (.inl (List.mem_cons_of_mem _ hh))
  | _ => exact .inr (.inl hh)

/-- A task that has been pushed goes on only after it was resumed. -/
theorem Effect.stage_pushed {t : τ} {q q' : Queue τ} {v v' : View τ} {sp : SuspendPoint τ}
    (e : Effect t q v q' v') (h : v.stage = .pushed sp) : v'.stage = .pushed sp ∨ sp ∈ q.resumed := by
  cases e with
  | «continue» hs hr =>
    obtain rfl : _ = Stage.pushed sp := h
    simp only [Stage.pushed.injEq, reduceCtorEq, or_false] at hs
    exact .inr (hs ▸ hr)
  | suspend | push | resumeSelf => simp at h
  | _ => exact .inl h

/-- A suspension with its callback after a step was with it before, or is new. -/
theorem Effect.callback {t : τ} {q q' : Queue τ} {v v' : View τ} {sp : SuspendPoint τ}
    (e : Effect t q v q' v') (h : v'.stage = .callback sp) :
    v.stage = .callback sp ∨ sp = ⟨t, q.suspends t⟩ := by
  cases e with
  | suspend => exact .inr (Stage.callback.inj h).symm
  | push | resumeSelf | «continue» => simp at h
  | _ => exact .inl h

/-- Suspensions are never unmade. -/
theorem Effect.suspends_le {t : τ} {q q' : Queue τ} {v v' : View τ} (e : Effect t q v q' v')
    (u : τ) : q.suspends u ≤ q'.suspends u := by
  cases e with
  | suspend =>
    rcases eq_or_ne u t with rfl | hne
    · simp
    · simp [Function.update_of_ne hne]
  | _ => exact Nat.le_refl _

/-- What was resumed stays so. -/
theorem Effect.resumed_le {t : τ} {q q' : Queue τ} {v v' : View τ} (e : Effect t q v q' v')
    (sp : SuspendPoint τ) : q.resumed.count sp ≤ q'.resumed.count sp := by
  cases e with
  | resume | resumeSelf => exact List.count_le_count_cons
  | _ => exact Nat.le_refl _

end WaitQueue
end CoopSync
