/-
# A condition variable over the library's mutex

A condition variable is used with a lock of the user's choice, and the library's own choice
is `std::unique_lock<coopsync_tbb::mutex>` (`tests/condition_variable_test.cpp`).  The lock
of `ConditionVariable.next` is taken and released in one step; here `lock.lock()` and
`lock.unlock()` are calls of `mutex`, with a wait queue of its own, in which a task can be
suspended on its way into `wait` or back out of it.

Seen so that `lock()` takes effect at its exchange and `unlock()` at its store, every run is
one over the atomic lock (`over_mutex_refines`), so that what holds there holds here: the
code under the lock is exclusive, and no notification is lost that is not lost in the gap.
The two queues together come to rest as well (`over_mutex_comes_to_rest`): a step of the
mutex is paid for by the call it is part of, and that call by the step it brings about.
-/

import CoopSync.ConditionVariable.Rest
import CoopSync.Mutex.Atomic

namespace CoopSync
namespace ConditionVariable
namespace OverMutex

open WaitQueue

/-- The mutex, the state under it, and `class condition_variable`. -/
structure Shared (τ υ : Type*) where
  mutex : Mutex.Shared τ
  /-- what the predicates read -/
  state : υ
  /-- `m_waiters` -/
  waiters : Queue τ

/-- A task: where it stands on the mutex, and in the code around it. -/
structure Local (τ υ : Type*) where
  mutex : Mutex.Local τ
  pc : Pc τ υ

variable {τ υ : Type*}

/-- The call of the lock at a place, and the place after it. -/
def lockCall (notify : Notify) : Pc τ υ → Option (Mutex.Act × Pc τ υ)
  | .waitEnter pred | .waitRelock pred => some (.lock, .waitTest pred)
  | .notifyEnter change => some (.lock, .notifyChange change)
  | .waitUnlock pred => some (.unlock, .waitIf pred .fastPath)
  | .waitReturned => some (.unlock, .outside)
  | .notifyUnlock => some (.unlock, notify.enter)
  | _ => none

/-- No call of the mutex is running. -/
def Outside : Mutex.Pc τ → Bool
  | .outside => true
  | _ => false

variable [DecidableEq τ]

/-- One step of one task: in the mutex where the code calls it, and in the code elsewhere. -/
def next (waits : τ → Bool) (notify : Notify) : Next τ (Act υ) (Shared τ υ) (Local τ υ)
  | t, a, s, l =>
    match lockCall notify l.pc, a with
    | none, a =>
      (ConditionVariable.next waits notify t a ⟨none, s.state, s.waiters⟩ l.pc).map fun r =>
        ({ s with state := r.1.state, waiters := r.1.waiters }, { l with pc := r.2 })
    | some (call, after), .step =>
      (Mutex.next t (if Outside l.mutex.pc then call else .step) s.mutex l.mutex).map fun r =>
        ({ s with mutex := r.1 }, ⟨r.2, if Outside r.2.pc then after else l.pc⟩)
    | some _, _ => none

/-- A new mutex and a new condition variable, and every task outside. -/
def start (τ : Type*) {υ : Type*} (state : υ) : Config τ (Shared τ υ) (Local τ υ) :=
  ⟨⟨⟨false, Queue.init τ⟩, state, Queue.init τ⟩, fun _ => ⟨⟨0, .outside⟩, .outside⟩⟩

/-! ### The atomic lock behind the mutex -/

/-- Where a task stands over the atomic lock: an `unlock` is over with its store. -/
def Local.seen (notify : Notify) (l : Local τ υ) : Pc τ υ :=
  match l.mutex.pc with
  | .unlockResume _ => ((lockCall notify l.pc).map Prod.snd).getD l.pc
  | _ => l.pc

/-- The configuration over the atomic lock, which `owner` has. -/
def seen (notify : Notify) (owner : Option τ) (c : Config τ (Shared τ υ) (Local τ υ)) :
    Config τ (ConditionVariable.Shared τ υ) (Pc τ υ) :=
  ⟨⟨owner, c.shared.state, c.shared.waiters⟩, fun t => (c.loc t).seen notify⟩

/-- The gap, from the store in `unlock` to `push_back`, is closed to the notifiers. -/
def GapClosed (notify : Notify) (c : Config τ (Shared τ υ) (Local τ υ)) (t : τ) (a : Act υ) :
    Prop :=
  ConditionVariable.GapClosed (seen notify none c) t a

instance [Fintype τ] (notify : Notify) (c : Config τ (Shared τ υ) (Local τ υ)) (t : τ) (a : Act υ) :
    Decidable (GapClosed notify c t a) :=
  inferInstanceAs (Decidable (ConditionVariable.GapClosed (seen notify none c) t a))

/-- The call that runs on the mutex is the one at the place of the task. -/
def Local.Fits (notify : Notify) (l : Local τ υ) : Prop :=
  match l.mutex.pc with
  | .outside => True
  | .tryLock => False
  | .lockTry | .lockWait _ => ∃ after, lockCall notify l.pc = some (.lock, after)
  | .unlockAssert | .unlockStore | .unlockResume _ =>
    ∃ after, lockCall notify l.pc = some (.unlock, after)

/-- `owner` has the atomic lock behind a configuration. -/
structure Behind (notify : Notify) (c : Config τ (Shared τ υ) (Local τ υ)) (owner : Option τ) :
    Prop where
  /-- The mutex is used as its functions allow, -/
  mutex : Reachable Mutex.next (Mutex.start τ) (c.map Shared.mutex Local.mutex)
  /-- by the calls of the code, -/
  calls : ∀ t, (c.loc t).Fits notify
  /-- and who owns it has the lock. -/
  owner : ∀ t, owner = some t ↔ 0 < (c.loc t).mutex.owner

section Places

variable {waits : τ → Bool} {notify : Notify} {t : τ} {a : Act υ} {s : Shared τ υ} {l : Local τ υ}
  {pc after : Pc τ υ} {call : Mutex.Act}

/-- Where no call of the lock is under way, a step is one of the condition variable. -/
theorem next_of_none (h : lockCall notify l.pc = none) :
    next waits notify t a s l =
      (ConditionVariable.next waits notify t a ⟨none, s.state, s.waiters⟩ l.pc).map fun r =>
        ({ s with state := r.1.state, waiters := r.1.waiters }, { l with pc := r.2 }) := by
  simp [next, h]

/-- Where one is, a step is one of the mutex. -/
theorem next_of_some (h : lockCall notify l.pc = some (call, after)) :
    next waits notify t .step s l =
      (Mutex.next t (if Outside l.mutex.pc then call else .step) s.mutex l.mutex).map fun r =>
        ({ s with mutex := r.1 }, ⟨r.2, if Outside r.2.pc then after else l.pc⟩) := by
  simp [next, h]

/-- A place of the code that does not call the lock does not see who has it. -/
theorem next_owner (h : lockCall notify pc = none) (o : Option τ) (state : υ) (q : Queue τ) :
    ConditionVariable.next waits notify t a ⟨o, state, q⟩ pc =
      (ConditionVariable.next waits notify t a ⟨none, state, q⟩ pc).map fun r =>
        ({ r.1 with owner := o }, r.2) := by
  cases a with
  | notify change => cases pc <;> rfl
  | wait pred =>
    cases pc with
    | outside =>
      simp only [ConditionVariable.next]
      split_ifs <;> rfl
    | _ => rfl
  | step =>
    cases pc with
    | waitEnter | waitRelock | notifyEnter | waitUnlock | waitReturned | notifyUnlock =>
      simp [lockCall] at h
    | waitIf | notifyOne | notifyAll =>
      simp only [ConditionVariable.next, Option.map_map]
      rfl
    | _ => rfl

/-- What the condition variable does when its `lock()` returns. -/
theorem next_lock (h : lockCall notify pc = some (.lock, after))
    {s : ConditionVariable.Shared τ υ} (hs : s.owner = none) :
    ConditionVariable.next waits notify t .step s pc =
      some ({ s with owner := some t }, after) := by
  cases pc <;> simp [lockCall] at h <;> subst h <;>
    simp [ConditionVariable.next, ConditionVariable.Shared.lock, hs]

/-- What it does when its `unlock()` returns. -/
theorem next_unlock (h : lockCall notify pc = some (.unlock, after))
    {s : ConditionVariable.Shared τ υ} :
    ConditionVariable.next waits notify t .step s pc = some ({ s with owner := none }, after) := by
  cases pc <;> simp [lockCall] at h <;> subst h <;> rfl

omit [DecidableEq τ] in
/-- The place after a call is not the place of another. -/
theorem lockCall_after (h : lockCall notify pc = some (call, after)) :
    lockCall notify after = none := by
  cases pc <;> simp [lockCall] at h <;> obtain ⟨-, rfl⟩ := h <;> first | rfl | cases notify <;> rfl

omit [DecidableEq τ] in
/-- It calls the lock with `lock()` or `unlock()`. -/
theorem lockCall_cases (h : lockCall notify pc = some (call, after)) :
    call = .lock ∨ call = .unlock := by
  cases pc <;> simp [lockCall] at h <;> simp [← h.1]

omit [DecidableEq τ] in
/-- Where no lock is called no call of the mutex is running. -/
theorem Local.Fits.outside (h : l.Fits notify) (hp : lockCall notify l.pc = none) :
    l.mutex.pc = .outside := by
  unfold Local.Fits at h
  split at h
  · assumption
  · exact h.elim
  all_goals simp [hp] at h

omit [DecidableEq τ] in
/-- With no call of the mutex under way, a task stands where the condition variable has it. -/
@[simp] theorem Local.seen_of_outside {m : Mutex.Local τ} (h : m.pc = .outside) :
    Local.seen notify ⟨m, pc⟩ = pc := by
  simp [Local.seen, h]

end Places

/-- The steps of a task: of the code, into a call of the mutex, and in the mutex. -/
inductive Step (waits : τ → Bool) (notify : Notify) (t : τ) (s : Shared τ υ) :
    Act υ → Local τ υ → Shared τ υ → Local τ υ → Prop
  | code {a m pc state q pc'} (hm : m.pc = .outside) (hp : lockCall notify pc = none)
      (hn : ∀ o, ConditionVariable.next waits notify t a ⟨o, s.state, s.waiters⟩ pc =
        some (⟨o, state, q⟩, pc')) :
      Step waits notify t s a ⟨m, pc⟩ { s with state := state, waiters := q } ⟨m, pc'⟩
  | callLock {n pc after} (hp : lockCall notify pc = some (.lock, after)) :
      Step waits notify t s .step ⟨⟨n, .outside⟩, pc⟩ s ⟨⟨n, .lockTry⟩, pc⟩
  | callUnlock {n pc after} (hp : lockCall notify pc = some (.unlock, after)) :
      Step waits notify t s .step ⟨⟨n + 1, .outside⟩, pc⟩ s ⟨⟨n, .unlockAssert⟩, pc⟩
  | mutex {m pc call after ms m'} (hm : m.pc ≠ .outside)
      (hp : lockCall notify pc = some (call, after))
      (hn : Mutex.next t .step s.mutex m = some (ms, m')) :
      Step waits notify t s .step ⟨m, pc⟩ { s with mutex := ms }
        ⟨m', if Outside m'.pc then after else pc⟩

omit [DecidableEq τ] in
/-- No call of the mutex is under way outside its code. -/
theorem outside_iff {pc : Mutex.Pc τ} : Outside pc = true ↔ pc = .outside := by
  cases pc <;> simp [Outside]

/-- Every step is one of these. -/
theorem step_of_next {waits : τ → Bool} {notify : Notify} {t : τ} {a : Act υ} {s s' : Shared τ υ}
    {l l' : Local τ υ} (hfit : l.Fits notify) (hn : next waits notify t a s l = some (s', l')) :
    Step waits notify t s a l s' l' := by
  obtain ⟨m, pc⟩ := l
  cases hp : lockCall notify pc with
  | none =>
    have hm := hfit.outside hp
    rw [next_of_none hp] at hn
    obtain ⟨⟨⟨o, state, q⟩, pc'⟩, hcode, he⟩ := Option.map_eq_some_iff.1 hn
    obtain ⟨rfl, rfl⟩ := by simpa using he
    exact .code hm hp fun o' => (next_owner hp ..).trans (by rw [hcode]; rfl)
  | some r =>
    obtain ⟨call, after⟩ := r
    have ha : a = .step := by
      cases a with
      | step => rfl
      | _ => simp [next, hp] at hn
    subst ha
    rw [next_of_some hp] at hn
    obtain ⟨⟨ms, m'⟩, hmutex, he⟩ := Option.map_eq_some_iff.1 hn
    obtain ⟨rfl, rfl⟩ := by simpa using he
    by_cases hm : m.pc = .outside
    · rw [if_pos (outside_iff.2 hm)] at hmutex
      obtain ⟨n, pc₀⟩ := m
      obtain rfl := hm
      rcases lockCall_cases hp with rfl | rfl
      · obtain ⟨rfl, rfl⟩ := by simpa [Mutex.next] using hmutex
        exact .callLock hp
      · cases n with
        | zero => simp [Mutex.next] at hmutex
        | succ n =>
          obtain ⟨rfl, rfl⟩ := by simpa [Mutex.next] using hmutex
          exact .callUnlock hp
    · rw [if_neg (mt outside_iff.1 hm)] at hmutex
      exact .mutex hm hp hmutex

variable {waits : τ → Bool} {notify : Notify} {state : υ} {t : τ} {a : Act υ} {s : Shared τ υ}
  {l : Local τ υ} {c : Config τ (Shared τ υ) (Local τ υ)} {o o' : Option τ}

/-- What is seen after a step of one task. -/
theorem seen_update : seen notify o ⟨s, Function.update c.loc t l⟩ =
    ⟨⟨o, s.state, s.waiters⟩, Function.update (seen notify o c).loc t (l.seen notify)⟩ := by
  simp only [seen, Config.mk.injEq, true_and]
  funext u
  exact Function.apply_update (fun _ => Local.seen notify) c.loc t l u

/-- The mutex after a step of one task. -/
theorem map_update :
    (⟨s, Function.update c.loc t l⟩ : Config τ (Shared τ υ) (Local τ υ)).map Shared.mutex
        Local.mutex =
      ⟨s.mutex, Function.update (c.map Shared.mutex Local.mutex).loc t l.mutex⟩ := by
  simp only [Config.map, Config.mk.injEq, true_and]
  funext u
  exact Function.apply_update (fun _ => Local.mutex) c.loc t l u

namespace Behind

/-- The mutex takes a step. -/
theorem moves (h : Behind notify c o) {b : Mutex.Act}
    (hn : Mutex.next t b c.shared.mutex (c.loc t).mutex = some (s.mutex, l.mutex)) :
    Reachable Mutex.next (Mutex.start τ)
      ((⟨s, Function.update c.loc t l⟩ : Config τ (Shared τ υ) (Local τ υ)).map Shared.mutex
        Local.mutex) :=
  h.mutex.step trivial (Config.step_eq_some.2 ⟨_, _, hn, map_update⟩)

/-- The mutex takes no step. -/
theorem stays (h : Behind notify c o) (hm : s.mutex = c.shared.mutex)
    (hl : l.mutex = (c.loc t).mutex) :
    Reachable Mutex.next (Mutex.start τ)
      ((⟨s, Function.update c.loc t l⟩ : Config τ (Shared τ υ) (Local τ υ)).map Shared.mutex
        Local.mutex) := by
  have hself : Function.update (c.map Shared.mutex Local.mutex).loc t (c.loc t).mutex =
      (c.map Shared.mutex Local.mutex).loc := Function.update_eq_self ..
  rw [map_update, hm, hl, hself]
  exact h.mutex

/-- The task that steps fits afterwards. -/
theorem update (h : Behind notify c o)
    (hm : Reachable Mutex.next (Mutex.start τ)
      ((⟨s, Function.update c.loc t l⟩ : Config τ (Shared τ υ) (Local τ υ)).map Shared.mutex
        Local.mutex))
    (hfit : l.Fits notify)
    (howner : ∀ u, o' = some u ↔ 0 < (Function.update c.loc t l u).mutex.owner) :
    Behind notify ⟨s, Function.update c.loc t l⟩ o' := by
  refine ⟨hm, fun u => ?_, howner⟩
  rcases eq_or_ne u t with rfl | hne
  · simpa using hfit
  · simpa [Function.update_of_ne hne] using h.calls u

/-- A step that keeps the owner. -/
theorem owner_update (h : Behind notify c o) (ho : l.mutex.owner = (c.loc t).mutex.owner) (u : τ) :
    o = some u ↔ 0 < (Function.update c.loc t l u).mutex.owner := by
  rcases eq_or_ne u t with rfl | hne
  · simpa [ho] using h.owner u
  · simpa [Function.update_of_ne hne] using h.owner u

variable [Fintype τ]

/-- The atomic lock is free exactly where the flag of the mutex is not set. -/
theorem free_iff (h : Behind notify c o) : o = none ↔ c.shared.mutex.locked = false := by
  have howned : c.shared.mutex.locked = true ↔ ∃ t, o = some t :=
    (Mutex.locked_iff_owned (Mutex.inv_of_reach h.mutex)).trans
      (exists_congr fun t => (h.owner t).symm)
  rw [← Bool.not_eq_true, howned, Option.eq_none_iff_forall_ne_some, not_exists]

end Behind

variable [Fintype τ]

/-- Every step is one over the atomic lock, or none. -/
theorem behind_step (h : Behind notify c o)
    (hn : next waits notify t a c.shared (c.loc t) = some (s, l)) :
    ∃ o', Behind notify ⟨s, Function.update c.loc t l⟩ o' ∧
      (seen notify o' ⟨s, Function.update c.loc t l⟩ = seen notify o c ∨
        ConditionVariable.next waits notify t a (seen notify o c).shared ((seen notify o c).loc t) =
          some (⟨o', s.state, s.waiters⟩, l.seen notify)) := by
  have hs := step_of_next (h.calls t) hn
  have hfit := h.calls t
  -- a step that the atomic lock does not see
  have hquiet (hm : s.state = c.shared.state ∧ s.waiters = c.shared.waiters)
      (hl : l.seen notify = (c.loc t).seen notify) :
      seen notify o ⟨s, Function.update c.loc t l⟩ = seen notify o c := by
    rw [seen_update, hl, hm.1, hm.2]
    exact congrArg _ (Function.update_eq_self ..)
  have hseen : (seen notify o c).loc t = (c.loc t).seen notify := rfl
  have hupdate := fun hm hfit howner =>
    (h.update hm hfit howner : Behind notify ⟨s, Function.update c.loc t l⟩ o)
  have hstays := fun hm hl => (h.stays hm hl : Reachable Mutex.next (Mutex.start τ)
    ((⟨s, Function.update c.loc t l⟩ : Config τ (Shared τ υ) (Local τ υ)).map Shared.mutex
      Local.mutex))
  have hmoves := fun b hn => (h.moves (b := b) hn : Reachable Mutex.next (Mutex.start τ)
    ((⟨s, Function.update c.loc t l⟩ : Config τ (Shared τ υ) (Local τ υ)).map Shared.mutex
      Local.mutex))
  have hkeeps := fun ho => (h.owner_update (l := l) (t := t) ho)
  rw [hseen]
  generalize hl₀ : c.loc t = l₀ at *
  cases hs with
  | @code a m pc state q pc' hm hp hcode =>
    refine ⟨o, hupdate (hstays rfl rfl) (by simp [Local.Fits, hm]) (hkeeps rfl), .inr ?_⟩
    simpa [seen, hm] using hcode o
  | @callLock n pc after hp =>
    exact ⟨o, hupdate (hmoves .lock rfl) ⟨after, hp⟩ (hkeeps rfl), .inl (hquiet ⟨rfl, rfl⟩ rfl)⟩
  | @callUnlock n pc after hp =>
    exact ⟨o, hupdate (hmoves .unlock rfl) ⟨after, hp⟩ (hkeeps rfl), .inl (hquiet ⟨rfl, rfl⟩ rfl)⟩
  | @mutex m pc call after ms m' hm hp hmutex =>
    have hreach := hmoves .step hmutex
    have hI := Mutex.inv_of_reach hreach
    have hfree := h.free_iff
    cases Mutex.step_of_next hmutex with
    | callLock | callTryLock | callUnlock => exact absurd rfl hm
    | tryLockFails | tryLockWins => exact hfit.elim
    | lockFails => exact ⟨o, hupdate hreach hfit (hkeeps rfl), .inl (hquiet ⟨rfl, rfl⟩ rfl)⟩
    | @lockWins n hs =>
      obtain ⟨after', hp'⟩ := hfit
      obtain ⟨rfl, rfl⟩ := Prod.mk.inj (Option.some.inj (hp.symm.trans hp'))
      refine ⟨some t, h.update hreach trivial fun u => ⟨?_, fun hu => ?_⟩, .inr ?_⟩
      · rintro ⟨⟩
        simp [Mutex.Local.owner]
      · exact congrArg some (Mutex.owns_unique hI (t := t) (u := u)
          (by simp [Mutex.Local.Owns, Mutex.Local.owner]) hu)
      · exact next_lock hp (hfree.2 hs)
    | @wait n w q r hw =>
      cases r <;>
        exact ⟨o, hupdate hreach hfit (hkeeps rfl), .inl (hquiet ⟨rfl, rfl⟩ rfl)⟩
    | unlockAssert => exact ⟨o, hupdate hreach hfit (hkeeps rfl), .inl (hquiet ⟨rfl, rfl⟩ rfl)⟩
    | @unlockStore n =>
      obtain ⟨after', hp'⟩ := hfit
      obtain ⟨rfl, rfl⟩ := Prod.mk.inj (Option.some.inj (hp.symm.trans hp'))
      refine ⟨none, h.update hreach ⟨after, hp⟩ fun u => iff_of_false (by simp) fun hu => ?_,
        .inr ?_⟩
      · simpa using (Mutex.locked_iff_owned hI).2 ⟨u, hu⟩
      · exact (next_unlock hp).trans (by simp [seen, Local.seen, hp, Outside])
    | @resume n r q o hr =>
      cases o with
      | inl r' => exact ⟨_, hupdate hreach hfit (hkeeps rfl), .inl (hquiet ⟨rfl, rfl⟩ rfl)⟩
      | inr b =>
        refine ⟨_, hupdate hreach trivial (hkeeps rfl), .inl (hquiet ⟨rfl, rfl⟩ ?_)⟩
        simp [Local.seen, hp, Outside]

/-- A run over the mutex is one over the atomic lock, under a side condition of both. -/
theorem reach_seen {ok : Config τ (Shared τ υ) (Local τ υ) → τ → Act υ → Prop}
    (ok' : Config τ (ConditionVariable.Shared τ υ) (Pc τ υ) → τ → Act υ → Prop)
    (hok : ∀ c t a o, ok c t a → ok' (seen notify o c) t a)
    (h : Reach (next waits notify) ok (start τ state) c) : ∃ owner, Behind notify c owner ∧
      Reach (ConditionVariable.next waits notify) ok' (ConditionVariable.start τ state)
        (seen notify owner c) := by
  induction h with
  | start =>
    refine ⟨none, ⟨.start, fun t => trivial, fun t => ?_⟩, .start⟩
    simp [start, Mutex.Local.owner]
  | @step c c' t a hr hadm hs ih =>
    obtain ⟨o, hb, hreach⟩ := ih
    obtain ⟨s, l, hn, rfl⟩ := Config.step_eq_some.1 hs
    obtain ⟨o', hb', heq | hn'⟩ := behind_step hb hn
    · exact ⟨o', hb', heq ▸ hreach⟩
    · refine ⟨o', hb', hreach.step (hok c t a o hadm) (Config.step_eq_some.2 ⟨_, _, hn', ?_⟩)⟩
      exact seen_update

/-- **The mutex serves as the lock.**  Every run of waiters and notifiers over a mutex is one
over the atomic lock: `lock()` takes effect at its exchange, `unlock()` at its store, and the
other steps of the mutex are none.  The owner of the mutex has the lock, and only it is in
the code under the lock. -/
theorem over_mutex_refines (h : Reachable (next waits notify) (start τ state) c) : ∃ owner,
    Reachable (ConditionVariable.next waits notify) (ConditionVariable.start τ state)
        (seen notify owner c) ∧
      (∀ t, owner = some t ↔ (c.loc t).mutex.Owns) ∧
      ∀ t, ((c.loc t).seen notify).locks = true ↔ (c.loc t).mutex.Owns := by
  obtain ⟨o, hb, hreach⟩ := reach_seen (fun _ _ _ => True) (fun _ _ _ _ _ => trivial) h
  have hI := inv_of_reach hreach
  have hheld := held_of_reach hreach
  exact ⟨o, hreach, hb.owner,
    fun t => ⟨fun hl => (hb.owner t).1 (hI.locks t hl), fun ho => hheld t ((hb.owner t).2 ho)⟩⟩

/-- Task `0` has the mutex as a notifier, and task `1` is suspended in its queue on the way
into `wait`. -/
def suspendedOutside : List (Fin 2 × Act Bool) :=
  turns [(0, 1, .notify fun _ => true), (0, 2, .step), (1, 1, .wait id), (1, 8, .step)]

/-- The theorem where a task is suspended in the queue of the mutex. -/
theorem over_mutex_refines_suspended :
    ∃ c, (start (Fin 2) false).exec (next (· == 1) .all) suspendedOutside = some c ∧
      c.shared.mutex.waitQueue.waiters = [⟨1, 0⟩] ∧ ∃ owner,
        Reachable (ConditionVariable.next (· == 1) .all) (ConditionVariable.start (Fin 2) false)
            (seen .all owner c) ∧
          (∀ t, owner = some t ↔ (c.loc t).mutex.Owns) ∧
          ∀ t, ((c.loc t).seen .all).locks = true ↔ (c.loc t).mutex.Owns := by
  refine ⟨_, rfl, rfl, ?_⟩
  have hreach : Reachable (next (· == 1) .all) (start (Fin 2) false) _ :=
    reachable_of_exec (l := suspendedOutside) rfl
  exact over_mutex_refines hreach

/-! ### Rest -/

/-- One for a task that has still to call the mutex where it stands. -/
def Local.uncalled (notify : Notify) (l : Local τ υ) : ℕ :=
  if Outside l.mutex.pc ∧ (lockCall notify l.pc).isSome then 1 else 0

/-- What the tasks can do to the condition variable, the calls they are about to make, and
what they can do to the mutex. -/
def measure (notify : Notify) (c : Config τ (Shared τ υ) (Local τ υ)) :
    (ℕ ×ₗ ℕ ×ₗ ℕ) ×ₗ ℕ ×ₗ (ℕ ×ₗ ℕ ×ₗ ℕ) :=
  toLex ((ConditionVariable.budget τ υ).measure (seen notify none c),
    toLex (total (Local.uncalled notify) c.loc,
      (Mutex.budget τ).measure (c.map Shared.mutex Local.mutex)))

/-- Who has the lock costs nothing. -/
theorem measure_seen (o : Option τ) : (ConditionVariable.budget τ υ).measure (seen notify o c) =
    (ConditionVariable.budget τ υ).measure (seen notify none c) := by
  have hrank : (ConditionVariable.budget τ υ).rank (seen notify o c).shared =
      (ConditionVariable.budget τ υ).rank (seen notify none c).shared := by
    funext pc
    cases pc <;> rfl
  simp only [Budget.measure, hrank]
  rfl

/-- **No step is free.** -/
theorem measure_lt (hb : Behind notify c o)
    (hL : Ledger c.shared.waiters fun t => ((c.loc t).seen notify).view)
    (hn : next waits notify t .step c.shared (c.loc t) = some (s, l)) :
    measure notify ⟨s, Function.update c.loc t l⟩ < measure notify c := by
  -- the lock and its calls stand by while the condition variable goes on
  have hcode (o') (hn' : ConditionVariable.next waits notify t .step (seen notify o c).shared
      ((seen notify o c).loc t) = some (⟨o', s.state, s.waiters⟩, l.seen notify)) :
      (ConditionVariable.budget τ υ).measure (seen notify none ⟨s, Function.update c.loc t l⟩) <
        (ConditionVariable.budget τ υ).measure (seen notify none c) := by
    rw [← measure_seen o', ← measure_seen o (c := c), seen_update]
    exact (ConditionVariable.spends (c := seen notify o c) hL hn').lt
  have hle :
      (ConditionVariable.budget τ υ).measure (seen notify none ⟨s, Function.update c.loc t l⟩) ≤
        (ConditionVariable.budget τ υ).measure (seen notify none c) := by
    obtain ⟨o', -, heq | hn'⟩ := behind_step hb hn
    · rw [← measure_seen o', heq, measure_seen]
    · exact (hcode o' hn').le
  have hmutex (hn : Mutex.next t .step c.shared.mutex (c.loc t).mutex = some (s.mutex, l.mutex)) :
      (Mutex.budget τ).measure ((⟨s, Function.update c.loc t l⟩ :
          Config τ (Shared τ υ) (Local τ υ)).map Shared.mutex Local.mutex) <
        (Mutex.budget τ).measure (c.map Shared.mutex Local.mutex) := by
    rw [map_update]
    exact (Mutex.spends (c := c.map Shared.mutex Local.mutex) (Mutex.ledger hb.mutex) hn).lt
  have huncalled := total_update (Local.uncalled notify) c.loc t l
  have hseen : (seen notify o c).loc t = (c.loc t).seen notify := rfl
  have hs := step_of_next (hb.calls t) hn
  simp only [measure, Prod.Lex.toLex_lt_toLex]
  generalize c.loc t = l₀ at *
  cases hs with
  | @code _ m pc state q pc' hm hp hn' =>
    refine .inl (hcode o ?_)
    rw [hseen]
    simpa [seen, hm] using hn' o
  | @callLock n pc after hp | @callUnlock n pc after hp =>
    simp [Local.uncalled, Outside, hp] at huncalled
    rcases hle.lt_or_eq with hlt | heq
    · exact .inl hlt
    · exact .inr ⟨heq, .inl (by omega)⟩
  | @mutex m pc call after ms m' hm hp hn' =>
    have hbefore : Local.uncalled notify ⟨m, pc⟩ = 0 := by
      simp [Local.uncalled, outside_iff, hm]
    have hafter : Local.uncalled notify ⟨m', if Outside m'.pc then after else pc⟩ = 0 := by
      by_cases hout : Outside m'.pc <;> simp [Local.uncalled, hout, lockCall_after hp]
    rcases hle.lt_or_eq with hlt | heq
    · exact .inl hlt
    · exact .inr ⟨heq, .inr ⟨by omega, hmutex hn'⟩⟩

/-- A step of a task inside the code, with the gap closed to the notifiers. -/
def Inside (notify : Notify) (c : Config τ (Shared τ υ) (Local τ υ)) (t : τ) : Act υ → Prop
  | .step => GapClosed notify c t .step
  | _ => False

/-- Nothing is left to do without a new call. -/
structure AtRest (c : Config τ (Shared τ υ) (Local τ υ)) : Prop where
  /-- No task is in a call of the mutex, -/
  outside (t : τ) : (c.loc t).mutex.pc = .outside
  /-- and every task is outside or suspended in `wait` with its predicate false. -/
  everyone (t : τ) : (c.loc t).pc = .outside ∨ ∃ pred sp, (c.loc t).pc = .waitIf pred (.queued sp) ∧
    sp ∈ c.shared.waiters.waiters ∧ sp ∉ c.shared.waiters.resumed ∧ pred c.shared.state = false
  /-- The mutex is free and nobody is in its queue. -/
  free : c.shared.mutex.locked = false ∧ c.shared.mutex.waitQueue.waiters = []
  /-- With every task outside nobody is in the queue of the condition variable either. -/
  empty : (∀ t, (c.loc t).pc = .outside) → c.shared.waiters.waiters = []

omit [Fintype τ] in
/-- A task that owns the mutex, and no call of the mutex running, can go on. -/
theorem next_ne_none (hm : (c.loc t).mutex.pc = .outside) (howns : (c.loc t).mutex.Owns)
    (hlocks : ((c.loc t).seen notify).locks = true) :
    next waits notify t .step c.shared (c.loc t) ≠ none := by
  generalize c.loc t = l at *
  obtain ⟨⟨n, pc₀⟩, pc⟩ := l
  obtain rfl := hm
  obtain ⟨n, rfl⟩ := Nat.exists_eq_succ_of_ne_zero (Nat.pos_iff_ne_zero.1 howns)
  cases pc with
  | waitTest | notifyChange => simp [next, lockCall, ConditionVariable.next]
  | waitUnlock | waitReturned | notifyUnlock => simp [next, lockCall, Outside, Mutex.next]
  | _ => simp [Local.seen, Pc.locks] at hlocks

/-- Where nobody can step, the composed system is at rest. -/
theorem atRest (hb : Behind notify c o)
    (hI : ConditionVariable.Inv waits notify (seen notify o c)) (hheld : Held (seen notify o c))
    (hL : Ledger c.shared.waiters fun t => ((c.loc t).seen notify).view)
    (hheard : Heard (seen notify o c))
    (hrest : ∀ t, next waits notify t .step c.shared (c.loc t) = none) : AtRest c := by
  have hmutex : Mutex.AtRest (c.map Shared.mutex Local.mutex) := by
    refine Mutex.atRest (Mutex.ledger hb.mutex) (Mutex.inv_of_reach hb.mutex) fun t a ha => ?_
    subst ha
    refine Option.map_eq_none_iff.2 ?_
    have hfit := hb.calls t
    have hn := hrest t
    show Mutex.next t .step c.shared.mutex (c.loc t).mutex = none
    generalize c.loc t = l at hfit hn
    cases hp : lockCall notify l.pc with
    | none =>
      have hm := hfit.outside hp
      obtain ⟨⟨n, pc₀⟩, pc⟩ := l
      obtain rfl := hm
      rfl
    | some r =>
      rw [next_of_some hp, Option.map_eq_none_iff] at hn
      by_cases hm : l.mutex.pc = .outside
      · obtain ⟨⟨n, pc₀⟩, pc⟩ := l
        obtain rfl := hm
        rfl
      · rwa [if_neg (mt outside_iff.1 hm)] at hn
  -- who owns the mutex goes on with the code under it
  have hout (t : τ) : (c.loc t).mutex.pc = .outside := by
    by_contra hne
    obtain ⟨u, hu⟩ := hmutex.held t hne
    have hlocks : ((c.loc u).seen notify).locks = true := hheld u ((hb.owner u).2 hu)
    rcases hmutex.everyone u with ho | ⟨sp, hw, -⟩
    · exact next_ne_none ho hu hlocks (hrest u)
    · have hfit := hb.calls u
      simp only [Config.map_loc] at hw
      simp only [Local.Fits, hw] at hfit
      obtain ⟨after, hp⟩ := hfit
      simp only [Local.seen, hw] at hlocks
      generalize (c.loc u).pc = pc at hp hlocks
      cases pc <;> simp [lockCall, Pc.locks] at hp hlocks
  have hseen (t : τ) : (c.loc t).seen notify = (c.loc t).pc := Local.seen_of_outside (hout t)
  have hnone (t : τ) : ConditionVariable.next waits notify t .step (seen notify o c).shared
      ((seen notify o c).loc t) = none := by
    have hn := hrest t
    cases hp : lockCall notify (c.loc t).pc with
    | none =>
      rw [next_of_none hp, Option.map_eq_none_iff] at hn
      show ConditionVariable.next waits notify t .step ⟨o, _, _⟩ ((c.loc t).seen notify) = none
      rw [hseen, next_owner hp, hn]
      rfl
    | some r =>
      obtain ⟨call, after⟩ := r
      rcases lockCall_cases hp with rfl | rfl
      · rw [next_of_some hp, Option.map_eq_none_iff, if_pos (outside_iff.2 (hout t))] at hn
        have hm := hout t
        generalize (c.loc t).mutex = m at hn hm
        obtain ⟨n, pc₀⟩ := m
        obtain rfl := hm
        simp [Mutex.next] at hn
      · have hlocks : ((c.loc t).seen notify).locks = true := by
          rw [hseen]
          generalize (c.loc t).pc = pc at hp
          cases pc <;> simp [lockCall] at hp <;> rfl
        exact absurd hn (next_ne_none (hout t) ((hb.owner t).1 (hI.locks t hlocks)) hlocks)
  have hat := ConditionVariable.atRest hL hheld hheard hnone
  refine ⟨hout, fun t => ?_, ⟨hb.free_iff.1 hat.free, hmutex.empty hout⟩, fun hall => ?_⟩
  · rw [← hseen]
    exact hat.everyone t
  · exact hat.empty fun t => (hseen t).trans (hall t)

/-- **Waiters and notifiers over a mutex come to rest.**  Let the notifiers call
`notify_all`, or let one task wait.  From every configuration of a run with the gap closed,
the steps of the tasks inside with the gap closed, in whatever order, end: neither the
mutex nor the condition variable keeps them busy for ever.  Where they end a notifier is
about to take the list while a waiter whose predicate is true is in the gap, or the mutex is
free with nobody in its queue, and every task is outside or suspended in the queue of the
condition variable with its predicate false. -/
theorem over_mutex_comes_to_rest
    (hone : notify = .all ∨ ∀ t u, waits t = true → waits u = true → t = u)
    (h : Reach (next waits notify) (GapClosed notify) (start τ state) c) :
    ComesToRest (next waits notify) (Inside notify)
      (fun c => AtRest c ∨ ∃ t, ¬GapClosed notify c t .step) c := by
  have hreach {c} (h : Reach (next waits notify) (GapClosed notify) (start τ state) c) :=
    reach_seen ConditionVariable.GapClosed (fun _ _ _ _ hok => hok) h
  refine h.comesToRest (measure notify) (fun c t a ha => ?_) (fun c t a s l hr ha hn => ?_)
    fun c hr hrest => ?_
  · cases a with
    | step => exact ha
    | _ => exact ha.elim
  · obtain ⟨o, hb, hcv⟩ := hreach hr
    cases a with
    | step => exact measure_lt hb (ledger hcv) hn
    | _ => exact ha.elim
  · obtain ⟨o, hb, hcv⟩ := hreach hr
    by_cases hgap : ∃ t, ¬GapClosed notify c t .step
    · exact .inr hgap
    · push Not at hgap
      exact .inl (atRest hb (inv_of_reach hcv) (held_of_reach hcv) (ledger hcv)
        (heard_of_reach hone hcv) fun t => Option.map_eq_none_iff.1 (hrest t .step (hgap t)))

/-- The theorem where the notifier has changed the state and the waiter is suspended in the
queue of the mutex. -/
theorem over_mutex_comes_to_rest_suspended :
    ∃ c, (start (Fin 2) false).exec (next (· == 1) .all) (suspendedOutside ++ [(0, .step)]) =
        some c ∧ c.shared.mutex.waitQueue.waiters = [⟨1, 0⟩] ∧
      ComesToRest (next (· == 1) .all) (Inside .all)
        (fun c => AtRest c ∨ ∃ t, ¬GapClosed .all c t .step) c := by
  have hreach : Reach (next (· == 1) .all) (GapClosed .all) (start (Fin 2) false) _ :=
    reach_of_exec (l := suspendedOutside ++ [(0, .step)]) rfl (by decide)
  refine ⟨_, rfl, rfl, ?_⟩
  exact over_mutex_comes_to_rest (.inl rfl) hreach

end OverMutex
end ConditionVariable
end CoopSync
