/-
# A shared state and those who wait on it

`Future.Model` lets a shared state be used through one `future` or through copies of a
`shared_future`.  Here it is used by any number of tasks at once, through whatever handles
they have: a task calls `set_value`, `set_exception` or `break_promise`, obtains the
future, or calls `wait`, alone or at the beginning of a `get`, which may take the value
once `wait` has returned (`User.next`).  The runs of `Future.Model`, seen on the shared
state, are runs of this machine (`users_of_reach`).

`wait` gives up waiting exactly when the status becomes final: nobody is resumed before
(`Users.settled`), and who is in the queue then is about to be resumed
(`Users.attended`), by the one call that found the status empty (`Users.writing`).
-/

import CoopSync.Future.Setters
import CoopSync.WaitQueue.Release

namespace CoopSync
namespace Future

open WaitQueue

variable {τ ν σ ε : Type*}

/-! ### The machine -/

/-- Where a task stands. -/
inductive User (τ ν ε : Type*)
  | idle
  | setter (s : Setter τ ν ε)
  /-- `waiters.wait_if(...)` in `wait` -/
  | waiter (w : WaitIf τ)
  /-- `assert(ready())` in `wait`, and what a `get` reads after it -/
  | assertReady
deriving DecidableEq, Repr

/-- The scheduler's choice. -/
inductive UserAct (ν ε : Type*)
  | set (call : Call ν ε)
  | getFuture
  | wait
  | step (thrown : Option ε)
  /-- a `get` takes the value -/
  | take
deriving DecidableEq, Repr

variable [DecidableEq τ]

/-- One step of one task on the shared state. -/
def User.next (V : Variant ν σ) : Next τ (UserAct ν ε) (SharedState τ σ ε) (User τ ν ε)
  | _, .set call, s, .idle => some (s, .setter (.exchange call))
  | _, .getFuture, s, .idle =>
    match s.markFutureObtained with
    | .ok s => some (s, .idle)
    | .error _ => some (s, .idle)
  | _, .wait, s, .idle => some (s, .waiter .fastPath)
  | t, .step thrown, s, .setter w =>
    (w.step V t thrown s).map fun r => (r.1, r.2.1.elim .idle .setter)
  | t, .step _, s, .waiter w =>
    (w.stepWith notReady t s s.waiters).map fun r =>
      ({ s with waiters := r.2.1 }, r.2.2.elim .assertReady .waiter)
  | _, .step _, s, .assertReady => some (s, .idle)
  | _, .take, s, .assertReady => some ({ s with value := V.take s.value }, .idle)
  | _, _, _, _ => none

/-- A new shared state, and every task outside the code. -/
def User.start (V : Variant ν σ) (τ ε : Type*) : Config τ (SharedState τ σ ε) (User τ ν ε) :=
  ⟨⟨Queue.init τ, .empty, false, V.init, none⟩, fun _ => .idle⟩

/-! ### The futures of `Future.Model` -/

/-- A task of `Future.Model` as a user of the shared state. -/
def Local.user : Local τ ν ε → User τ ν ε
  | .idle => .idle
  | .setter s => .setter s
  | .getter _ (.wait w) => .waiter w
  | .getter _ _ => .assertReady

/-- **A future is a use of the shared state.**  Every run of `Future.Model`, seen on the
shared state, is a run of its users. -/
theorem users_of_reach {V : Variant ν σ}
    {ok : Config τ (World τ ν σ ε) (Local τ ν ε) → τ → Act ν ε → Prop}
    {c : Config τ (World τ ν σ ε) (Local τ ν ε)} (h : Reach (next V) ok (start V τ ε) c) :
    Reachable (User.next V) (User.start V τ ε) (c.map World.state Local.user) := by
  refine h.map World.state Local.user fun t a w l w' l' hn => ?_
  cases a with
  | call op =>
    cases l with
    | idle =>
      cases op with
      | set call =>
        obtain ⟨rfl, rfl⟩ := by simpa [next, Op.enter] using hn
        exact .inr ⟨.set call, rfl⟩
      | getFuture =>
        simp only [next, Op.enter] at hn
        split at hn <;>
        · rename_i hm
          obtain ⟨rfl, rfl⟩ := by simpa using hn
          exact .inr ⟨.getFuture, by simp [User.next, Local.user, hm]⟩
      | share =>
        obtain ⟨-, rfl, rfl⟩ := by simpa [next, Op.enter] using hn
        exact .inl ⟨rfl, rfl⟩
      | get kind =>
        cases kind <;>
        · obtain ⟨-, rfl, rfl⟩ := by simpa [next, Op.enter] using hn
          exact .inr ⟨.wait, rfl⟩
    | _ => simp [next] at hn
  | step thrown =>
    cases l with
    | idle => simp [next] at hn
    | setter s =>
      obtain ⟨⟨s', o, e⟩, hs, he⟩ := Option.map_eq_some_iff.1 hn
      obtain ⟨rfl, rfl⟩ := by simpa using he
      refine .inr ⟨.step thrown, ?_⟩
      cases o <;> simp [User.next, Local.user, hs]
    | getter kind g =>
      obtain ⟨⟨w₁, o⟩, hg, he⟩ := Option.map_eq_some_iff.1 hn
      obtain ⟨rfl, rfl⟩ := by simpa using he
      cases g with
      | wait p =>
        obtain ⟨⟨s, q, r⟩, hs, he⟩ := Option.map_eq_some_iff.1 hg
        obtain ⟨rfl, rfl⟩ := by simpa using he
        refine .inr ⟨.step thrown, ?_⟩
        cases r <;> simp [User.next, Local.user, hs]
      | loadState =>
        simp only [Get.step] at hg
        split at hg <;> obtain ⟨rfl, rfl⟩ := by simpa using hg
        · exact .inl ⟨rfl, rfl⟩
        · exact .inr ⟨.step thrown, rfl⟩
        · exact .inl ⟨rfl, rfl⟩
      | readException =>
        obtain ⟨rfl, rfl⟩ := by simpa [Get.step] using hg
        exact .inr ⟨.step thrown, rfl⟩
      | readValue =>
        cases kind <;> obtain ⟨rfl, rfl⟩ := by simpa [Get.step] using hg
        · exact .inr ⟨.take, rfl⟩
        · exact .inr ⟨.step thrown, rfl⟩

/-! ### What a setter does to the status -/

/-- What one step of a setter does to the status and to the queue. -/
inductive StatusMove (t : τ) (s : SharedState τ σ ε) :
    Setter τ ν ε → SharedState τ σ ε → Option (Setter τ ν ε) → Prop
  /-- the exchange fails -/
  | rejects {call} : StatusMove t s (.exchange call) s none
  /-- the exchange succeeds, and there is something to write -/
  | claims {call w s'} (hq : s'.waiters = s.waiters) (he : s.status = .empty)
      (hs : s'.status = .transition) (hw : w.writing = 1) : StatusMove t s (.exchange call) s' (some w)
  /-- the exchange succeeds, and that was all -/
  | settles {call s'} (hq : s'.waiters = s.waiters) (he : s.status = .empty)
      (hr : s'.status.ready = true) : StatusMove t s (.exchange call) s' (some (.resumeAll .lock))
  /-- something is written -/
  | writes {w w' s'} (hq : s'.waiters = s.waiters) (hs : s'.status = s.status)
      (hw : w.writing = 1) (hw' : w'.writing = 1) : StatusMove t s w s' (some w')
  /-- the final status is stored -/
  | publishes {w s'} (hq : s'.waiters = s.waiters) (hw : w.writing = 1)
      (hr : s'.status.ready = true) : StatusMove t s w s' (some (.resumeAll .lock))
  /-- a step of `resume_all` -/
  | resumes {r q o} (hr : ResumeAll.step t s.waiters r = some (q, o)) :
      StatusMove t s (.resumeAll r) { s with waiters := q } (o.map .resumeAll)

omit [DecidableEq τ] in
/-- A step of a setter moves the status in one of these ways. -/
theorem Setter.step_status {V : Variant ν σ} {t : τ} {thrown : Option ε} {s s' : SharedState τ σ ε}
    {w : Setter τ ν ε} {o : Option (Setter τ ν ε)} {e : Option (Event τ ν ε)}
    (h : w.step V t thrown s = some (s', o, e)) : StatusMove t s w s' o := by
  cases w with
  | exchange call =>
    simp only [Setter.step] at h
    split at h
    · rename_i he
      cases call with
      | setValue v =>
        simp only at h
        split at h
        · obtain ⟨rfl, rfl, -⟩ := by simpa using h
          exact .settles rfl he rfl
        · rename_i hd
          have ht : V.desired = .transition := V.desired_eq.resolve_right fun hv => hd hv.1
          obtain ⟨rfl, rfl, -⟩ := by simpa using h
          exact .claims rfl he ht rfl
      | setException p =>
        obtain ⟨rfl, rfl, -⟩ := by simpa using h
        exact .claims rfl he rfl rfl
      | breakPromise =>
        obtain ⟨rfl, rfl, -⟩ := by simpa using h
        exact .settles rfl he rfl
    · obtain ⟨rfl, rfl, -⟩ := by simpa using h
      exact .rejects
  | construct v =>
    simp only [Setter.step] at h
    split at h
    · obtain ⟨rfl, rfl, -⟩ := by simpa using h
      exact .writes rfl rfl rfl rfl
    · obtain ⟨rfl, rfl, -⟩ := by simpa using h
      refine .writes rfl rfl rfl ?_
      split_ifs <;> rfl
  | mark v =>
    obtain ⟨rfl, rfl, -⟩ := by simpa [Setter.step] using h
    exact .writes rfl rfl rfl rfl
  | writeException call e =>
    obtain ⟨rfl, rfl, -⟩ := by simpa [Setter.step] using h
    exact .writes rfl rfl rfl rfl
  | storeValue v =>
    obtain ⟨rfl, rfl, -⟩ := by simpa [Setter.step] using h
    exact .publishes rfl rfl rfl
  | storeException call e =>
    obtain ⟨rfl, rfl, -⟩ := by simpa [Setter.step] using h
    exact .publishes rfl rfl rfl
  | resumeAll r =>
    obtain ⟨⟨q, o⟩, hr, he⟩ := Option.map_eq_some_iff.1 h
    obtain ⟨rfl, rfl, -⟩ := by simpa using he
    exact .resumes hr

/-! ### The steps of a user -/

/-- The predicate of `wait` in a step of `wait_if`. -/
theorem stepWith_notReady {t : τ} {s s' : SharedState τ σ ε} {q q' : Queue τ} {w : WaitIf τ}
    {r : Option (WaitIf τ)} (h : w.stepWith notReady t s q = some (s', q', r)) :
    w.step t (!s.status.ready) q = some (q', r) := by
  unfold WaitIf.stepWith at h
  split at h
  · obtain ⟨⟨q₁, r₁⟩, hs, he⟩ := Option.map_eq_some_iff.1 h
    obtain ⟨-, rfl, rfl⟩ := by simpa using he
    exact hs
  · rename_i he
    obtain ⟨⟨q₁, r₁⟩, hs, he'⟩ := Option.map_eq_some_iff.1 h
    obtain ⟨-, rfl, rfl⟩ := by simpa using he'
    cases w <;> first | exact hs | simp [WaitIf.evaluates] at he

/-- Where a task stands in the code of the queue. -/
def User.place : User τ ν ε → WaitQueue.Pc τ
  | .setter (.resumeAll r) => .resumeAll r
  | .waiter w => .waitIf w
  | _ => .idle

/-- One for a task between a successful exchange and its final store. -/
def User.writing : User τ ν ε → ℕ
  | .setter w => w.writing
  | _ => 0

/-- Between the store or the exchange that made the status final and the end of
`resume_all`. -/
def User.resuming : User τ ν ε → Bool
  | .setter (.resumeAll _) => true
  | _ => false

/-- The steps of a task. -/
inductive UserStep (t : τ) (s : SharedState τ σ ε) :
    User τ ν ε → SharedState τ σ ε → User τ ν ε → Prop
  | set (call : Call ν ε) : UserStep t s .idle s (.setter (.exchange call))
  | wait : UserStep t s .idle s (.waiter .fastPath)
  /-- the future is obtained, or a `wait` or a `get` returns -/
  | quiet {l s'} (hl : l = .idle ∨ l = .assertReady) (hq : s'.waiters = s.waiters)
      (hs : s'.status = s.status) : UserStep t s l s' .idle
  | setter {w s' o} (m : StatusMove t s w s' o) :
      UserStep t s (.setter w) s' (o.elim .idle .setter)
  | waiter {w q r} (hw : w.step t (!s.status.ready) s.waiters = some (q, some r)) :
      UserStep t s (.waiter w) { s with waiters := q } (.waiter r)
  | waited {w q} (hw : w.step t (!s.status.ready) s.waiters = some (q, none)) :
      UserStep t s (.waiter w) { s with waiters := q } .assertReady

/-- Every step of a user is one of these. -/
theorem User.step_of_next {V : Variant ν σ} {t : τ} {a : UserAct ν ε} {s s' : SharedState τ σ ε}
    {l l' : User τ ν ε} (hn : User.next V t a s l = some (s', l')) : UserStep t s l s' l' := by
  cases a with
  | set call | wait =>
    cases l <;> simp only [User.next, reduceCtorEq, Option.some.injEq, Prod.mk.injEq] at hn
    obtain ⟨rfl, rfl⟩ := hn
    constructor
  | getFuture =>
    cases l with
    | idle =>
      simp only [User.next, SharedState.markFutureObtained] at hn
      split_ifs at hn <;>
      · obtain ⟨rfl, rfl⟩ := by simpa using hn
        exact .quiet (.inl rfl) rfl rfl
    | _ => simp [User.next] at hn
  | take =>
    cases l with
    | assertReady =>
      obtain ⟨rfl, rfl⟩ := by simpa [User.next] using hn
      exact .quiet (.inr rfl) rfl rfl
    | _ => simp [User.next] at hn
  | step thrown =>
    cases l with
    | idle => simp [User.next] at hn
    | setter w =>
      obtain ⟨⟨s₁, o, e⟩, hs, he⟩ := Option.map_eq_some_iff.1 hn
      obtain ⟨rfl, rfl⟩ := by simpa using he
      exact .setter (Setter.step_status hs)
    | waiter w =>
      obtain ⟨⟨s₁, q, r⟩, hs, he⟩ := Option.map_eq_some_iff.1 hn
      obtain ⟨rfl, rfl⟩ := by simpa using he
      cases r
      · exact .waited (stepWith_notReady hs)
      · exact .waiter (stepWith_notReady hs)
    | assertReady =>
      obtain ⟨rfl, rfl⟩ := by simpa [User.next] using hn
      exact .quiet (.inr rfl) rfl rfl

omit [DecidableEq τ] in
/-- A writer is not in the queue's code. -/
theorem place_of_writing {w : Setter τ ν ε} (h : w.writing = 1) : (User.setter w).place = .idle := by
  cases w <;> first | rfl | simp [Setter.writing] at h

section Step

variable {t : τ} {s s' : SharedState τ σ ε} {l l' : User τ ν ε}

/-- What a step does in the code of the queue. -/
theorem UserStep.queue (h : UserStep t s l s' l') :
    QueueStep t (s.status.ready = false) s.waiters l.place s'.waiters l'.place := by
  cases h with
  | set => exact .stay
  | quiet hl hq => rcases hl with rfl | rfl <;> exact .inl ⟨hq, rfl⟩
  | wait => exact .call .waitIf
  | waiter hw | waited hw => exact .waitIf hw (by simp)
  | setter m =>
    cases m with
    | rejects => exact .stay
    | claims hq _ _ hw => exact .inl ⟨hq, place_of_writing hw⟩
    | settles hq =>
      rw [hq]
      exact .call .resumeAll
    | writes hq _ hw hw' =>
      exact .inl ⟨hq, (place_of_writing hw').trans (place_of_writing hw).symm⟩
    | publishes hq hw =>
      rw [hq, place_of_writing hw]
      exact .call .resumeAll
    | @resumes r q o hr => cases o <;> exact .resumeAll hr

/-- A task gets past its re-check, or to `resume_all`, only when the status is final. -/
theorem UserStep.past (h : UserStep t s l s' l') (hp : l'.place.past = true) :
    l.place.past = true ∨ s'.status.ready = true := by
  cases h with
  | waiter hw => exact (WaitIf.step_past hw hp).imp_right fun hf => by simpa using hf
  | setter m =>
    cases m with
    | claims _ _ _ hw => simp [place_of_writing hw, WaitQueue.Pc.past] at hp
    | writes _ _ _ hw' => simp [place_of_writing hw', WaitQueue.Pc.past] at hp
    | settles _ _ hr | publishes _ _ hr => exact .inr hr
    | resumes => exact .inl rfl
    | rejects => simp [User.place, WaitQueue.Pc.past] at hp
  | _ => simp [User.place, WaitQueue.Pc.past] at hp

end Step

/-! ### The invariant -/

variable [Fintype τ] {V : Variant ν σ} {c : Config τ (SharedState τ σ ε) (User τ ν ε)} {t : τ}
  {s : SharedState τ σ ε} {l : User τ ν ε}

/-- What holds of every configuration. -/
structure Users (c : Config τ (SharedState τ σ ε) (User τ ν ε)) : Prop where
  ledger : Ledger c.shared.waiters fun t => (c.loc t).place.view
  writing : total User.writing c.loc = if c.shared.status = .transition then 1 else 0
  settled : Settled c.shared.waiters (fun t => (c.loc t).place) (c.shared.status.ready = true)
  attended : Attended c.shared.waiters (fun t => (c.loc t).place)
    (fun _ => c.shared.status.ready = false) (∃ t, 0 < (c.loc t).place.owes)
  asserted : ∀ t, c.loc t = .assertReady → c.shared.status.ready = true

namespace Users

/-- Nobody waits on a new state. -/
theorem start : Users (User.start V τ ε) where
  ledger := Ledger.init
  writing := total_const_zero rfl
  settled := .start
  attended := .start
  asserted t h := by simp [User.start] at h

/-- While a task writes, the status is `transition`. -/
theorem transition (h : Users c) (hw : (c.loc t).writing = 1) : c.shared.status = .transition := by
  have := le_total User.writing c.loc t
  have := h.writing
  by_contra hne
  rw [if_neg hne] at this
  omega

/-- A final status stays. -/
theorem ready_of_ready (h : Users c) (hs : UserStep t c.shared (c.loc t) s l)
    (hr : c.shared.status.ready = true) : s.status.ready = true := by
  have htrans := h.transition (t := t)
  generalize c.loc t = l₀ at hs htrans
  cases hs with
  | quiet _ _ hst => rwa [hst]
  | setter m =>
    cases m with
    | claims _ he => simp [he, Status.ready] at hr
    | writes _ hst => rwa [hst]
    | settles _ _ hr' | publishes _ _ hr' => exact hr'
    | _ => exact hr
  | _ => exact hr

omit [Fintype τ] in
/-- The status becomes final by a step to `resume_all`. -/
theorem owes_of_ready (hs : UserStep t c.shared (c.loc t) s l)
    (hr : c.shared.status.ready = false) : s.status.ready = false ∨ 0 < l.place.owes := by
  generalize c.loc t = l₀ at hs
  cases hs with
  | quiet _ _ hst => exact .inl (by rwa [hst])
  | setter m =>
    cases m with
    | claims _ _ hst => exact .inl (by rw [hst]; rfl)
    | writes _ hst => exact .inl (by rwa [hst])
    | settles | publishes => exact .inr Nat.one_pos
    | _ => exact .inl hr
  | _ => exact .inl hr

/-- The state is in transition exactly while a setter writes. -/
theorem writing_step (h : Users c) (hs : UserStep t c.shared (c.loc t) s l) :
    total User.writing (Function.update c.loc t l) = if s.status = .transition then 1 else 0 := by
  have hup := total_update User.writing c.loc t l
  have htrans := h.transition (t := t)
  have hw := h.writing
  have hready : ∀ {st : Status}, st.ready = true → st ≠ .transition := by
    rintro _ hr rfl
    simp [Status.ready] at hr
  generalize total User.writing (Function.update c.loc t l) = n at *
  generalize c.loc t = l₀ at *
  cases hs with
  | quiet hl _ hst => rcases hl with rfl | rfl <;> simp_all [User.writing]
  | setter m =>
    cases m with
    | rejects | claims | writes => simp_all [User.writing, Setter.writing]
    | settles _ he hr =>
      rw [if_neg (hready hr)]
      simp_all [User.writing, Setter.writing]
    | publishes _ hw' hr =>
      rw [if_neg (hready hr)]
      simp_all [User.writing, Setter.writing]
    | @resumes r q o => cases o <;> simp_all [User.writing, Setter.writing]
  | _ => simp_all [User.writing, Setter.writing]

/-- **`wait` asserts readiness only of a ready state.** -/
theorem asserted_step (h : Users c) (hs : UserStep t c.shared (c.loc t) s l)
    (hl : l = .assertReady) : s.status.ready = true := by
  cases hpc : c.loc t with
  | waiter w =>
    rw [hpc] at hs
    cases hs with
    | waited hw =>
      rcases h.settled.returns (t := t) (by rw [hpc]; rfl) hw with hr | hf
      · exact hr
      · simpa using hf
    | quiet hl' => simp at hl'
    | waiter => simp at hl
  | setter w =>
    rw [hpc] at hs
    cases hs with
    | quiet hl' => simp at hl'
    | @setter w s' o m => cases o <;> simp at hl
  | _ =>
    rw [hpc] at hs
    cases hs <;> simp at hl

/-- Every step keeps the queue with the readiness of the state. -/
theorem step (h : Users c) (hs : UserStep t c.shared (c.loc t) s l) :
    Users ⟨s, Function.update c.loc t l⟩ := by
  have hplace := place_update User.place c.loc t l
  have hledger := h.ledger.queueStep hs.queue
  have hsettled := h.settled.step hs.queue (h.ready_of_ready hs) hs.past
  have hattended := h.attended.step_owes h.ledger hs.queue fun _ => owes_of_ready hs
  rw [← hplace] at hledger hsettled hattended
  refine ⟨hledger, h.writing_step hs, hsettled, hattended, fun u hu => ?_⟩
  change Function.update c.loc t l u = .assertReady at hu
  rcases eq_or_ne u t with rfl | hne
  · rw [Function.update_self] at hu
    exact h.asserted_step hs hu
  · rw [Function.update_of_ne hne] at hu
    exact h.ready_of_ready hs (h.asserted u hu)

/-- This holds in every run. -/
theorem of_reach (h : Reachable (User.next V) (User.start V τ ε) c) : Users c :=
  h.invariant start fun _ _ _ _ _ _ hi _ hn => hi.step (User.step_of_next hn)

end Users

/-- **A future's waiters are released exactly by readiness.**  In every configuration of
every run of `set_value`, `set_exception`, `break_promise` and `wait` on one shared state,
by any number of tasks,

* where `wait` asserts `ready()`, after it has been suspended once at most, it holds;
* if `ready()` holds and no call is between the store or the exchange that made it hold and
  the end of its `resume_all`, the queue is empty;
* while the status is `transition`, exactly one call is between its successful exchange and
  its final store, and otherwise none is. -/
theorem released_by_readiness (h : Reachable (User.next V) (User.start V τ ε) c) :
    (∀ t, c.loc t = .assertReady → c.shared.status.ready = true) ∧
      (c.shared.status.ready = true → (∀ t, (c.loc t).resuming = false) →
        c.shared.waiters.waiters = []) ∧
      (c.shared.status = .transition → ∃! t, (c.loc t).writing = 1) ∧
      (c.shared.status ≠ .transition → ∀ t, (c.loc t).writing = 0) := by
  have hI := Users.of_reach h
  refine ⟨hI.asserted, fun hr hnone => ?_, fun hs => ?_, fun hs => ?_⟩
  · refine List.eq_nil_iff_forall_not_mem.2 fun sp hsp => ?_
    rcases hI.attended.queued sp hsp with hne | ⟨u, hu⟩
    · simp [hne] at hr
    · have := hnone u
      unfold User.resuming at this
      unfold User.place at hu
      split at hu <;> simp_all [WaitQueue.Pc.owes]
  · have hw := hI.writing
    rw [if_pos hs] at hw
    obtain ⟨t, ht⟩ := total_pos.1 (by omega : 0 < total User.writing c.loc)
    have hle := le_total User.writing c.loc t
    refine ⟨t, by simp only; omega, fun u hu => ?_⟩
    by_contra hne
    have := add_le_total User.writing c.loc hne
    omega
  · have hw := hI.writing
    rw [if_neg hs] at hw
    exact total_eq_zero.1 hw

/-- Task `0` queues while the status is `transition`; task `1`, whose value throws when it
is constructed, resumes it. -/
def waitsForThrow : List (Fin 2 × UserAct ℕ ℕ) :=
  turns [(1, 1, .set (.setValue 7)), (1, 1, .step none), (0, 1, .wait), (0, 6, .step none),
    (1, 9, .step (some 3)), (0, 1, .step none)]

/-- The theorem where a task has been resumed. -/
theorem released_by_readiness_throw :
    ∃ c, (User.start (sharedState ℕ) (Fin 2) ℕ).exec (User.next (sharedState ℕ)) waitsForThrow =
        some c ∧ c.loc 0 = .assertReady ∧ c.shared.exception = some 3 ∧
      c.shared.status.ready = true ∧ c.shared.waiters.waiters = [] := by
  refine ⟨_, rfl, rfl, rfl, ?_⟩
  have hreach : Reachable (User.next (sharedState ℕ)) (User.start (sharedState ℕ) (Fin 2) ℕ) _ :=
    reachable_of_exec (l := waitsForThrow) rfl
  have h := released_by_readiness hreach
  exact ⟨h.1 0 rfl, h.2.1 rfl (by decide)⟩

end Future
end CoopSync
