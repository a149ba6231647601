/-
# Scoped locks come to rest

With no new calls the tasks inside the member functions of `scoped_lock` objects come to
rest, on any `mutex` and `shared_mutex` objects (`scoped_comes_to_rest`): each function
makes one call of a mutex or two, and the mutexes come to rest (`Mutex.Atomic`,
`SharedMutex.Rest`).

Where they stop nobody waits for a lock that waits.  `acquire` throws if the lock owns
something, and `upgrade_to_writer` and `downgrade_to_reader` release before they acquire,
so two readers that upgrade at once do not stop each other.  What a lock waits for is
another one that is outside its functions; or it is a writer lock left at a free
`shared_mutex`, as `SharedMutex.Writers` shows.
-/

import CoopSync.Holder.Rest
import CoopSync.Mutex.Atomic
import CoopSync.ScopedLock.Bookkeeping
import CoopSync.SharedMutex.Rest

namespace CoopSync

open Holder

variable {τ κ κ' M N : Type*} [DecidableEq τ] [DecidableEq κ] [DecidableEq κ'] [DecidableEq M]
  [DecidableEq N]

/-- The calls of a `shared_mutex` come to rest, its weak exchanges failing for a reason. -/
theorem SharedMutex.lockable_settles [Fintype κ] :
    (lockable κ).Settles false (budget κ).measure AtRest where
  lt h hn := (spends (writerLedger h) (readerLedger h) hn).lt
  outside {k s l} hl := by
    obtain ⟨m, n, h, pc⟩ := l
    obtain rfl : pc = .outside := outside_of_phase hl
    rfl
  rest {d} h hnone :=
    atRest (writerLedger h) (readerLedger h) (inv_of_reach h) (awaited_of_reach h) fun k a ha => by
      subst ha
      exact Option.map_eq_none_iff.2 (hnone k)
  locking {d k p} h hp := by
    rcases h.everyone k with hpc | ⟨w, hpc, -⟩ | ⟨w, hpc, -⟩
    · simp [lockable, hpc, Pc.phase] at hp
    · exact ⟨true, by simpa [lockable, hpc, Pc.phase] using hp.symm⟩
    · exact ⟨false, by simpa [lockable, hpc, Pc.phase] using hp.symm⟩

/-- The calls of a `mutex` come to rest. -/
theorem Mutex.lockable_settles [Fintype κ] :
    (lockable κ).Settles () (budget κ).measure AtRest where
  lt h hn := (spends (ledger h) hn).lt
  outside {k s l} hl := by
    obtain ⟨n, pc⟩ := l
    obtain rfl : pc = .outside := outside_of_phase hl
    rfl
  rest {d} h hnone := atRest (ledger h) (inv_of_reach h) fun k a ha => by
    subst ha
    exact Option.map_eq_none_iff.2 (hnone k)
  locking {d k p} h hp := by
    rcases h.everyone k with hpc | ⟨sp, hpc, -⟩
    · simp [lockable, hpc, Pc.phase] at hp
    · exact ⟨(), by simpa [lockable, hpc, Pc.phase] using hp.symm⟩

namespace ScopedLock

/-! ### The tasks in the functions -/

/-- A function of the lock runs. -/
def System.Runs (s : System κ κ' M N) : κ ⊕ κ' → Prop
  | .inl k => (s.sharedMutexes.loc k).run.isSome
  | .inr k => (s.mutexes.loc k).run.isSome

omit [DecidableEq κ'] [DecidableEq N] in
/-- A step of one lock of a `shared_mutex` leaves the functions of the others alone. -/
theorem runs_of_nextShared {s : System κ κ' M N} {d : SharedMutexes κ M} {k : κ}
    {a : Holder.Act (SharedMutex.ScopedLock.Op M) Bool}
    (hd : s.sharedMutexes.step nextShared k a = some d) {y : κ ⊕ κ'} (hy : y ≠ .inl k) :
    System.Runs { s with sharedMutexes := d } y ↔ s.Runs y := by
  obtain ⟨sh, l₁, -, rfl⟩ := Config.step_eq_some.1 hd
  cases y with
  | inl k' =>
    have hne : k' ≠ k := fun h => hy (congrArg Sum.inl h)
    simp [System.Runs, hne]
  | inr k' => rfl

omit [DecidableEq κ] [DecidableEq M] in
/-- A step of one lock of a `mutex` leaves the functions of the others alone. -/
theorem runs_of_nextMutex {s : System κ κ' M N} {d : Mutexes κ' N} {k : κ'}
    {a : Holder.Act (Mutex.ScopedLock.Op N) Unit}
    (hd : s.mutexes.step nextMutex k a = some d) {y : κ ⊕ κ'} (hy : y ≠ .inr k) :
    System.Runs { s with mutexes := d } y ↔ s.Runs y := by
  obtain ⟨sh, l₁, -, rfl⟩ := Config.step_eq_some.1 hd
  cases y with
  | inl k' => rfl
  | inr k' =>
    have hne : k' ≠ k := fun h => hy (congrArg Sum.inr h)
    simp [System.Runs, hne]

omit [DecidableEq τ] in
/-- A task that steps calls a function of one lock, or it is in the function, which may end. -/
theorem runs_of_next {t : τ} {a : Act κ κ' M N} {s s' : System κ κ' M N} {l l' : Option (κ ⊕ κ')}
    (hn : next t a s l = some (s', l')) : ∃ x, (l = none ∧ ¬s.Runs x ∨ l = some x) ∧
      (l' = some x ∧ s'.Runs x ∨ l' = none ∧ ¬s'.Runs x) ∧
        ∀ y, y ≠ x → (s'.Runs y ↔ s.Runs y) := by
  unfold next at hn
  split at hn
  · rename_i k op
    obtain ⟨d, hd, he⟩ := Option.map_eq_some_iff.1 hn
    obtain ⟨rfl, rfl⟩ := Prod.mk.inj he
    obtain ⟨hidle, hruns⟩ := run_of_call hd
    exact ⟨.inl k, .inl ⟨rfl, by simp [System.Runs, hidle]⟩, .inl ⟨rfl, hruns⟩,
      fun y => runs_of_nextShared hd⟩
  · rename_i k op
    obtain ⟨d, hd, he⟩ := Option.map_eq_some_iff.1 hn
    obtain ⟨rfl, rfl⟩ := Prod.mk.inj he
    obtain ⟨hidle, hruns⟩ := run_of_call hd
    exact ⟨.inr k, .inl ⟨rfl, by simp [System.Runs, hidle]⟩, .inl ⟨rfl, hruns⟩,
      fun y => runs_of_nextMutex hd⟩
  · rename_i spurious k
    obtain ⟨d, hd, he⟩ := Option.map_eq_some_iff.1 hn
    obtain ⟨rfl, rfl⟩ := Prod.mk.inj he
    refine ⟨.inl k, .inr rfl, ?_, fun y => runs_of_nextShared hd⟩
    cases hr : (d.loc k).run <;> simp [System.Runs, hr]
  · rename_i spurious k
    obtain ⟨d, hd, he⟩ := Option.map_eq_some_iff.1 hn
    obtain ⟨rfl, rfl⟩ := Prod.mk.inj he
    refine ⟨.inr k, .inr rfl, ?_, fun y => runs_of_nextMutex hd⟩
    cases hr : (d.loc k).run <;> simp [System.Runs, hr]
  · cases hn

/-- Which tasks are in which functions. -/
structure Tasks (c : Config τ (System κ κ' M N) (Option (κ ⊕ κ'))) : Prop where
  runs {t : τ} {x : κ ⊕ κ'} : c.loc t = some x → c.shared.Runs x
  task {x : κ ⊕ κ'} : c.shared.Runs x → ∃ t, c.loc t = some x
  alone {t u : τ} {x : κ ⊕ κ'} : c.loc t = some x → c.loc u = some x → t = u

/-- **A function runs in one task**, and a task is in a function that runs. -/
theorem tasks_of_reach {c : Config τ (System κ κ' M N) (Option (κ ⊕ κ'))}
    (h : Reachable next (start τ κ κ' M N) c) : Tasks c := by
  refine h.invariant ⟨nofun, fun {x} hx => ?_, nofun⟩ fun c t a s l _ ih _ hn => ?_
  · cases x <;> simp [System.Runs, start, Holder.start] at hx
  obtain ⟨x, hbefore, hafter, hothers⟩ := runs_of_next hn
  -- the task is alone in the function before and after the step
  have hne {u} (hu : u ≠ t) : c.loc u ≠ some x := fun hx => by
    rcases hbefore with ⟨-, hidle⟩ | ht
    · exact hidle (ih.runs hx)
    · exact hu (ih.alone hx ht)
  have hat {u y} (hy : Function.update c.loc t l u = some y) :
      y = x ∧ u = t ∧ s.Runs x ∨ y ≠ x ∧ c.loc u = some y := by
    rcases eq_or_ne u t with rfl | hu
    · rw [Function.update_self] at hy
      rcases hafter with ⟨rfl, hruns⟩ | ⟨rfl, -⟩
      · exact .inl ⟨(Option.some.inj hy).symm, rfl, hruns⟩
      · cases hy
    · rw [Function.update_of_ne hu] at hy
      exact .inr ⟨fun he => hne hu (he ▸ hy), hy⟩
  refine ⟨fun hy => ?_, fun {y} hy => ?_, fun {u u' y} hy hy' => ?_⟩
  · rcases hat hy with ⟨rfl, -, hruns⟩ | ⟨hyx, hy⟩
    · exact hruns
    · exact (hothers _ hyx).2 (ih.runs hy)
  · rcases eq_or_ne y x with rfl | hyx
    · rcases hafter with ⟨rfl, -⟩ | ⟨-, hidle⟩
      · exact ⟨t, Function.update_self ..⟩
      · exact absurd hy hidle
    · obtain ⟨u, hu⟩ := ih.task ((hothers _ hyx).1 hy)
      refine ⟨u, ?_⟩
      rcases eq_or_ne u t with rfl | hut
      · rcases hbefore with ⟨hnone, -⟩ | hx
        · rw [hu] at hnone
          cases hnone
        · exact absurd (Option.some.inj (hu.symm.trans hx)) hyx
      · exact (Function.update_of_ne hut ..).trans hu
  · rcases hat hy with ⟨hyx, ht, -⟩ | ⟨hyx, hy⟩ <;>
      rcases hat hy' with ⟨hyx', ht', -⟩ | ⟨hyx', hy'⟩
    · exact ht.trans ht'.symm
    · exact absurd hyx hyx'
    · exact absurd hyx' hyx
    · exact ih.alone hy hy'

/-! ### Rest -/

/-- A step of a task inside a function, without a weak exchange that fails for no reason. -/
def Inside (_ : Config τ (System κ κ' M N) (Option (κ ⊕ κ'))) (_ : τ) (a : Act κ κ' M N) : Prop :=
  a = .step false

variable [Fintype κ] [Fintype κ'] {c : Config τ (System κ κ' M N) (Option (κ ⊕ κ'))}

/-- Nothing is left to do without a new call. -/
structure AtRest (c : Config τ (System κ κ' M N) (Option (κ ⊕ κ'))) : Prop where
  /-- A task in a function of a lock of a `shared_mutex` is suspended in the mutex that
  `m_mutex` points to.  A reader lock waits for a writer lock outside its functions, a
  writer lock for any, unless it is left at a free mutex. -/
  shared {t : τ} {k : κ} : c.loc t = some (.inl k) → ∃ m write,
    (c.shared.sharedMutexes.loc k).fields = some ⟨some m, write⟩ ∧
      (SharedMutex.SuspendedReader (c.shared.sharedMutexes.shared m) k ∧
          (∃ u, (c.shared.sharedMutexes.loc u).Holds m true) ∨
        SharedMutex.SuspendedWriter (c.shared.sharedMutexes.shared m) k ∧
          ((c.shared.sharedMutexes.shared m).shared.state = 0 ∨
            ∃ u w, (c.shared.sharedMutexes.loc u).Holds m w))
  /-- A task in a function of a lock of a `mutex` is suspended in the mutex that `m_mutex`
  points to, and waits for a lock outside its functions. -/
  mutex {t : τ} {k : κ'} : c.loc t = some (.inr k) → ∃ m u,
    (c.shared.mutexes.loc k).fields = some ⟨some m, ()⟩ ∧
      Mutex.Suspended (c.shared.mutexes.shared m) k ∧ (c.shared.mutexes.loc u).Holds m ()
  /-- With every task outside nobody is in a queue, as their destructors assert. -/
  empty : (∀ t, c.loc t = none) →
    (∀ m, (c.shared.sharedMutexes.shared m).shared.writerWaiters.waiters = [] ∧
      (c.shared.sharedMutexes.shared m).shared.readerWaiters.waiters = []) ∧
    ∀ m, (c.shared.mutexes.shared m).shared.waitQueue.waiters = []

/-- Where no task inside can go on, no function can. -/
theorem parts_at_rest (h : Reachable next (start τ κ κ' M N) c)
    (hrest : ∀ t a, Inside c t a → c.step next t a = none) :
    Holder.AtRest (SharedMutex.lockable κ) SharedMutex.AtRest c.shared.sharedMutexes ∧
      Holder.AtRest (Mutex.lockable κ') Mutex.AtRest c.shared.mutexes := by
  obtain ⟨hshared, hmutex⟩ := parts_reachable h
  have htasks := tasks_of_reach h
  constructor
  · refine at_rest SharedMutex.lockable_lawful SharedMutex.ScopedLock.code_lawful
      SharedMutex.lockable_settles hshared fun k hk => ?_
    obtain ⟨t, ht⟩ := htasks.task (x := .inl k) hk
    simpa [Config.step, next, nextShared, ht] using hrest t _ rfl
  · refine at_rest Mutex.lockable_lawful Mutex.ScopedLock.code_lawful
      Mutex.lockable_settles hmutex fun k hk => ?_
    obtain ⟨t, ht⟩ := htasks.task (x := .inr k) hk
    simpa [Config.step, next, nextMutex, ht] using hrest t _ rfl

/-- Who is left waits for a lock outside its functions. -/
theorem atRest (h : Reachable next (start τ κ κ' M N) c)
    (hrest : ∀ t a, Inside c t a → c.step next t a = none) : AtRest c := by
  obtain ⟨hshared, hmutex⟩ := parts_at_rest h hrest
  have htasks := tasks_of_reach h
  refine ⟨fun {t k} ht => ?_, fun {t k} ht => ?_, fun hout => ⟨fun m => ?_, fun m => ?_⟩⟩
  · have hruns : (c.shared.sharedMutexes.loc k).run.isSome := htasks.runs ht
    rcases hshared.everyone k with hnone | ⟨m, v, w, hf, hduring⟩
    · simp [hnone] at hruns
    have hm := hshared.locks m
    refine ⟨m, v, hf, ?_⟩
    rcases hm.everyone k with hpc | ⟨_, hpc, sp, rfl, -, hsp⟩ | ⟨_, hpc, sp, rfl, -, hsp⟩
    · simp [SharedMutex.lockable, hpc, SharedMutex.Pc.phase] at hduring
    · refine .inr ⟨⟨sp, hpc, hsp⟩, ?_⟩
      rcases hm.owners with ⟨-, ⟨u, hu⟩, -⟩ | ⟨hstate, -⟩
      · exact .inr ⟨u, true, hshared.owners hu⟩
      · rcases Nat.eq_zero_or_pos
          (total SharedMutex.Local.reads (c.shared.sharedMutexes.shared m).loc) with h0 | hpos
        · exact .inl (by rw [hstate, h0]; rfl)
        · obtain ⟨u, hu⟩ := total_pos.1 hpos
          exact .inr ⟨u, false, hshared.owners hu⟩
    · have hsusp : SharedMutex.SuspendedReader (c.shared.sharedMutexes.shared m) k := ⟨sp, hpc, hsp⟩
      refine .inl ⟨hsusp, ?_⟩
      rcases hm.owners with ⟨-, ⟨u, hu⟩, -⟩ | ⟨hstate, -⟩
      · exact ⟨u, hshared.owners hu⟩
      · have hlocked := hm.readers k hsusp
        rw [hlocked, SharedMutex.kWriterLocked] at hstate
        omega
  · have hruns : (c.shared.mutexes.loc k).run.isSome := htasks.runs ht
    rcases hmutex.everyone k with hnone | ⟨m, v, w, hf, hduring⟩
    · simp [hnone] at hruns
    have hm := hmutex.locks m
    rcases hm.everyone k with hpc | ⟨sp, hpc, -, hsp⟩
    · simp [Mutex.lockable, hpc, Mutex.Pc.phase] at hduring
    obtain ⟨u, hu⟩ := hm.held k (by simp [hpc])
    refine ⟨m, u, hf, ⟨sp, hpc, hsp⟩, hmutex.owners (v := ()) ?_⟩
    -- the owner is not on its way out of the mutex
    rcases hm.everyone u with hpc' | ⟨sp', hpc', -⟩ <;>
      simpa [Mutex.Local.Owns, Mutex.Local.owner, hpc', Mutex.lockable] using hu
  · refine (hshared.locks m).empty fun k => SharedMutex.outside_of_phase ?_
    refine hshared.outside (Option.not_isSome_iff_eq_none.1 fun hk => ?_) m
    obtain ⟨t, ht⟩ := htasks.task (x := .inl k) hk
    simp [hout t] at ht
  · refine (hmutex.locks m).empty fun k => Mutex.outside_of_phase ?_
    refine hmutex.outside (Option.not_isSome_iff_eq_none.1 fun hk => ?_) m
    obtain ⟨t, ht⟩ := htasks.task (x := .inr k) hk
    simp [hout t] at ht

variable [Fintype M] [Fintype N]

/-- What all functions and all mutexes can still do. -/
def measure (c : Config τ (System κ κ' M N) (Option (κ ⊕ κ'))) : ℕ ×ₗ ℕ ×ₗ ℕ ×ₗ ℕ :=
  Holder.measure (SharedMutex.budget κ).measure c.shared.sharedMutexes +
    Holder.measure (Mutex.budget κ').measure c.shared.mutexes

/-- **A step of a task inside lowers the measure.** -/
theorem measure_lt (h : Reachable next (start τ κ κ' M N) c) {t : τ} {s : System κ κ' M N}
    {l : Option (κ ⊕ κ')} (hn : next t (.step false) c.shared (c.loc t) = some (s, l)) :
    measure ⟨s, Function.update c.loc t l⟩ < measure c := by
  obtain ⟨hshared, hmutex⟩ := parts_reachable h
  generalize c.loc t = l₀ at hn
  cases l₀ with
  | none => simp [next] at hn
  | some x =>
    cases x with
    | inl k =>
      obtain ⟨d, hd, he⟩ := Option.map_eq_some_iff.1 hn
      obtain ⟨rfl, -⟩ := Prod.mk.inj he
      obtain ⟨sh, l₁, hl, rfl⟩ := Config.step_eq_some.1 hd
      exact add_lt_add_left (Holder.measure_lt SharedMutex.lockable_settles hshared hl) _
    | inr k =>
      obtain ⟨d, hd, he⟩ := Option.map_eq_some_iff.1 hn
      obtain ⟨rfl, -⟩ := Prod.mk.inj he
      obtain ⟨sh, l₁, hl, rfl⟩ := Config.step_eq_some.1 hd
      exact add_lt_add_right (Holder.measure_lt Mutex.lockable_settles hmutex hl) _

/-- **Scoped locks come to rest.**  From every configuration of every run of any tasks on
any mutexes and locks, the steps of the tasks inside the member functions, in whatever
order, end.  Where they end every task is outside or suspended in the mutex of its lock,
which waits for a lock outside its functions, unless a writer has been left at a free
`shared_mutex`; and with every task outside no queue of a mutex holds anybody. -/
theorem scoped_comes_to_rest (h : Reachable next (start τ κ κ' M N) c) :
    ComesToRest next Inside AtRest c :=
  h.comesToRest measure (fun _ _ _ _ => trivial)
    (fun _ _ _ _ _ hr ha hn => by
      subst ha
      exact measure_lt hr hn)
    fun _ hr hrest => atRest hr hrest

/-- Two reader locks have been told to upgrade; the first has released its own and waits for
the second, which has not begun. -/
def upgrades : List (Fin 2 × Act (Fin 2) (Fin 1) (Fin 1) (Fin 1)) :=
  turns [(0, 1, .shared 0 (.construct 0 false)), (0, 4, .step false),
    (1, 1, .shared 1 (.construct 0 false)), (1, 4, .step false),
    (0, 1, .shared 0 .upgradeToWriter), (1, 1, .shared 1 .upgradeToWriter), (0, 13, .step false)]

/-- The theorem with two upgrades under way. -/
theorem scoped_comes_to_rest_upgrades : ∃ c,
    (start (Fin 2) (Fin 2) (Fin 1) (Fin 1) (Fin 1)).exec next upgrades = some c ∧
    (c.shared.sharedMutexes.shared 0).shared.writerWaiters.waiters = [⟨0, 0⟩] ∧
    (c.shared.sharedMutexes.loc 1).run.map Run.op = some .upgradeToWriter ∧
    ComesToRest next Inside AtRest c :=
  ⟨_, rfl, rfl, rfl, scoped_comes_to_rest (reachable_of_exec (l := upgrades) rfl)⟩

end ScopedLock
end CoopSync
