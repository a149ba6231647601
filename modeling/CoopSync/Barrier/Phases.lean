/-
# The barrier and its stale resumers

The task that completes a phase advances `m_phase` first and takes the queue
afterwards.  In between a participant can pass by the fast path, arrive again and
queue for the next phase; the late `resume_all` then takes it off the queue, and
`wait` returns although the next phase is not complete (`released_early`).

That is the only way out of a phase too early.  In a run in which no `resume_all`
takes a waiter whose token is the current phase, every participant that has not
dropped out is in the current phase or has arrived in it (`Local.Ok`), and the task
that takes the last expected arrival has everybody else waiting behind it
(`Inv.arrived`), so that it completes the phase alone.
-/

import CoopSync.Barrier.Steps

namespace CoopSync
namespace Barrier

open WaitQueue

variable {τ : Type*}

/-- The task has taken one off `m_expected` in this call. -/
def Arrive.taken : Arrive τ → Bool
  | .load | .fetchSub _ => false
  | _ => true

/-- The task has dropped out: it has arrived for the last time. -/
def Local.dropped (l : Local τ) : Bool :=
  match l.pc with
  | .arrive .drop a => a.taken
  | .gone => true
  | _ => false

/-- One for a participant that has not dropped out. -/
def Local.alive (l : Local τ) : ℕ := if l.dropped then 0 else 1

/-- One for a participant that has not arrived in phase `p` and is to. -/
def Local.lagging (p : ℕ) (l : Local τ) : ℕ := if l.arrivals = p then l.alive else 0

/-- One for a participant that `m_initial_expected` counts. -/
def Local.counted (l : Local τ) : ℕ :=
  match l.pc with
  | .arrive .drop _ | .gone => 0
  | _ => 1

/-- One for the task that has taken the last expected arrival and not advanced the
phase. -/
def Local.completing (l : Local τ) : ℕ :=
  match l.pc with
  | .arrive _ (.completion _) | .arrive _ (.loadInitial _) | .arrive _ (.storeExpected _ _)
  | .arrive _ (.storePhase _) => 1
  | _ => 0

/-- One for a completing task whose completion function has returned. -/
def Local.completed (l : Local τ) : ℕ :=
  match l.pc with
  | .arrive _ (.loadInitial _) | .arrive _ (.storeExpected _ _) | .arrive _ (.storePhase _) => 1
  | _ => 0

/-- A completing task restores `m_expected` to the number of participants left. -/
def Local.Restores (expected alive : ℤ) (l : Local τ) : Prop :=
  match l.pc with
  | .arrive _ (.storeExpected _ n) => n = alive
  | .arrive _ (.storePhase _) => expected = alive
  | _ => True

/-- The task is in `wait_if` and will return from it: its re-check came out false,
or it was taken off the list. -/
def freed (q : Queue τ) : WaitIf τ → Prop
  | .unlockResume _ | .resume _ | .selfResumed _ => True
  | .unlockQueued sp | .queued sp => sp ∉ q.waiters
  | _ => False

/-- Where a participant stands in phase `p`: it has not arrived, or it has arrived
and not waited, or it comes from the phase before. -/
def Local.Ok (p : ℕ) (q : Queue τ) (l : Local τ) : Prop :=
  l.waits ≤ p ∧ match l.pc with
    | .outside | .dropSub | .arrive _ .load => l.arrivals = l.waits ∧ l.waits = p
    | .arrive _ (.fetchSub phase) =>
      l.arrivals = l.waits ∧ l.waits = p ∧ phase = UInt8.ofNat l.waits
    | .arrive _ (.completion phase) | .arrive _ (.loadInitial phase)
    | .arrive _ (.storeExpected phase _) | .arrive _ (.storePhase phase) =>
      l.arrivals = l.waits + 1 ∧ l.waits = p ∧ phase = UInt8.ofNat l.waits
    | .arrive k (.resumeAll phase _) =>
      l.arrivals = l.waits + 1 ∧ l.arrivals ≤ p ∧ (k = .drop ∨ l.arrivals = p) ∧
        phase = UInt8.ofNat l.waits
    | .holding token | .waitLoad token =>
      l.arrivals = l.waits + 1 ∧ (l.waits = p ∨ l.arrivals = p) ∧ token = UInt8.ofNat l.waits
    | .waitIf token w =>
      l.arrivals = l.waits + 1 ∧ (l.waits = p ∨ l.arrivals = p) ∧ token = UInt8.ofNat l.waits ∧
        (freed q w → l.arrivals = p)
    | .gone => True

/-- A participant that has not dropped out is in the current phase or has arrived
in it. -/
theorem Local.Ok.arrivals {p : ℕ} {q : Queue τ} {l : Local τ} (h : l.Ok p q)
    (hd : l.dropped = false) : l.arrivals = p ∨ l.arrivals = p + 1 := by
  obtain ⟨a, w, pc⟩ := l
  obtain ⟨hw, h⟩ := h
  cases pc with
  | arrive k a =>
    cases a with
    | resumeAll phase r =>
      cases k with
      | drop => simp [Local.dropped, Arrive.taken] at hd
      | _ =>
        simp at h ⊢
        omega
    | _ =>
      simp at h ⊢
      omega
  | gone => simp [Local.dropped] at hd
  | _ =>
    simp at h ⊢
    omega

/-- A participant that is not behind phase `p` has arrived in it. -/
theorem arrivals_ne_of_lagging {p : ℕ} {l : Local τ} (h : l.lagging p = 0)
    (hd : l.dropped = false) : l.arrivals ≠ p := by
  intro ha
  simp [Local.lagging, Local.alive, ha, hd] at h

/-- A participant that has arrived in phase `p` goes on to the next. -/
theorem Local.Ok.advance {p : ℕ} {q : Queue τ} {l : Local τ} (h : l.Ok p q)
    (hlag : l.lagging p = 0) (hc : l.completing = 0) : l.Ok (p + 1) q := by
  have hlag' := arrivals_ne_of_lagging hlag
  obtain ⟨a, w, pc⟩ := l
  obtain ⟨hw, h⟩ := h
  refine ⟨hw.trans (Nat.le_succ p), ?_⟩
  change _ → a ≠ p at hlag'
  cases pc with
  | arrive k a =>
    cases a with
    | resumeAll phase r =>
      obtain ⟨ha, hp, hk, hph⟩ := h
      simp only at ha hp hk
      -- only a task that drops out can be left behind in its `resume_all`
      have hdrop : k = .drop := by
        cases k with
        | drop => rfl
        | _ => exact absurd (hk.resolve_left (by simp)) (hlag' rfl)
      exact ⟨ha, by simp only; omega, .inl hdrop, hph⟩
    | load | fetchSub phase =>
      simp only at h
      exact absurd (by omega) (hlag' (by cases k <;> rfl))
    | _ => simp [Local.completing] at hc
  | holding token | waitLoad token =>
    obtain ⟨ha, hp, htok⟩ := h
    simp only at ha hp
    have := hlag' rfl
    exact ⟨ha, .inr (by simp only; omega), htok⟩
  | waitIf token wi =>
    obtain ⟨ha, hp, htok, hf⟩ := h
    simp only at ha hp
    have := hlag' rfl
    exact ⟨ha, .inr (by simp only; omega), htok, fun _ => by simp only; omega⟩
  | outside | dropSub =>
    simp only at h
    exact absurd (by omega) (hlag' rfl)
  | gone => trivial

/-- A participant that has arrived is counted exactly if it has not dropped out. -/
theorem Local.Ok.counted {p : ℕ} {q : Queue τ} {l : Local τ} (h : l.Ok p q)
    (hlag : l.lagging p = 0) : l.counted = l.alive := by
  obtain ⟨a, w, pc⟩ := l
  obtain ⟨hw, h⟩ := h
  cases pc with
  | arrive k a =>
    cases k with
    | drop =>
      cases a with
      | load | fetchSub phase =>
        simp [Local.lagging, Local.alive, Local.dropped, Arrive.taken] at h hlag
        omega
      | _ => rfl
    | _ => rfl
  | _ => rfl

/-- A participant that has arrived is one to wait for in the next phase, unless it
has dropped out. -/
theorem Local.Ok.lagging {p : ℕ} {q : Queue τ} {l : Local τ} (h : l.Ok p q)
    (hlag : l.lagging p = 0) : l.lagging (p + 1) = l.alive := by
  unfold Local.lagging at hlag ⊢
  cases hd : l.dropped with
  | true => simp [Local.alive, hd]
  | false =>
    rcases h.arrivals hd with ha | ha
    · simp [ha, Local.alive, hd] at hlag
    · simp [ha]

/-- Only a completing task restores the count. -/
theorem restores_of_not_completing {e n : ℤ} {l : Local τ} (h : l.completing = 0) :
    l.Restores e n := by
  obtain ⟨a, w, pc⟩ := l
  cases pc with
  | arrive k a => cases a <;> simp_all [Local.completing, Local.Restores]
  | _ => trivial

/-- A participant about to take its arrival off is behind its phase. -/
theorem lagging_fetchSub {p n w : ℕ} (k : After) (phase : UInt8) (hn : n = p) :
    Local.lagging p (⟨n, w, .arrive k (.fetchSub phase)⟩ : Local τ) = 1 := by
  cases k <;> simp [Local.lagging, Local.alive, Local.dropped, Arrive.taken, hn]

variable [DecidableEq τ] [Fintype τ]

/-- What holds of every configuration. -/
structure Inv (c : Config τ (Shared τ) (Local τ)) : Prop where
  phase : c.shared.phase = UInt8.ofNat c.shared.phases
  ok : ∀ t, (c.loc t).Ok c.shared.phases c.shared.waiters
  /-- One task completes a phase. -/
  unique : total Local.completing c.loc ≤ 1
  /-- It has everybody else behind it. -/
  arrived : 0 < total Local.completing c.loc →
    total (Local.lagging c.shared.phases) c.loc = 0
  /-- Until then `m_expected` counts the participants still to arrive. -/
  expected : total Local.completing c.loc = 0 →
    c.shared.expected = total (Local.lagging c.shared.phases) c.loc
  initial : c.shared.initialExpected = total Local.counted c.loc
  restores : ∀ t, (c.loc t).Restores c.shared.expected (total Local.alive c.loc)
  completions : c.shared.completions = c.shared.phases + total Local.completed c.loc

/-- The task is about to take the whole list. -/
def Local.swapping (l : Local τ) : Bool :=
  match l.pc with
  | .arrive _ (.resumeAll _ .swap) => true
  | _ => false

/-- The task is in the list with the token of the current phase. -/
def Local.current (s : Shared τ) (l : Local τ) : Bool :=
  match l.pc with
  | .waitIf token (.unlockQueued sp) | .waitIf token (.queued sp) =>
    decide (sp ∈ s.waiters.waiters) && token == s.phase
  | _ => false

/-- No `resume_all` takes a waiter of the current phase off the list. -/
def NoStaleResume (c : Config τ (Shared τ) (Local τ)) (t : τ) (_ : Act) : Prop :=
  (c.loc t).swapping = true → ∀ u, (c.loc u).current c.shared = false

instance (c : Config τ (Shared τ) (Local τ)) (t : τ) (a : Act) : Decidable (NoStaleResume c t a) :=
  inferInstanceAs (Decidable ((c.loc t).swapping = true → ∀ u, (c.loc u).current c.shared = false))

variable {c : Config τ (Shared τ) (Local τ)} {t : τ} {a : Act} {s : Shared τ} {l : Local τ}

omit [DecidableEq τ] [Fintype τ] in
/-- Taking other tasks off the list, or queueing them, leaves a participant where it
stands in its phase. -/
theorem Local.Ok.of_waiters {p : ℕ} {q q' : Queue τ} (h : l.Ok p q)
    (hf : ∀ sp ∈ q.waiters, l.view.stage = .pushed sp → sp ∉ q'.waiters → l.arrivals = p) :
    l.Ok p q' := by
  obtain ⟨n, w, pc⟩ := l
  obtain ⟨hw, h⟩ := h
  refine ⟨hw, ?_⟩
  cases pc with
  | waitIf token wi =>
    obtain ⟨ha, hp, htok, hfree⟩ := h
    refine ⟨ha, hp, htok, fun hq' => ?_⟩
    cases wi with
    | unlockQueued sp | queued sp =>
      by_cases hsp : sp ∈ q.waiters
      · exact hf sp hsp rfl hq'
      · exact hfree hsp
    | _ => exact hfree hq'
  | arrive k a => cases a <;> exact h
  | _ => exact h

omit [Fintype τ] in
/-- A waiter with an old token comes from the phase before. -/
theorem Local.Ok.arrivals_of_stale (h : l.Ok s.phases s.waiters)
    (hphase : s.phase = UInt8.ofNat s.phases) (hcur : l.current s = false) {sp : SuspendPoint τ}
    (hsp : sp ∈ s.waiters.waiters) (hst : l.view.stage = .pushed sp) : l.arrivals = s.phases := by
  obtain ⟨n, w, pc⟩ := l
  cases pc with
  | waitIf token wi =>
    obtain ⟨-, ha, hp, htok, -⟩ := h
    have hne : token ≠ s.phase := by
      cases wi <;> simp_all [Local.view, WaitIf.view, Local.current]
    refine hp.resolve_left fun hw => hne ?_
    rw [htok, hw, hphase]
  | arrive k a => cases a <;> simp [Local.view, View.idle] at hst
  | _ => simp [Local.view, View.idle] at hst

/-- A completing task is the only one. -/
theorem Inv.completing_eq_zero (h : Inv c) (ht : (c.loc t).completing = 1) {u : τ} (hu : u ≠ t) :
    (c.loc u).completing = 0 := by
  have := add_le_total Local.completing c.loc hu
  have := h.unique
  omega

omit [DecidableEq τ] in
/-- While a phase is being completed everybody has arrived in it. -/
theorem Inv.lagging_eq_zero (h : Inv c) (ht : (c.loc t).completing = 1) (u : τ) :
    (c.loc u).lagging c.shared.phases = 0 := by
  have := le_total Local.completing c.loc t
  exact total_eq_zero.1 (h.arrived (by omega)) u

/-- A step leaves every other participant where it may stand. -/
theorem Step.ok_other (hs : Step t c.shared (c.loc t) s l) (h : Inv c)
    (hok : NoStaleResume c t a) {u : τ} (hu : u ≠ t) : (c.loc u).Ok s.phases s.waiters := by
  have hu' := h.ok u
  have hcomp := fun ht => h.completing_eq_zero (t := t) ht hu
  have hlag := fun ht => h.lagging_eq_zero (t := t) ht u
  unfold NoStaleResume at hok
  generalize c.loc t = l₀ at hs hok hcomp hlag
  cases hs with
  | storePhase => exact hu'.advance (hlag rfl) (hcomp rfl)
  | wait hw =>
    exact hu'.of_waiters fun sp hsp _ hn => absurd ((WaitIf.step_moves hw).mem_waiters hsp) hn
  | waited hw =>
    exact hu'.of_waiters fun sp hsp _ hn => absurd ((WaitIf.step_moves hw).mem_waiters hsp) hn
  | resumeAll hr =>
    rcases ResumeAll.step_swaps hr with ⟨hq, -⟩ | ⟨rfl, -⟩
    · exact hu'.of_waiters fun sp hsp _ hn => absurd (by rwa [hq]) hn
    · refine hu'.of_waiters fun sp hsp hst _ => ?_
      exact hu'.arrivals_of_stale h.phase (hok rfl u) hsp hst
  | _ => exact hu'

omit [Fintype τ] in
/-- A task is freed by a re-check that came out false. -/
theorem freed_step {pred : Bool} {q q' : Queue τ} {wi r : WaitIf τ}
    (hw : wi.step t pred q = some (q', some r)) (hf : freed q' r) : pred = false ∨ freed q wi := by
  cases wi with
  | fastPath =>
    cases pred with
    | false => exact .inl rfl
    | true =>
      obtain ⟨rfl, rfl⟩ := by simpa [WaitIf.step] using hw
      exact hf.elim
  | recheck sp =>
    cases pred with
    | false => exact .inl rfl
    | true =>
      obtain ⟨rfl, rfl⟩ := by simpa [WaitIf.step] using hw
      exact hf.elim
  | lock sp =>
    obtain ⟨q₁, hq, he⟩ := Option.map_eq_some_iff.1 hw
    obtain ⟨rfl, rfl⟩ := by simpa using he
    exact hf.elim
  | suspend =>
    obtain ⟨rfl, rfl⟩ := by simpa [WaitIf.step] using hw
    exact hf.elim
  | pushBack sp =>
    obtain ⟨rfl, rfl⟩ := by simpa [WaitIf.step] using hw
    simp [freed] at hf
  | unlockQueued sp =>
    obtain ⟨rfl, rfl⟩ := by simpa [WaitIf.step] using hw
    exact .inr hf
  | unlockResume sp | resume sp | selfResumed sp => exact .inr trivial
  | queued sp =>
    simp only [WaitIf.step] at hw
    split at hw <;> simp at hw

/-- A task that returns from `wait_if` has seen the predicate false or was freed. -/
theorem freed_of_return {pred : Bool} {q q' : Queue τ} {v : τ → View τ} {wi : WaitIf τ}
    (hL : Ledger q v) (hw : wi.step t pred q = some (q', none)) : pred = false ∨ freed q wi := by
  cases wi with
  | fastPath =>
    cases pred with
    | false => exact .inl rfl
    | true => simp [WaitIf.step] at hw
  | queued sp =>
    simp only [WaitIf.step] at hw
    split at hw
    · exact .inr fun hsp => hL.not_placed_of_resumed ‹_› (.inl hsp)
    · simp at hw
  | selfResumed sp => exact .inr trivial
  | lock sp =>
    obtain ⟨q₁, -, he⟩ := Option.map_eq_some_iff.1 hw
    simp at he
  | _ => simp [WaitIf.step] at hw

omit [DecidableEq τ] [Fintype τ] in
/-- The place after `arrive()` of a participant that has arrived. -/
theorem Local.ok_pc {p n w : ℕ} {q : Queue τ} {k : After} {phase : UInt8} (hn : n = w + 1)
    (hw : w ≤ p) (hp : w = p ∨ n = p ∨ k = .drop) (hph : phase = UInt8.ofNat w) :
    Local.Ok p q ⟨n, w, k.pc phase⟩ := by
  refine ⟨hw, ?_⟩
  cases k with
  | drop => trivial
  | _ => exact ⟨hn, by simpa using hp, hph⟩

omit [DecidableEq τ] [Fintype τ] in
/-- The place after a wait for the phase before. -/
theorem Local.ok_outside {p n w : ℕ} {q : Queue τ} (hn : n = w + 1) (hp : n = p) :
    Local.Ok p q ⟨n, w + 1, .outside⟩ :=
  ⟨(hn.symm.trans hp).le, hn, hn.symm.trans hp⟩

/-- A step takes its own participant to where it may stand. -/
theorem Step.ok_self (hs : Step t c.shared (c.loc t) s l) (h : Inv c)
    (hL : Ledger c.shared.waiters fun t => (c.loc t).view) : l.Ok s.phases s.waiters := by
  have ht := h.ok t
  generalize c.loc t = l₀ at hs ht
  -- a token that is not the current phase belongs to the one before
  have hold : ∀ {n w : ℕ} {p : UInt8}, n = w + 1 → (w = c.shared.phases ∨ n = c.shared.phases) →
      p = UInt8.ofNat w → c.shared.phase ≠ p → n = c.shared.phases := by
    intro n w p hn hp htok hne
    refine hp.resolve_left fun hw => hne ?_
    rw [h.phase, htok, hw]
  cases hs with
  | callArrive | callDrop | callWait | dropSub | completion | loadInitial | storeExpected => exact ht
  | load =>
    obtain ⟨hw, ha, hp⟩ := ht
    exact ⟨hw, ha, hp, by rw [h.phase, ← hp]⟩
  | takesLast hs =>
    obtain ⟨hw, ha, hp, hph⟩ := ht
    exact ⟨hw, congrArg (· + 1) ha, hp, hph⟩
  | takesOne hs =>
    obtain ⟨hw, ha, hp, hph⟩ := ht
    exact Local.ok_pc (congrArg (· + 1) ha) hw (.inl hp) hph
  | storePhase =>
    obtain ⟨hw, ha, hp, hph⟩ := ht
    simp only at hw ha hp
    exact ⟨by simp only; omega, ha, by simp only; omega, .inr (by simp only; omega), hph⟩
  | resumeAll hr =>
    rename_i k p r q o
    obtain ⟨hw, ha, hle, hp, hph⟩ := ht
    cases o with
    | none => exact Local.ok_pc ha hw (.inr hp.symm) hph
    | some r => exact ⟨hw, ha, hle, hp, hph⟩
  | waitReturns hprev =>
    obtain ⟨hw, ha, hp, htok⟩ := ht
    refine Local.ok_outside ha (hold ha hp htok fun heq => ?_)
    simp only at htok
    rw [htok, h.phase] at hprev heq
    exact previous_ofNat hprev (ofNat_eq_ofNat.1 heq).symm
  | waitGoesOn =>
    obtain ⟨hw, ha, hp, htok⟩ := ht
    exact ⟨hw, ha, hp, htok, False.elim⟩
  | wait hw' =>
    obtain ⟨hw, ha, hp, htok, hf⟩ := ht
    refine ⟨hw, ha, hp, htok, fun hfr => ?_⟩
    rcases freed_step hw' hfr with hpred | hfr
    · exact hold ha hp htok (by simpa using hpred)
    · exact hf hfr
  | waited hw' =>
    obtain ⟨hw, ha, hp, htok, hf⟩ := ht
    refine Local.ok_outside ha ?_
    rcases freed_of_return hL hw' with hpred | hfr
    · exact hold ha hp htok (by simpa using hpred)
    · exact hf hfr

/-- The others restore nothing while a task completes the phase. -/
theorem Inv.restores_alone (h : Inv c) (ht : (c.loc t).completing = 1) {u : τ} (hu : u ≠ t)
    (e n : ℤ) : (c.loc u).Restores e n :=
  restores_of_not_completing (h.completing_eq_zero ht hu)

omit [DecidableEq τ] in
/-- `m_initial_expected` is then the number of participants left. -/
theorem Inv.initial_of_completing (h : Inv c) (ht : (c.loc t).completing = 1) :
    c.shared.initialExpected = total Local.alive c.loc := by
  rw [h.initial]
  exact congrArg _ (Finset.sum_congr rfl fun u _ => (h.ok u).counted (h.lagging_eq_zero ht u))

omit [DecidableEq τ] in
/-- All of them are to arrive in the next phase. -/
theorem Inv.lagging_succ_of_completing (h : Inv c) (ht : (c.loc t).completing = 1) :
    total (Local.lagging (c.shared.phases + 1)) c.loc = total Local.alive c.loc :=
  Finset.sum_congr rfl fun u _ => (h.ok u).lagging (h.lagging_eq_zero ht u)

/-- A step that changes neither who is to arrive nor who completes the phase. -/
theorem Inv.keeps (h : Inv c) {q : Queue τ} {i : ℤ} {m : ℕ}
    (hok : ∀ u, (Function.update c.loc t l u).Ok c.shared.phases q)
    (hc : l.completing = (c.loc t).completing)
    (hl : l.lagging c.shared.phases = (c.loc t).lagging c.shared.phases)
    (ha : l.alive = (c.loc t).alive)
    (hi : i = total Local.counted (Function.update c.loc t l))
    (hm : m = c.shared.phases + total Local.completed (Function.update c.loc t l))
    (hres : l.Restores c.shared.expected (total Local.alive c.loc)) :
    Inv ⟨{ c.shared with waiters := q, initialExpected := i, completions := m },
      Function.update c.loc t l⟩ := by
  have hc' := total_update_eq hc
  have hl' := total_update_eq hl
  refine ⟨h.phase, hok, ?_, ?_, ?_, hi, ?_, hm⟩
  · simpa only [hc'] using h.unique
  · simpa only [hc', hl'] using h.arrived
  · simpa only [hc', hl'] using h.expected
  · simp only [total_update_eq ha]
    exact (Function.forall_update_iff c.loc fun _ l => l.Restores _ _).2
      ⟨hres, fun u _ => h.restores u⟩

/-- A step that leaves all the accounts as they are. -/
theorem Inv.quiet (h : Inv c) {q : Queue τ}
    (hok : ∀ u, (Function.update c.loc t l u).Ok c.shared.phases q)
    (hc : l.completing = (c.loc t).completing)
    (hl : l.lagging c.shared.phases = (c.loc t).lagging c.shared.phases)
    (ha : l.alive = (c.loc t).alive) (hn : l.counted = (c.loc t).counted)
    (hd : l.completed = (c.loc t).completed)
    (hres : l.Restores c.shared.expected (total Local.alive c.loc)) :
    Inv ⟨{ c.shared with waiters := q }, Function.update c.loc t l⟩ := by
  refine h.keeps hok hc hl ha ?_ ?_ hres
  · rw [total_update_eq hn, h.initial]
  · rw [total_update_eq hd, h.completions]

/-- A participant takes itself off `m_initial_expected`. -/
theorem Inv.dropSub (h : Inv c) {n w : ℕ} (ht : c.loc t = ⟨n, w, .dropSub⟩)
    (hok : ∀ u, (Function.update c.loc t ⟨n, w, .arrive .drop .load⟩ u).Ok c.shared.phases
      c.shared.waiters) :
    Inv ⟨{ c.shared with initialExpected := c.shared.initialExpected - 1 },
      Function.update c.loc t ⟨n, w, .arrive .drop .load⟩⟩ := by
  have hn := total_update Local.counted c.loc t ⟨n, w, .arrive .drop .load⟩
  have hd := total_update Local.completed c.loc t ⟨n, w, .arrive .drop .load⟩
  rw [ht] at hn hd
  simp only [Local.counted, Local.completed, add_zero] at hn hd
  refine h.keeps hok (ht ▸ rfl) (ht ▸ rfl) (ht ▸ rfl) ?_ ?_ trivial
  · have := h.initial
    omega
  · rw [hd]
    exact h.completions

/-- A participant arrives, and the last one goes on to complete the phase. -/
theorem Inv.decrement (h : Inv c) {k : After} {p : UInt8} {n w : ℕ}
    (ht : c.loc t = ⟨n, w, .arrive k (.fetchSub p)⟩)
    (hok : ∀ u, (Function.update c.loc t l u).Ok c.shared.phases c.shared.waiters)
    (ha : l.arrivals = n + 1) (hn : l.counted = (c.loc t).counted)
    (hc : l.completing = if c.shared.expected = 1 then 1 else 0)
    (hd : l.completed = (c.loc t).completed) (hres : ∀ e n, l.Restores e n) :
    Inv ⟨{ c.shared with expected := c.shared.expected - 1 }, Function.update c.loc t l⟩ := by
  have hc' := total_update Local.completing c.loc t l
  have hl' := total_update (Local.lagging c.shared.phases) c.loc t l
  have hle := le_total (Local.lagging c.shared.phases) c.loc t
  obtain ⟨-, hnw, hwp, -⟩ : (⟨n, w, .arrive k (.fetchSub p)⟩ : Local τ).Ok c.shared.phases
      c.shared.waiters := ht ▸ h.ok t
  -- the task was to arrive, so no phase is being completed
  have hlag : (c.loc t).lagging c.shared.phases = 1 := ht ▸ lagging_fetchSub k p (hnw.trans hwp)
  have hcomp : (c.loc t).completing = 0 := ht ▸ rfl
  have hlag' : l.lagging c.shared.phases = 0 := if_neg (by simp only at hnw hwp; omega)
  have hzero : total Local.completing c.loc = 0 := by
    by_contra hne
    have := h.arrived (Nat.pos_of_ne_zero hne)
    omega
  have hexp := h.expected hzero
  refine ⟨h.phase, hok, ?_, fun hpos => ?_, fun hz => ?_, ?_, ?_, ?_⟩
  · simp only
    split_ifs at hc <;> omega
  · simp only at hpos ⊢
    split_ifs at hc <;> omega
  · simp only at hz ⊢
    omega
  · simpa only [total_update_eq hn] using h.initial
  · exact (Function.forall_update_iff c.loc fun _ l => l.Restores _ _).2
      ⟨hres _ _, fun u _ => restores_of_not_completing (total_eq_zero.1 hzero u)⟩
  · simpa only [total_update_eq hd] using h.completions

/-- The completion function returns. -/
theorem Inv.completion (h : Inv c) {k : After} {p : UInt8} {n w : ℕ}
    (ht : c.loc t = ⟨n, w, .arrive k (.completion p)⟩)
    (hok : ∀ u, (Function.update c.loc t ⟨n, w, .arrive k (.loadInitial p)⟩ u).Ok
      c.shared.phases c.shared.waiters) :
    Inv ⟨{ c.shared with completions := c.shared.completions + 1 },
      Function.update c.loc t ⟨n, w, .arrive k (.loadInitial p)⟩⟩ := by
  have hd := total_update Local.completed c.loc t ⟨n, w, .arrive k (.loadInitial p)⟩
  have hn : (⟨n, w, .arrive k (.loadInitial p)⟩ : Local τ).counted = (c.loc t).counted := by
    rw [ht]
    cases k <;> rfl
  rw [ht] at hd
  simp only [Local.completed, add_zero] at hd
  refine h.keeps hok (ht ▸ rfl) ?_ ?_ ?_ ?_ trivial
  · rw [ht]
    cases k <;> rfl
  · rw [ht]
    cases k <;> rfl
  · rw [total_update_eq hn]
    exact h.initial
  · have := h.completions
    omega

/-- The completing task restores `m_expected`. -/
theorem Inv.restore (h : Inv c) {k : After} {p : UInt8} {n w : ℕ} {m : ℤ}
    (ht : c.loc t = ⟨n, w, .arrive k (.storeExpected p m)⟩)
    (hok : ∀ u, (Function.update c.loc t ⟨n, w, .arrive k (.storePhase p)⟩ u).Ok
      c.shared.phases c.shared.waiters) :
    Inv ⟨{ c.shared with expected := m },
      Function.update c.loc t ⟨n, w, .arrive k (.storePhase p)⟩⟩ := by
  have hcomp : (c.loc t).completing = 1 := ht ▸ rfl
  have hc : (⟨n, w, .arrive k (.storePhase p)⟩ : Local τ).completing = (c.loc t).completing := ht ▸ rfl
  have hd : (⟨n, w, .arrive k (.storePhase p)⟩ : Local τ).completed = (c.loc t).completed := ht ▸ rfl
  have hl : (⟨n, w, .arrive k (.storePhase p)⟩ : Local τ).lagging c.shared.phases =
      (c.loc t).lagging c.shared.phases := by
    rw [ht]
    cases k <;> rfl
  have hn : (⟨n, w, .arrive k (.storePhase p)⟩ : Local τ).counted = (c.loc t).counted := by
    rw [ht]
    cases k <;> rfl
  have ha : (⟨n, w, .arrive k (.storePhase p)⟩ : Local τ).alive = (c.loc t).alive := by
    rw [ht]
    cases k <;> rfl
  have hm : m = total Local.alive c.loc := by
    have := h.restores t
    rwa [ht] at this
  have hpos := le_total Local.completing c.loc t
  refine ⟨h.phase, hok, ?_, ?_, fun hz => ?_, ?_, ?_, ?_⟩
  · simpa only [total_update_eq hc] using h.unique
  · simpa only [total_update_eq hc, total_update_eq hl] using h.arrived
  · simp only [total_update_eq hc] at hz
    omega
  · simpa only [total_update_eq hn] using h.initial
  · simp only [total_update_eq ha]
    exact (Function.forall_update_iff c.loc fun _ l => l.Restores _ _).2
      ⟨hm, fun u hu => h.restores_alone hcomp hu _ _⟩
  · simpa only [total_update_eq hd] using h.completions

/-- The completing task advances the phase, in which everybody left is to arrive. -/
theorem Inv.advance (h : Inv c) {k : After} {p : UInt8} {n w : ℕ}
    (ht : c.loc t = ⟨n, w, .arrive k (.storePhase p)⟩)
    (hok : ∀ u, (Function.update c.loc t ⟨n, w, .arrive k (.resumeAll p .lock)⟩ u).Ok
      (c.shared.phases + 1) c.shared.waiters) :
    Inv ⟨{ c.shared with phase := p + 1, phases := c.shared.phases + 1 },
      Function.update c.loc t ⟨n, w, .arrive k (.resumeAll p .lock)⟩⟩ := by
  have hc := total_update Local.completing c.loc t ⟨n, w, .arrive k (.resumeAll p .lock)⟩
  have hd := total_update Local.completed c.loc t ⟨n, w, .arrive k (.resumeAll p .lock)⟩
  have hcomp : (c.loc t).completing = 1 := ht ▸ rfl
  have hunique := h.unique
  have hnext := h.lagging_succ_of_completing hcomp
  obtain ⟨-, -, hwp, hp⟩ : (⟨n, w, .arrive k (.storePhase p)⟩ : Local τ).Ok c.shared.phases
      c.shared.waiters := ht ▸ h.ok t
  have hl : (⟨n, w, .arrive k (.resumeAll p .lock)⟩ : Local τ).lagging (c.shared.phases + 1) =
      (c.loc t).lagging (c.shared.phases + 1) := by
    rw [ht]
    cases k <;> rfl
  have hn : (⟨n, w, .arrive k (.resumeAll p .lock)⟩ : Local τ).counted = (c.loc t).counted := by
    rw [ht]
    cases k <;> rfl
  have hexp : c.shared.expected = total Local.alive c.loc := by
    have := h.restores t
    rwa [ht] at this
  rw [ht] at hc hd
  simp only [Local.completing, Local.completed, add_zero] at hc hd
  refine ⟨?_, hok, ?_, fun hpos => ?_, fun _ => ?_, ?_, ?_, ?_⟩
  · simp only at hwp hp ⊢
    rw [hp, hwp, ofNat_add_one]
  · simp only
    omega
  · simp only at hpos
    omega
  · simp only [total_update_eq hl]
    omega
  · simpa only [total_update_eq hn] using h.initial
  · exact (Function.forall_update_iff c.loc fun _ l => l.Restores _ _).2
      ⟨trivial, fun u hu => h.restores_alone hcomp hu _ _⟩
  · have := h.completions
    simp only
    omega

/-- A step that takes no waiter of the current phase off the list keeps the invariant. -/
theorem inv_step (hs : Step t c.shared (c.loc t) s l) (h : Inv c)
    (hL : Ledger c.shared.waiters fun t => (c.loc t).view) (hok : NoStaleResume c t a) :
    Inv ⟨s, Function.update c.loc t l⟩ := by
  have hok' : ∀ u, (Function.update c.loc t l u).Ok s.phases s.waiters :=
    (Function.forall_update_iff c.loc fun _ l => l.Ok _ _).2
      ⟨hs.ok_self h hL, fun u hu => hs.ok_other h hok hu⟩
  generalize hl : c.loc t = l₀ at hs
  cases hs with
  | @callArrive _ _ k hk =>
    refine h.quiet hok' (hl ▸ rfl) ?_ ?_ ?_ (hl ▸ rfl) trivial
    all_goals
      rw [hl]
      cases k with
      | drop => exact absurd rfl hk
      | _ => rfl
  | callDrop | callWait | waitGoesOn | wait | waitReturns | waited =>
    exact h.quiet hok' (hl ▸ rfl) (hl ▸ rfl) (hl ▸ rfl) (hl ▸ rfl) (hl ▸ rfl) trivial
  | dropSub => exact h.dropSub hl hok'
  | @load _ _ k =>
    refine h.quiet hok' (hl ▸ rfl) ?_ ?_ ?_ (hl ▸ rfl) trivial
    all_goals
      rw [hl]
      cases k <;> rfl
  | @takesLast _ _ k _ hs =>
    refine h.decrement hl hok' rfl ?_ (if_pos hs).symm (hl ▸ rfl) fun _ _ => trivial
    rw [hl]
    cases k <;> rfl
  | @takesOne _ _ k _ hs =>
    refine h.decrement hl hok' rfl ?_ ?_ ?_ fun _ _ => ?_
    · rw [hl]
      cases k <;> rfl
    · rw [if_neg hs]
      cases k <;> rfl
    · rw [hl]
      cases k <;> rfl
    · cases k <;> trivial
  | completion => exact h.completion hl hok'
  | @loadInitial _ _ k =>
    have hcomp : (c.loc t).completing = 1 := hl ▸ rfl
    refine h.quiet hok' (hl ▸ rfl) ?_ ?_ ?_ (hl ▸ rfl) (h.initial_of_completing hcomp)
    all_goals
      rw [hl]
      cases k <;> rfl
  | storeExpected => exact h.restore hl hok'
  | storePhase => exact h.advance hl hok'
  | @resumeAll _ _ k _ _ _ o hr =>
    refine h.quiet hok' ?_ ?_ ?_ ?_ ?_ (by cases o <;> cases k <;> trivial)
    all_goals
      rw [hl]
      cases o <;> cases k <;> rfl

omit [DecidableEq τ] in
/-- A new barrier satisfies it. -/
theorem inv_start : Inv (start τ) where
  phase := rfl
  ok _ := ⟨le_rfl, rfl, rfl⟩
  unique := (total_const_zero rfl).le.trans (Nat.zero_le 1)
  arrived h := absurd h (by simp [start, total, Local.completing])
  expected _ := by simp [start, total, Local.lagging, Local.alive, Local.dropped]
  initial := by simp [start, total, Local.counted]
  restores _ := trivial
  completions := by simp [start, total, Local.completed]

/-- The invariant holds in every configuration of such a run. -/
theorem inv_of_reach (h : Reach next NoStaleResume (start τ) c) : Inv c :=
  h.invariant inv_start fun _ _ _ _ _ hr hi hok hn =>
    inv_step (step_of_next hn) hi (ledger hr) hok

/-- **When the barrier releases nobody early.**  In every configuration of a run in
which no `resume_all` takes a waiter of the current phase, as many waits of a
participant have returned as every participant that has not dropped out has
arrived, and as the completion function has returned, at most; and no wait for the
current phase has. -/
theorem no_early_release (h : Reach next NoStaleResume (start τ) c) (t : τ) :
    (∀ u, (c.loc u).dropped = false → (c.loc t).waits ≤ (c.loc u).arrivals) ∧
      (c.loc t).waits ≤ c.shared.completions ∧ (c.loc t).waits ≤ c.shared.phases := by
  have hI := inv_of_reach h
  have hw := (hI.ok t).1
  refine ⟨fun u hu => ?_, ?_, hw⟩
  · rcases (hI.ok u).arrivals hu with ha | ha <;> omega
  · rw [hI.completions]
    omega

/-- Task `0` arrives and queues, task `1` completes the phase and resumes it, and
both have waited. -/
def onePhase : List (Fin 2 × Act) :=
  turns [(0, 1, .arriveAndWait), (0, 9, .step), (1, 1, .arriveAndWait), (1, 13, .step), (0, 1, .step)]

/-- The theorem where every participant has waited once. -/
theorem no_early_release_one_phase :
    ∃ c, (start (Fin 2)).exec next onePhase = some c ∧ (c.loc 0).waits = 1 ∧
      (c.loc 1).waits = 1 ∧ (c.loc 0).waits ≤ c.shared.completions := by
  refine ⟨_, rfl, rfl, rfl, ?_⟩
  have hreach : Reach next NoStaleResume (start (Fin 2)) _ :=
    reach_of_exec (l := onePhase) rfl (by decide)
  exact (no_early_release hreach 0).2.1

/-- Task `0` arrives; task `1` completes the phase and is about to take the list.
Task `0` passes by the fast path, arrives again and queues; task `1` resumes it. -/
def stale : List (Fin 2 × Act) :=
  turns [(0, 1, .arriveAndWait), (0, 2, .step), (1, 1, .arriveAndWait), (1, 6, .step), (0, 1, .step),
    (0, 1, .arriveAndWait), (0, 9, .step), (1, 6, .step), (0, 1, .step)]

/-- **A wait returns early**: the second wait of task `0` has returned, and task
`1` has arrived once and not dropped out. -/
theorem released_early : ¬∀ c, Reachable next (start (Fin 2)) c →
    ∀ t u, (c.loc u).dropped = false → (c.loc t).waits ≤ (c.loc u).arrivals := by
  intro hall
  have hreach : Reachable next (start (Fin 2)) _ := reachable_of_exec (l := stale) rfl
  exact absurd (hall _ hreach 0 1 rfl) (by decide)

end Barrier
end CoopSync
