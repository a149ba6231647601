/-
# The completion function runs once in each phase

A call takes itself for the last one when the count it finds is its update.  Between the
decrement to zero and the store of the next count an `arrive(0)` finds that too, and after
the store a call of the old phase may find it again: the completion function runs twice
(`completed_twice`).  A call that finds it after `m_phase` has advanced completes a phase
it does not belong to, and its own store leaves `m_phase` as it is.

That is the only way.  In a run in which a call that finds its update in `m_expected`
takes something off it, has read the current `m_phase` and finds no other such call on its
way to it, the completion function is called once in every phase, in order, by a call of
that phase, and has returned before the phase advances (`Completion.log`).  Whoever waits
with a token of a phase waits for that store, unless a late `resume_all` takes it off the
queue (`Barrier.released_early`).

The phase of a call, and of its token, is the one it has read (`Call.number`), not the one
it began in.
-/

import CoopSync.Barrier.Accounting
import CoopSync.Barrier.Phases

namespace CoopSync
namespace Barrier
namespace Clients

open WaitQueue

variable {τ : Type*}

/-- One for a completing task whose completion function has returned. -/
def Pc.completed : Pc τ → ℕ
  | .arrive _ (.loadInitial _) | .arrive _ (.storeExpected _ _) | .arrive _ (.storePhase _) => 1
  | _ => 0

/-- A call that has returned is not completing a phase. -/
@[simp] theorem enter_completed (tok : Token) (k : After) :
    (After.enter tok k : Pc τ).completed = 0 := by
  cases k <;> rfl

/-- Who has called the completion function is completing a phase. -/
theorem completed_le_completing (l : Pc τ) : l.completed ≤ l.completing := by
  unfold Pc.completed
  split <;> simp [Pc.completing]

/-- The call whose decrement of `m_expected` is the next step. -/
def Pc.decrements : Pc τ → Option Call
  | .arrive call (.fetchSub _) => some call
  | _ => none

/-- The update is one that the documentation and the assertions of `arrive` admit, where
the call takes it off. -/
def WithinCount (c : Config τ (Shared τ) (Pc τ)) (t : τ) : Prop :=
  ∀ call ∈ (c.loc t).decrements, 0 ≤ call.update ∧ call.update ≤ c.shared.expected

instance (c : Config τ (Shared τ) (Pc τ)) (t : τ) : Decidable (WithinCount c t) :=
  inferInstanceAs (Decidable (∀ call ∈ (c.loc t).decrements, _))

/-- A call whose update is all that is expected takes something off and has read the
current `m_phase`, and no other such call is between its decrement and its store to
`m_phase`. -/
def LastAlone (c : Config τ (Shared τ) (Pc τ)) (t : τ) : Prop :=
  ∀ call ∈ (c.loc t).decrements, call.update = c.shared.expected →
    0 < call.update ∧ call.number = c.shared.number ∧ ∀ u, (c.loc u).completing = 0

/-- The task is about to take the whole list. -/
def Pc.swapping : Pc τ → Bool
  | .arrive _ (.resumeAll _ .swap) => true
  | _ => false

variable [DecidableEq τ]

/-- The task is in the list, and its token is of the current phase: `arrive` has read the
current `m_phase` for it. -/
def Pc.current (s : Shared τ) : Pc τ → Bool
  | .waitIf tok (.unlockQueued sp) | .waitIf tok (.queued sp) =>
    decide (sp ∈ s.waiters.waiters) && decide (tok.call.number = s.number)
  | _ => false

/-- No `resume_all` takes a task with a token of the current phase off the list before the
completion function of the phase has returned. -/
def NoStaleResume (c : Config τ (Shared τ) (Pc τ)) (t : τ) : Prop :=
  (c.loc t).swapping = true → c.shared.completions ≤ c.shared.number →
    ∀ u, (c.loc u).current c.shared = false

/-- A step that the documentation admits, in which nobody but one call of the phase
completes it and no late `resume_all` takes a waiter of it. -/
def CompletesAlone (c : Config τ (Shared τ) (Pc τ)) (t : τ) (_ : Act) : Prop :=
  WithinCount c t ∧ LastAlone c t ∧ NoStaleResume c t

instance [Fintype τ] (c : Config τ (Shared τ) (Pc τ)) (t : τ) (a : Act) :
    Decidable (CompletesAlone c t a) :=
  inferInstanceAs (Decidable ((∀ call ∈ (c.loc t).decrements, _) ∧
    (∀ call ∈ (c.loc t).decrements, _) ∧
    ((c.loc t).swapping = true → c.shared.completions ≤ c.shared.number →
      ∀ u, (c.loc u).current c.shared = false)))

/-- The phase that a call has read has begun, and if it is the current one the byte read is
`m_phase`. -/
def Fresh (s : Shared τ) (call : Call) (p : UInt8) : Prop :=
  call.number ≤ s.number ∧ (call.number = s.number → p = s.phase)

/-- A call that has taken all that was expected, and something, off in the current phase. -/
def Call.Completes (call : Call) (k : ℕ) : Prop :=
  call.before = call.update ∧ 0 < call.before ∧ call.number = k

/-- What holds of a task where it stands: the phase it has read has begun, a completing call
is of the current phase and has taken off all that was expected, and a task that will
return from `wait` waits for a phase whose completion function has returned. -/
def Pc.Stands (s : Shared τ) : Pc τ → Prop
  | .dropSub _ | .arrive _ .load => True
  | .arrive call (.fetchSub p) | .arrive call (.resumeAll p _) => Fresh s call p
  | .arrive call (.completion p) | .arrive call (.loadInitial p)
  | .arrive call (.storeExpected p _) | .arrive call (.storePhase p) =>
    Fresh s call p ∧ call.Completes s.number
  | .waitLoad tok => Fresh s tok.call tok.phase
  | .waitIf tok w =>
    Fresh s tok.call tok.phase ∧ (freed s.waiters w → tok.call.number < s.completions)
  | .outside => True

variable [Fintype τ]

/-- The completion function has returned once in every phase that is over, and once more
while the task that has called it is on its way to `m_phase`. -/
structure Completion (c : Config τ (Shared τ) (Pc τ)) : Prop where
  unique : total Pc.completing c.loc ≤ 1
  number : c.shared.number = c.shared.phases
  completions : c.shared.completions = c.shared.number + total Pc.completed c.loc
  log : c.shared.completed.map Prod.fst = List.range c.shared.completions
  lasts : ∀ r ∈ c.shared.completed, r.2.Completes r.1
  stands : ∀ t, (c.loc t).Stands c.shared
  tokens : ∀ tok ∈ c.shared.tokens, Fresh c.shared tok.call tok.phase
  waited : ∀ tok ∈ c.shared.waited, tok.call.number < c.shared.completions

variable {c : Config τ (Shared τ) (Pc τ)} {t : τ} {a : Act} {s : Shared τ} {l : Pc τ}

omit [DecidableEq τ] [Fintype τ] in
/-- A byte that is no longer `m_phase` was read in a phase that is over. -/
theorem Fresh.lt {call : Call} {p : UInt8} (h : Fresh s call p) (hp : s.phase ≠ p) :
    call.number < s.number :=
  lt_of_le_of_ne h.1 fun he => hp (h.2 he).symm

omit [DecidableEq τ] [Fintype τ] in
/-- A phase that has begun stays begun. -/
theorem Fresh.advance {s s' : Shared τ} {call : Call} {p : UInt8} (h : Fresh s call p)
    (hn : s'.number = s.number + 1) : Fresh s' call p :=
  ⟨by have := h.1; omega, fun he => by have := h.1; omega⟩

omit [DecidableEq τ] [Fintype τ] in
/-- The next phase leaves a task that is not completing one where it stands. -/
theorem Pc.Stands.advance {s s' : Shared τ} (h : l.Stands s) (hl : l.completing = 0)
    (hn : s'.number = s.number + 1) (hc : s'.completions = s.completions)
    (hq : s'.waiters = s.waiters) : l.Stands s' := by
  cases l with
  | outside | dropSub => trivial
  | arrive call a =>
    cases a with
    | load => trivial
    | fetchSub | resumeAll => exact Fresh.advance h hn
    | completion | loadInitial | storeExpected | storePhase => simp [Pc.completing] at hl
  | waitLoad tok => exact Fresh.advance h hn
  | waitIf tok w =>
    exact ⟨h.1.advance hn, fun hf => hc ▸ h.2 (hq ▸ hf)⟩

omit [DecidableEq τ] [Fintype τ] in
/-- One more return of the completion function leaves a task where it stands. -/
theorem Pc.Stands.completion {comp : List (ℕ × Call)} (h : l.Stands s) :
    l.Stands { s with completions := s.completions + 1, completed := comp } := by
  cases l with
  | waitIf tok w => exact ⟨h.1, fun hf => Nat.lt_succ_of_lt (h.2 hf)⟩
  | arrive call a => cases a <;> exact h
  | _ => exact h

omit [DecidableEq τ] [Fintype τ] in
/-- A change of the list leaves a task where it stands unless it takes it off the list in
the phase it waits for. -/
theorem Pc.Stands.of_waiters {q : Queue τ} (h : l.Stands s)
    (hf : ∀ tok w, l = .waitIf tok w → freed q w →
      freed s.waiters w ∨ tok.call.number < s.completions) : l.Stands { s with waiters := q } := by
  cases l with
  | waitIf tok w =>
    refine ⟨h.1, fun hq => ?_⟩
    rcases hf tok w rfl hq with hs | hlt
    · exact h.2 hs
    · exact hlt
  | arrive call a => cases a <;> exact h
  | _ => exact h

omit [DecidableEq τ] [Fintype τ] in
/-- Nobody is freed by a push. -/
theorem freed_mono {q q' : Queue τ} {w : WaitIf τ} (hq : ∀ sp ∈ q.waiters, sp ∈ q'.waiters)
    (h : freed q' w) : freed q w := by
  cases w with
  | unlockQueued sp | queued sp => exact fun hsp => h (hq sp hsp)
  | _ => exact h

omit [Fintype τ] in
/-- A task taken off the list waits for a phase that is over, or for the current one when
its completion function has returned. -/
theorem Pc.Stands.taken {tok : Token} {w : WaitIf τ} {q : Queue τ}
    (h : (Pc.waitIf tok w).Stands s) (hle : s.number ≤ s.completions)
    (hcur : s.completions ≤ s.number → (Pc.waitIf tok w).current s = false)
    (hf : freed q w) : freed s.waiters w ∨ tok.call.number < s.completions := by
  have hnum := h.1.1
  cases w with
  | unlockQueued sp | queued sp =>
    by_cases hsp : sp ∈ s.waiters.waiters
    · refine .inr ?_
      by_cases hc : s.completions ≤ s.number
      · have hne : tok.call.number ≠ s.number := by simpa [Pc.current, hsp] using hcur hc
        omega
      · omega
    · exact .inl hsp
  | _ => exact .inl hf

omit [Fintype τ] in
/-- A `resume_all` that takes nobody of the current phase leaves every task where it
stands. -/
theorem Pc.Stands.of_resumeAll {r : ResumeAll τ} {q : Queue τ} {o : Option (ResumeAll τ)}
    (h : l.Stands s) (hle : s.number ≤ s.completions) (hr : r.step t s.waiters = some (q, o))
    (hcur : r = .swap → s.completions ≤ s.number → l.current s = false) :
    l.Stands { s with waiters := q } := by
  refine h.of_waiters fun tok w hl hf => ?_
  obtain rfl := hl
  rcases ResumeAll.step_swaps hr with ⟨hq, -⟩ | ⟨hsw, -⟩
  · exact .inl (freed_mono (fun sp hsp => by rwa [hq]) hf)
  · exact h.taken hle (hcur hsw) hf

omit [Fintype τ] in
/-- Nor does a `wait_if`. -/
theorem Pc.Stands.of_waitIf {w : WaitIf τ} {pred : Bool} {q : Queue τ} {o : Option (WaitIf τ)}
    (h : l.Stands s) (hw : w.step t pred s.waiters = some (q, o)) :
    l.Stands { s with waiters := q } :=
  h.of_waiters fun _ _ _ hf =>
    .inl (freed_mono (fun _ hsp => (WaitIf.step_moves hw).mem_waiters hsp) hf)

omit [DecidableEq τ] in
/-- A phase has been advanced as often as its completion function has returned, at most. -/
theorem Completion.number_le (h : Completion c) : c.shared.number ≤ c.shared.completions := by
  rw [h.completions]
  exact Nat.le_add_right ..

/-- Nobody else completes a phase. -/
theorem Completion.alone (h : Completion c) (ht : (c.loc t).completing = 1) {u : τ} (hu : u ≠ t) :
    (c.loc u).completing = 0 := by
  have := add_le_total Pc.completing c.loc hu
  have := h.unique
  omega

/-- A step leaves every other task where it stands. -/
theorem Step.stands_other (hs : Step t c.shared a (c.loc t) s l) (h : Completion c)
    (hok : CompletesAlone c t a) {u : τ} (hut : u ≠ t) : (c.loc u).Stands s := by
  have hu := h.stands u
  have ht := h.stands t
  have hstale := hok.2.2
  have halone := fun hc => h.alone (t := t) hc hut
  unfold NoStaleResume at hstale
  generalize c.loc t = l₀ at hs ht hstale halone
  cases hs with
  | completion => exact hu.completion
  | storePhase => exact hu.advance (halone rfl) (congrArg (· + 1) ht.2.2.2) rfl rfl
  | takes hs hs' =>
    obtain rfl := hs'
    exact hu
  | resumeAll hr =>
    exact hu.of_resumeAll h.number_le hr fun hsw hc => hstale (by rw [hsw]; rfl) hc u
  | resumedAll hr hs' =>
    obtain rfl := hs'
    exact hu.of_resumeAll h.number_le hr fun hsw hc => hstale (by rw [hsw]; rfl) hc u
  | waitGoesOn =>
    unfold Shared.assertCurrent
    split_ifs
    · exact hu
    · exact hu
  | wait hw => exact hu.of_waitIf hw
  | waited hw => exact hu.of_waitIf hw
  | _ => exact hu

omit [DecidableEq τ] [Fintype τ] in
/-- A call that returns leaves its task with a token of a phase that has begun. -/
theorem enter_stands {tok : Token} (h : Fresh s tok.call tok.phase) (k : After) :
    (After.enter tok k).Stands s := by
  cases k
  · trivial
  · exact h
  · trivial

/-- A step leaves its own task where it stands. -/
theorem Step.stands_self (hs : Step t c.shared a (c.loc t) s l) (h : Completion c)
    (hok : CompletesAlone c t a) : l.Stands s := by
  have ht := h.stands t
  have hlast := hok.2.1
  unfold LastAlone at hlast
  generalize c.loc t = l₀ at hs ht hlast
  cases hs with
  | callArrive | callArriveAndWait | callDrop | dropSub => trivial
  | callWait htok => exact h.tokens _ htok
  | load => exact ⟨le_rfl, fun _ => rfl⟩
  | takesLast hs =>
    obtain ⟨hpos, hnum, -⟩ := hlast _ rfl hs.symm
    exact ⟨ht, hs, hs ▸ hpos, hnum⟩
  | takes hs hs' htok =>
    obtain rfl := hs'
    obtain rfl := htok
    refine enter_stands ?_ _
    exact ht
  | completion | loadInitial | storeExpected => exact ht
  | storePhase => exact Fresh.advance ht.1 (congrArg (· + 1) ht.2.2.2)
  | resumeAll hr => exact ht
  | resumedAll hr hs' htok =>
    obtain rfl := hs'
    obtain rfl := htok
    refine enter_stands ?_ _
    exact ht
  | waitReturns => trivial
  | waitGoesOn =>
    unfold Shared.assertCurrent
    split_ifs
    · exact ⟨ht, False.elim⟩
    · exact ⟨ht, False.elim⟩
  | wait hw =>
    refine ⟨ht.1, fun hf => ?_⟩
    rcases freed_step hw hf with hp | hf
    · exact (ht.1.lt (by simpa using hp)).trans_le h.number_le
    · exact ht.2 hf
  | waited => trivial

/-- A token that `arrive` returns is of a phase that has begun; one whose wait returns is
of a phase whose completion function has returned. -/
theorem Step.tokens (hs : Step t c.shared a (c.loc t) s l) (h : Completion c)
    (hL : Ledger c.shared.waiters fun t => (c.loc t).view) :
    (∀ tok ∈ s.tokens, Fresh s tok.call tok.phase) ∧
      ∀ tok ∈ s.waited, tok.call.number < s.completions := by
  have ht := h.stands t
  generalize c.loc t = l₀ at hs ht
  cases hs with
  | takes hs hs' htok =>
    obtain rfl := hs'
    obtain rfl := htok
    exact ⟨List.forall_mem_append.2 ⟨h.tokens, List.forall_mem_singleton.2 ht⟩, h.waited⟩
  | storePhase =>
    exact ⟨fun tok htok => (h.tokens tok htok).advance (congrArg (· + 1) ht.2.2.2), h.waited⟩
  | completion => exact ⟨h.tokens, fun tok htok => Nat.lt_succ_of_lt (h.waited tok htok)⟩
  | resumedAll hr hs' htok =>
    obtain rfl := hs'
    obtain rfl := htok
    exact ⟨List.forall_mem_append.2 ⟨h.tokens, List.forall_mem_singleton.2 ht⟩, h.waited⟩
  | @waitReturns tok hp =>
    refine ⟨h.tokens, List.forall_mem_append.2 ⟨h.waited, List.forall_mem_singleton.2 ?_⟩⟩
    refine (Fresh.lt ht fun he => ?_).trans_le h.number_le
    rw [he, previous_self] at hp
    exact absurd hp (by decide)
  | waitGoesOn =>
    unfold Shared.assertCurrent
    split_ifs
    · exact ⟨h.tokens, h.waited⟩
    · exact ⟨h.tokens, h.waited⟩
  | waited hw =>
    refine ⟨h.tokens, List.forall_mem_append.2 ⟨h.waited, List.forall_mem_singleton.2 ?_⟩⟩
    rcases freed_of_return hL hw with hp | hf
    · exact (ht.1.lt (by simpa using hp)).trans_le h.number_le
    · exact ht.2 hf
  | _ => exact ⟨h.tokens, h.waited⟩

/-- No completion function has returned while one is being called. -/
theorem Completion.completed_eq_zero (h : Completion c) {call : Call} {p : UInt8}
    (hl : c.loc t = .arrive call (.completion p)) : total Pc.completed c.loc = 0 := by
  have ht : (c.loc t).completing = 1 := hl ▸ rfl
  refine total_eq_zero.2 fun u => ?_
  rcases eq_or_ne u t with rfl | hne
  · rw [hl]
    rfl
  · exact Nat.le_zero.1 ((completed_le_completing _).trans_eq (h.alone ht hne))

/-- A step keeps the accounts of the completion function. -/
theorem Completion.inv_step (hs : Step t c.shared a (c.loc t) s l) (h : Completion c)
    (hL : Ledger c.shared.waiters fun t => (c.loc t).view) (hok : CompletesAlone c t a) :
    Completion ⟨s, Function.update c.loc t l⟩ := by
  have hstands : ∀ u, (Function.update c.loc t l u).Stands s :=
    (Function.forall_update_iff c.loc fun _ l => l.Stands s).2
      ⟨hs.stands_self h hok, fun u hu => hs.stands_other h hok hu⟩
  obtain ⟨htok, hwaited⟩ := hs.tokens h hL
  have hc := total_update Pc.completing c.loc t l
  have hd := total_update Pc.completed c.loc t l
  have hct := le_total Pc.completing c.loc t
  have hdc := total_mono completed_le_completing c.loc
  have hlast := hok.2.1
  have ht := h.stands t
  have hu := h.unique
  have hn := h.completions
  have hnum := h.number
  have hlog := h.log
  unfold LastAlone at hlast
  generalize hl : c.loc t = l₀ at hs hc hd hct hlast ht
  -- the steps that do not complete a phase leave the accounts as they are
  have hsame : l.completing = l₀.completing → l.completed = l₀.completed →
      s.completions = c.shared.completions → s.number = c.shared.number →
      s.phases = c.shared.phases → s.completed = c.shared.completed →
      Completion ⟨s, Function.update c.loc t l⟩ := by
    intro hcl hdl hcs hns hps hlogs
    refine ⟨?_, ?_, ?_, ?_, ?_, hstands, htok, hwaited⟩
    · simp only
      omega
    · simp only
      omega
    · simp only
      omega
    · simp only [hlogs, hcs]
      exact hlog
    · simp only [hlogs]
      exact h.lasts
  cases hs with
  | takesLast hs =>
    have hzero : total Pc.completing c.loc = 0 := total_eq_zero.2 (hlast _ rfl hs.symm).2.2
    simp only [Pc.completing, Pc.completed] at hc hd
    refine ⟨?_, hnum, ?_, hlog, h.lasts, hstands, htok, hwaited⟩
    · simp only
      omega
    · simp only
      omega
  | takes hs hs' =>
    obtain rfl := hs'
    exact hsame (enter_completing ..) (enter_completed ..) rfl rfl rfl rfl
  | @completion call p =>
    have hzero := h.completed_eq_zero hl
    have hcs : c.shared.completions = c.shared.phases := by omega
    simp only [Pc.completing, Pc.completed] at hc hd
    refine ⟨?_, hnum, ?_, ?_, ?_, hstands, htok, hwaited⟩
    · simp only
      omega
    · simp only
      omega
    · rw [List.map_append, hlog, List.map_singleton, ← hcs, ← List.range_succ]
    · exact List.forall_mem_append.2 ⟨h.lasts, List.forall_mem_singleton.2 (hnum ▸ ht.2)⟩
  | storePhase =>
    have hcur := ht.2.2.2
    simp only [Pc.completing, Pc.completed] at hc hd hct
    refine ⟨?_, ?_, ?_, hlog, h.lasts, hstands, htok, hwaited⟩
    · simp only
      omega
    · simp only
      omega
    · simp only
      omega
  | resumedAll hr hs' =>
    obtain rfl := hs'
    exact hsame (enter_completing ..) (enter_completed ..) rfl rfl rfl rfl
  | waitGoesOn =>
    unfold Shared.assertCurrent at *
    split_ifs at * <;> exact hsame rfl rfl rfl rfl rfl rfl
  | _ => exact hsame rfl rfl rfl rfl rfl rfl

omit [DecidableEq τ] in
/-- No phase of a new barrier is over. -/
theorem completion_start {n : ℕ} : Completion (start τ n) where
  unique := by simp [start, total, Pc.completing]
  number := rfl
  completions := by simp [start, total, Pc.completed]
  log := rfl
  lasts := by simp [start]
  stands _ := trivial
  tokens := by simp [start]
  waited := by simp [start]

/-- The accounts of the completion function hold in every configuration of such a run. -/
theorem completion_of_reach {n : ℕ} (h : Reach next CompletesAlone (start τ n) c) :
    Completion c :=
  h.invariant completion_start fun _ _ _ _ _ hr hI hok hn =>
    hI.inv_step (step_of_next hn) (ledger hr) hok

/-- **When the completion function runs once in each phase.**  In every configuration of a
run in which a phase is completed by one call, which belongs to it, and no late `resume_all`
takes a waiter of the current phase, `m_phase` is the number of phases advanced; the
completion function is called, and has been called, only by calls of the phase whose
decrement took the count from a positive value to zero; it has returned once in every phase,
in order, before the phase advanced; and a task that will return, or has returned, from
`wait` has a token of a phase whose completion function has returned. -/
theorem completes_once {n : ℕ} (h : Reach next CompletesAlone (start τ n) c) :
    c.shared.phase = UInt8.ofNat c.shared.phases ∧ c.shared.number = c.shared.phases ∧
      (∀ t call p, c.loc t = .arrive call (.completion p) → call.Completes c.shared.phases) ∧
      (∀ r ∈ c.shared.completed, r.2.Completes r.1) ∧
      c.shared.completed.map Prod.fst = List.range c.shared.completions ∧
      c.shared.phases ≤ c.shared.completions ∧
      (∀ t tok w, c.loc t = .waitIf tok w → freed c.shared.waiters w →
        tok.call.number < c.shared.completions) ∧
      ∀ tok ∈ c.shared.waited, tok.call.number < c.shared.completions := by
  have hI := completion_of_reach h
  have hle : c.shared.phases ≤ c.shared.completions := hI.number ▸ hI.number_le
  refine ⟨hI.number ▸ (numbered h).phase, hI.number, fun t call p hl => ?_, hI.lasts, hI.log,
    hle, fun t tok w hl hf => ?_, hI.waited⟩
  · have ht := hI.stands t
    rw [hl] at ht
    exact hI.number ▸ ht.2
  · have ht := hI.stands t
    rw [hl] at ht
    exact ht.2 hf

/-- Task `0` arrives with nothing, waits in the queue of phase 0, and is resumed by task `1`,
which takes both expected arrivals. -/
def arriveWithNothing : List (Fin 2 × Act) :=
  turns [(0, 1, .arrive 0), (0, 2, .step), (0, 1, .wait 0), (0, 7, .step), (1, 1, .arrive 2),
    (1, 12, .step), (0, 1, .step)]

/-- The theorem where an `arrive(0)` is in time. -/
theorem completes_once_arrive_zero : ∃ c,
    (start (Fin 2) 2).exec next arriveWithNothing = some c ∧ c.shared.waited.length = 1 ∧
      c.shared.completed.map Prod.fst = [0] := by
  refine ⟨_, rfl, rfl, ?_⟩
  have hreach : Reach next CompletesAlone (start (Fin 2) 2) _ :=
    reach_of_exec (l := arriveWithNothing) rfl (by decide)
  exact (completes_once hreach).2.2.2.2.1

/-- Task `0` takes the only expected arrival and is about to call the completion function;
task `1` arrives with nothing and finds zero expected. -/
def arriveInWindow : List (Fin 2 × Act) :=
  turns [(0, 1, .arrive 1), (0, 2, .step), (1, 1, .arrive 0), (1, 2, .step), (0, 1, .step),
    (1, 1, .step)]

/-- **A phase is completed twice**: every update is one that the documentation admits. -/
theorem completed_twice : ¬∀ c, Reach next (fun c t _ => WithinCount c t) (start (Fin 2) 1) c →
    c.shared.completed.map Prod.fst = List.range c.shared.completions := by
  intro hall
  have hreach : Reach next (fun c t _ => WithinCount c t) (start (Fin 2) 1) _ :=
    reach_of_exec (l := arriveInWindow) rfl (by decide)
  exact absurd (hall _ hreach) (by decide)

/-- Task `1` has read phase 0 when task `0` completes it, and takes the only expected arrival
of phase 1; task `0` arrives again. -/
def arriveFromPhaseBefore : List (Fin 2 × Act) :=
  turns [(1, 1, .arrive 1), (1, 1, .step), (0, 1, .arrive 1), (0, 10, .step), (1, 9, .step),
    (0, 1, .arrive 1), (0, 10, .step)]

/-- A call of the phase before completes phase 1 and leaves `m_phase` at 1, where the phase
is completed again: two of the three completing calls have read phase 0. -/
example : ((start (Fin 2) 1).exec next arriveFromPhaseBefore).map
    (fun c => (c.shared.completed.map fun r => r.2.number, c.shared.phase)) =
      some ([0, 0, 1], 2) := by decide

end Clients
end Barrier
end CoopSync
