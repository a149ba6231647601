/-
# The barrier comes to rest

With no new calls the participants inside the barrier come to rest
(`barrier_comes_to_rest`): a phase is completed by one of them, which pays with its store
to `m_phase` and its `resume_all` for those it sends on.  As long as no `resume_all` takes
a waiter of the current phase, they stop only where somebody has still to come: a
participant is suspended for the current phase, and another one is outside that has not
arrived in it.

The first is `Attended` for the tokens of the waiters (`attended_of_reach`).  For the
second, `m_expected` counts those still to arrive (`Inv.expected`), and unless everybody
has dropped out there is always one, or a task that completes the phase
(`someoneToCome_of_reach`).
-/

import CoopSync.Barrier.Phases
import CoopSync.WaitQueue.Rest

namespace CoopSync
namespace Barrier

open WaitQueue

variable {τ : Type*}

/-- Where a task stands in the code of the queue. -/
def Local.place (l : Local τ) : WaitQueue.Pc τ :=
  match l.pc with
  | .arrive _ (.resumeAll _ r) => .resumeAll r
  | .waitIf _ w => .waitIf w
  | _ => .idle

/-- What a participant does on the queue is what its place in the queue's code does. -/
theorem view_eq (l : Local τ) : l.view = l.place.view := by
  obtain ⟨n, w, pc⟩ := l
  cases pc with
  | arrive k a => cases a <;> rfl
  | _ => rfl

/-- A participant that returns from `arrive()` is not in the queue's code. -/
@[simp] theorem pc_place (k : After) (phase : UInt8) (n w : ℕ) :
    (⟨n, w, k.pc phase⟩ : Local τ).place = .idle := by
  cases k <;> rfl

/-- A task that has failed its re-check waits for the current phase. -/
def Local.Still (phase : UInt8) (l : Local τ) : Prop :=
  match l.pc with
  | .waitIf token (.pushBack _) | .waitIf token (.unlockQueued _) | .waitIf token (.queued _) =>
    phase = token
  | _ => True

/-- A participant that waits with the current byte waits for the current phase. -/
theorem still_of_eq {phase : UInt8} {n w : ℕ} {wi : WaitIf τ} :
    (⟨n, w, .waitIf phase wi⟩ : Local τ).Still phase := by
  cases wi <;> trivial

/-- A participant that returns from `arrive()` waits for nothing. -/
theorem still_pc (phase token : UInt8) (k : After) (n w : ℕ) :
    (⟨n, w, k.pc token⟩ : Local τ).Still phase := by
  cases k <;> trivial

variable [DecidableEq τ]

/-- What a step does in the code of the queue. -/
theorem Step.queue {t : τ} {s s' : Shared τ} {l l' : Local τ} (h : Step t s l s' l') :
    QueueStep t (l.Still s.phase) s.waiters l.place s'.waiters l'.place := by
  cases h with
  | takesOne =>
    rw [pc_place]
    exact .stay
  | storePhase => exact .call .resumeAll
  | @resumeAll n w k p r q o hr =>
    cases o with
    | none =>
      simp only [Option.elim_none, pc_place]
      exact .resumeAll hr
    | some r' => exact .resumeAll hr
  | waitGoesOn => exact .call .waitIf
  | wait hw | waited hw =>
    refine .waitIf hw fun hp => ?_
    obtain rfl := beq_iff_eq.1 hp
    exact still_of_eq
  | _ => exact .stay

/-- Only the store of a new phase leaves a waiter behind, and it goes on to resume it. -/
theorem Step.still {t : τ} {s s' : Shared τ} {l l' : Local τ} (h : Step t s l s' l')
    (hl : l.Still s.phase) : l'.Still s'.phase ∨ 0 < l'.place.owes := by
  cases h with
  | storePhase => exact .inr Nat.one_pos
  | takesOne => exact .inl (still_pc ..)
  | @resumeAll n w k p r q o hr =>
    refine .inl ?_
    cases o with
    | none => exact still_pc ..
    | some r' => trivial
  | @wait n w p wi q r hw =>
    refine .inl ?_
    cases wi with
    | recheck sp =>
      obtain ⟨rfl, rfl⟩ := by simpa [WaitIf.step] using hw
      split_ifs with hp
      · exact hp
      · trivial
    | pushBack sp | unlockQueued sp =>
      obtain ⟨rfl, rfl⟩ := by simpa [WaitIf.step] using hw
      exact hl
    | fastPath =>
      obtain ⟨-, rfl, rfl⟩ := by simpa [WaitIf.step] using hw
      trivial
    | lock sp =>
      obtain ⟨q₁, -, he⟩ := Option.map_eq_some_iff.1 hw
      obtain ⟨rfl, rfl⟩ := by simpa using he
      trivial
    | queued sp | selfResumed sp =>
      simp only [WaitIf.step] at hw
      split at hw <;> simp at hw
    | _ =>
      obtain ⟨rfl, rfl⟩ := by simpa [WaitIf.step] using hw
      trivial
  | _ => exact .inl trivial

variable [Fintype τ] {c : Config τ (Shared τ) (Local τ)} {t : τ} {s : Shared τ} {l : Local τ}

/-! ### Whom a waiter waits for -/

/-- A task in the list, or about to be, waits for the current phase, or it is about to be
resumed. -/
def Awaited (c : Config τ (Shared τ) (Local τ)) : Prop :=
  Attended c.shared.waiters (fun t => (c.loc t).place) (fun t => (c.loc t).Still c.shared.phase)
    (∃ t, 0 < (c.loc t).place.owes)

/-- A step keeps everybody in the queue awaited. -/
theorem awaited_step (hL : Ledger c.shared.waiters fun t => (c.loc t).place.view) (h : Awaited c)
    (hs : Step t c.shared (c.loc t) s l) : Awaited ⟨s, Function.update c.loc t l⟩ := by
  have hstill (u : τ) (hu : (c.loc u).Still c.shared.phase) :
      (Function.update c.loc t l u).Still s.phase ∨ 0 < l.place.owes := by
    rcases eq_or_ne u t with rfl | hne
    · rw [Function.update_self]
      exact hs.still hu
    · rw [Function.update_of_ne hne]
      generalize c.loc t = l₀ at hs
      cases hs with
      | storePhase => exact .inr Nat.one_pos
      | _ => exact .inl hu
  have hattended := h.step_owes hL hs.queue hstill
  rwa [← place_update] at hattended

/-- Everybody in the queue is awaited in every run. -/
theorem awaited_of_reach {ok : Config τ (Shared τ) (Local τ) → τ → Act → Prop}
    (h : Reach next ok (start τ) c) : Awaited c := by
  refine h.invariant Attended.start fun c t a s l hr hi _ hn =>
    awaited_step ?_ hi (step_of_next hn)
  simpa only [view_eq] using ledger hr

/-- Unless a phase is being completed, a participant that has not dropped out is still to
arrive, or none is left. -/
def SomeoneToCome (c : Config τ (Shared τ) (Local τ)) : Prop :=
  total Local.completing c.loc = 0 → 0 < total Local.alive c.loc →
    0 < total (Local.lagging c.shared.phases) c.loc

/-- A step leaves somebody to come, unless all have dropped out. -/
theorem someoneToCome_step (hI : Inv c) (hI' : Inv ⟨s, Function.update c.loc t l⟩)
    (h : SomeoneToCome c) (hs : Step t c.shared (c.loc t) s l) :
    SomeoneToCome ⟨s, Function.update c.loc t l⟩ := by
  intro hcompleting halive
  have hexpected := hI'.expected hcompleting
  have hlast := hI.expected
  simp only at hcompleting halive hexpected ⊢
  -- a step that changes neither who is to arrive nor who completes the phase
  have hquiet (hp : s.phases = c.shared.phases) (hc : l.completing = (c.loc t).completing)
      (hl : l.lagging c.shared.phases = (c.loc t).lagging c.shared.phases)
      (ha : l.alive = (c.loc t).alive) :
      0 < total (Local.lagging s.phases) (Function.update c.loc t l) := by
    rw [total_update_eq hc] at hcompleting
    rw [total_update_eq ha] at halive
    rw [hp, total_update_eq hl]
    exact h hcompleting halive
  have hcompletes := le_total Local.completing (Function.update c.loc t l) t
  have hlag := le_total (Local.lagging c.shared.phases) c.loc t
  have halive' := total_update Local.alive c.loc t l
  have hrestores := hI.restores t
  have hok := hI.ok t
  have harrived := hI.arrived
  rw [Function.update_self] at hcompletes
  generalize c.loc t = l₀ at *
  cases hs with
  | takesLast =>
    -- the task goes on to complete the phase
    simp only [Local.completing] at hcompletes
    omega
  | @takesOne n w k p hs =>
    obtain ⟨-, hnw, hwp, -⟩ := hok
    have hone : Local.lagging c.shared.phases (⟨n, w, .arrive k (.fetchSub p)⟩ : Local τ) = 1 :=
      lagging_fetchSub k p (hnw.trans hwp)
    have hzero : total Local.completing c.loc = 0 := by
      by_contra hne
      have := harrived (Nat.pos_of_ne_zero hne)
      omega
    have := hlast hzero
    simp only at hexpected ⊢
    omega
  | @storePhase n w k p =>
    -- everybody left is to arrive in the new phase
    have hsame : (⟨n, w, .arrive k (.resumeAll p .lock)⟩ : Local τ).alive =
        (⟨n, w, .arrive k (.storePhase p)⟩ : Local τ).alive := by
      cases k <;> rfl
    have hexp : c.shared.expected = total Local.alive c.loc := hrestores
    simp only at hexpected ⊢
    omega
  | callDrop | callWait | dropSub | waitReturns | waitGoesOn | wait | waited =>
    exact hquiet rfl rfl rfl rfl
  | @callArrive n w k hk =>
    refine hquiet rfl rfl ?_ ?_
    all_goals
      cases k with
      | drop => exact absurd rfl hk
      | _ => rfl
  | @resumeAll n w k p r q o hr => cases o <;> cases k <;> exact hquiet rfl rfl rfl rfl
  | @load n w k | @completion n w k | @loadInitial n w k | @storeExpected n w k =>
    cases k <;> exact hquiet rfl rfl rfl rfl

/-- There is somebody to come in every run without a stale resume. -/
theorem someoneToCome_of_reach (h : Reach next NoStaleResume (start τ) c) : SomeoneToCome c := by
  refine h.invariant (fun _ halive => ?_) fun c t a s l hr hi hok hn => ?_
  · exact halive
  · have hI := inv_of_reach hr
    exact someoneToCome_step hI (inv_step (step_of_next hn) hI (ledger hr) hok) hi (step_of_next hn)

/-! ### Rest -/

/-- A step of a participant inside the code that takes no waiter of the current phase off
the list. -/
def Inside (c : Config τ (Shared τ) (Local τ)) (t : τ) (a : Act) : Prop :=
  a = .step ∧ NoStaleResume c t .step

/-- How often a task can still store to `m_phase` or take the list. -/
def Local.moves (l : Local τ) : ℕ :=
  l.place.debt + match l.pc with
    | .dropSub | .arrive _ .load | .arrive _ (.fetchSub _) | .arrive _ (.completion _)
    | .arrive _ (.loadInitial _) | .arrive _ (.storeExpected _ _) | .arrive _ (.storePhase _) => 2
    | _ => 0

/-- The steps after `arrive()` as long as nobody completes the phase or wakes the task. -/
def After.rank : After → ℕ
  | .keep | .drop => 0
  | .wait => 7

/-- The steps of a task as long as nobody completes the phase or wakes it. -/
def Local.rank (s : Shared τ) (l : Local τ) : ℕ :=
  match l.pc with
  | .outside | .holding _ | .gone => 0
  | .dropSub => 7
  | .arrive _ .load => 6
  | .arrive _ (.fetchSub _) => 5
  | .arrive _ (.completion _) => 4
  | .arrive _ (.loadInitial _) => 3
  | .arrive _ (.storeExpected _ _) => 2
  | .arrive _ (.storePhase _) => 1
  | .arrive k (.resumeAll _ r) => (WaitQueue.Pc.resumeAll r).rank s.waiters.resumed true k.rank
  | .waitLoad _ => 7
  | .waitIf token w => (WaitQueue.Pc.waitIf w).rank s.waiters.resumed (s.phase == token) 0

/-- The budget of a task. -/
def budget (τ : Type*) [DecidableEq τ] : Budget (Shared τ) (Local τ) where
  moves := Local.moves
  hands l := l.place.view.hands.length
  rank := Local.rank

omit [Fintype τ] in
/-- While the phase stays, the rank of a task changes only if it is woken. -/
theorem rank_congr {s s' : Shared τ} (l : Local τ) (hs : s'.phase = s.phase)
    (hr : ∀ sp, l.place.view.stage = .pushed sp →
      (sp ∈ s'.waiters.resumed ↔ sp ∈ s.waiters.resumed)) : l.rank s' = l.rank s := by
  obtain ⟨n, w, pc⟩ := l
  cases pc with
  | waitIf token wi =>
    simp only [Local.rank, hs]
    exact WaitQueue.Pc.rank_congr hr
  | arrive k a =>
    cases a with
    | resumeAll p r => exact WaitQueue.Pc.rank_congr hr
    | _ => rfl
  | _ => rfl

omit [DecidableEq τ] [Fintype τ] in
/-- A participant that returns from `arrive()` is done with `m_phase` and the list. -/
theorem pc_moves (k : After) (phase : UInt8) (n w : ℕ) :
    (⟨n, w, k.pc phase⟩ : Local τ).moves = 0 := by
  cases k <;> rfl

omit [Fintype τ] in
/-- What remains of its call is what remains after `arrive()`. -/
theorem pc_rank (s : Shared τ) (k : After) (phase : UInt8) (n w : ℕ) :
    (⟨n, w, k.pc phase⟩ : Local τ).rank s = k.rank := by
  cases k <;> rfl

/-- **No step of a participant inside is free.** -/
theorem spends (hL : Ledger c.shared.waiters fun t => (c.loc t).place.view)
    (hn : next t .step c.shared (c.loc t) = some (s, l)) :
    (budget τ).Spends c t (c.loc t) s l := by
  have hs := step_of_next hn
  -- a step of the queue raises no other task's rank, unless it wakes
  have hothers : s.phase = c.shared.phase → (budget τ).hands (c.loc t) ≤ (budget τ).hands l →
      ∀ u, u ≠ t → (budget τ).rank s (c.loc u) ≤ (budget τ).rank c.shared (c.loc u) :=
    fun hl hh u hu => (rank_congr _ hl fun sp hsp => hs.queue.effect.resumed_iff hL hh hu hsp).le
  have hcall : ∀ sp, (c.loc t).place.view.stage = .callback sp → sp ∉ c.shared.waiters.resumed :=
    fun sp hst => hL.not_resumed_of_callback hst
  generalize c.loc t = l₀ at *
  cases hs with
  | callArrive | callDrop | callWait => simp [next] at hn
  | dropSub => exact .walk le_rfl le_rfl (Nat.lt_succ_self 6) (hothers rfl le_rfl)
  | load => exact .walk le_rfl le_rfl (Nat.lt_succ_self 5) (hothers rfl le_rfl)
  | takesLast => exact .walk le_rfl le_rfl (Nat.lt_succ_self 4) (hothers rfl le_rfl)
  | takesOne =>
    refine .move ?_
    simp only [budget, pc_moves]
    exact Nat.zero_lt_two
  | completion => exact .walk le_rfl le_rfl (Nat.lt_succ_self 3) (hothers rfl le_rfl)
  | loadInitial => exact .walk le_rfl le_rfl (Nat.lt_succ_self 2) (hothers rfl le_rfl)
  | storeExpected => exact .walk le_rfl le_rfl (Nat.lt_succ_self 1) (hothers rfl le_rfl)
  | storePhase => exact .move Nat.one_lt_two
  | @resumeAll n w k p r q o hr =>
    have hq : WaitQueue.next t (.step true) c.shared.waiters (.resumeAll r) =
        some (q, o.elim .idle .resumeAll) := by
      simp [WaitQueue.next, hr]
    have hsp := next_spent (k := k.rank) hq hcall
    cases o with
    | some r' => exact hsp.spends (Nat.add_comm ..).le le_rfl le_rfl (hothers rfl)
    | none =>
      simp only [Option.elim_none] at hsp ⊢
      rw [← pc_place k p n w] at hsp
      refine hsp.spends ?_ le_rfl ?_ (hothers rfl)
      · simp only [budget, pc_moves, pc_place]
        exact (Nat.add_comm ..).le
      · simp only [budget, pc_rank, pc_place]
        exact le_rfl
  | waitReturns => exact .walk le_rfl le_rfl (Nat.succ_pos 6) (hothers rfl le_rfl)
  | waitGoesOn =>
    refine .walk le_rfl le_rfl ?_ (hothers rfl le_rfl)
    simp only [budget, Local.rank, WaitQueue.Pc.rank, WaitIf.rank]
    split_ifs <;> omega
  | @wait n w p wi q r hw =>
    have hq : WaitQueue.next t (.step (c.shared.phase == p)) c.shared.waiters (.waitIf wi) =
        some (q, .waitIf r) := by
      simp [WaitQueue.next, hw]
    exact (next_spent (k := 0) hq hcall).spends le_rfl le_rfl le_rfl (hothers rfl)
  | @waited n w p wi q hw =>
    have hq : WaitQueue.next t (.step (c.shared.phase == p)) c.shared.waiters (.waitIf wi) =
        some (q, .idle) := by
      simp [WaitQueue.next, hw]
    exact (next_spent (k := 0) hq hcall).spends le_rfl le_rfl le_rfl (hothers rfl)

/-- The task is suspended in `wait` and in the list of the queue. -/
def Suspended (s : Shared τ) (pc : Pc τ) : Prop :=
  ∃ sp, pc = .waitIf s.phase (.queued sp) ∧
    sp ∈ s.waiters.waiters ∧ sp ∉ s.waiters.resumed

/-- Nothing is left to do without a new call. -/
structure AtRest (c : Config τ (Shared τ) (Local τ)) : Prop where
  /-- Every participant is outside, with a token to wait for or not, has dropped out, or
  is suspended for the current phase. -/
  everyone (t : τ) : (c.loc t).pc = .outside ∨ (∃ token, (c.loc t).pc = .holding token) ∨
    (c.loc t).pc = .gone ∨ Suspended c.shared (c.loc t).pc
  /-- A suspended one waits for another that is outside and has not arrived in the
  phase. -/
  waits (t : τ) : Suspended c.shared (c.loc t).pc → ∃ u, (c.loc u).arrivals = c.shared.phases ∧
    ((c.loc u).pc = .outside ∨ ∃ token, (c.loc u).pc = .holding token)
  /-- With nobody in `wait` nobody is in the queue, as its destructor asserts. -/
  empty : (∀ t, ¬Suspended c.shared (c.loc t).pc) → c.shared.waiters.waiters = []

/-- Where nobody inside can step, the barrier is at rest. -/
theorem atRest (hL : Ledger c.shared.waiters fun t => (c.loc t).place.view) (hI : Inv c)
    (hA : Awaited c) (hsome : SomeoneToCome c)
    (hrest : ∀ t, next t .step c.shared (c.loc t) = none) : AtRest c := by
  have hqueue := (hL.at_rest fun t hne => by
    have := hrest t
    generalize c.loc t = l at this hne ⊢
    obtain ⟨n, w, pc⟩ := l
    cases pc with
    | waitIf token wi =>
      exact ⟨c.shared.phase == token, by simpa [Local.place, WaitQueue.next, next] using this⟩
    | arrive k a =>
      cases a with
      | resumeAll p r => exact ⟨true, by simpa [Local.place, WaitQueue.next, next] using this⟩
      | _ => exact absurd rfl hne
    | _ => exact absurd rfl hne).2
  have hall (t : τ) : (c.loc t).pc = .outside ∨ (∃ token, (c.loc t).pc = .holding token) ∨
      (c.loc t).pc = .gone ∨
      ∃ token sp, (c.loc t).pc = .waitIf token (.queued sp) ∧
        sp ∈ c.shared.waiters.waiters ∧ sp ∉ c.shared.waiters.resumed := by
    have hq := hqueue t
    have hn := hrest t
    generalize c.loc t = l at hq hn
    obtain ⟨n, w, pc⟩ := l
    cases pc with
    | outside => exact .inl rfl
    | holding token => exact .inr (.inl ⟨token, rfl⟩)
    | gone => exact .inr (.inr (.inl rfl))
    | waitIf token wi =>
      exact .inr (.inr (.inr ⟨token, by simpa [Local.place] using hq⟩))
    | arrive k a =>
      cases a with
      | resumeAll p r => simp [Local.place] at hq
      | _ => simp [next] at hn
    | _ => simp [next] at hn
  -- nobody is to take the list, so who is in it waits for the current phase
  have hcurrent (t : τ) {token : UInt8} {sp : SuspendPoint τ}
      (hpc : (c.loc t).pc = .waitIf token (.queued sp)) (hsp : sp ∈ c.shared.waiters.waiters) :
      c.shared.phase = token := by
    have htask : sp.task = t := (hL.own t sp (by simp [hpc, Local.place, WaitQueue.Pc.view,
      WaitIf.view, Stage.suspendPoint])).1
    rcases hA.queued sp hsp with hstill | ⟨u, hu⟩
    · simpa [htask, hpc, Local.Still] using hstill
    · rcases hall u with ho | ⟨token, ho⟩ | ho | ⟨token, sp', ho, -⟩ <;>
        simp [Local.place, ho, WaitQueue.Pc.owes] at hu
  have heveryone (t : τ) : (c.loc t).pc = .outside ∨ (∃ token, (c.loc t).pc = .holding token) ∨
      (c.loc t).pc = .gone ∨ Suspended c.shared (c.loc t).pc := by
    rcases hall t with ho | ho | ho | ⟨token, sp, hpc, hsp, hnr⟩
    · exact .inl ho
    · exact .inr (.inl ho)
    · exact .inr (.inr (.inl ho))
    · exact .inr (.inr (.inr ⟨sp, by rw [hpc, hcurrent t hpc hsp], hsp, hnr⟩))
  refine ⟨heveryone, fun t ht => ?_, fun hout => ?_⟩
  · obtain ⟨sp, hpc, -⟩ := ht
    have hcompleting : total Local.completing c.loc = 0 := total_eq_zero.2 fun u => by
      rcases hall u with ho | ⟨token, ho⟩ | ho | ⟨token, sp', ho, -⟩ <;>
        simp [Local.completing, ho]
    have halive : 0 < total Local.alive c.loc :=
      total_pos.2 ⟨t, by simp [Local.alive, Local.dropped, hpc]⟩
    obtain ⟨u, hu⟩ := total_pos.1 (hsome hcompleting halive)
    have harrivals : (c.loc u).arrivals = c.shared.phases := by
      by_contra hne
      simp [Local.lagging, hne] at hu
    refine ⟨u, harrivals, ?_⟩
    rcases heveryone u with ho | ho | ho | ⟨sp', ho, -⟩
    · exact .inl ho
    · exact .inr ho
    · simp [Local.lagging, Local.alive, Local.dropped, ho] at hu
    · -- who waits for the current phase has arrived in it
      obtain ⟨hw, hok⟩ := hI.ok u
      simp only [ho] at hok
      obtain ⟨ha, -, htok, -⟩ := hok
      have := ofNat_eq_ofNat.1 (hI.phase.symm.trans htok)
      omega
  · exact hL.waiters_eq_nil fun t => by
      rcases heveryone t with ho | ⟨token, ho⟩ | ho | ho
      · simp [Local.place, ho, WaitQueue.Pc.view]
      · simp [Local.place, ho, WaitQueue.Pc.view]
      · simp [Local.place, ho, WaitQueue.Pc.view]
      · exact absurd ho (hout t)

/-- **The barrier comes to rest.**  From every configuration of a run in which no
`resume_all` takes a waiter of the current phase, the steps of the participants inside
that take none either, in whatever order, end.  Where they end a task is about to take such
a waiter, or every participant is outside, has dropped out or is suspended for the current
phase; one is suspended only if another one is outside and has not arrived in the phase;
and with nobody in `wait` the queue is empty. -/
theorem barrier_comes_to_rest (h : Reach next NoStaleResume (start τ) c) :
    ComesToRest next Inside (fun c => AtRest c ∨ ∃ t, ¬NoStaleResume c t .step) c := by
  refine h.comesToRest (budget τ).measure ?_ ?_ ?_
  · rintro c t a ⟨rfl, hok⟩
    exact hok
  · rintro c t a s l hr ⟨rfl, -⟩ hn
    exact (spends (by simpa only [view_eq] using ledger hr) hn).lt
  · intro c hr hrest
    by_cases hstale : ∃ t, ¬NoStaleResume c t .step
    · exact .inr hstale
    · push Not at hstale
      refine .inl (atRest (by simpa only [view_eq] using ledger hr) (inv_of_reach hr)
        (awaited_of_reach hr) (someoneToCome_of_reach hr) fun t => ?_)
      exact Option.map_eq_none_iff.1 (hrest t .step ⟨rfl, hstale t⟩)

/-- The theorem where a participant is suspended and the other one has completed the phase
and taken it off the list. -/
theorem barrier_comes_to_rest_one_phase :
    ∃ c, (start (Fin 2)).exec next (onePhase.take 19) = some c ∧ c.shared.phases = 1 ∧
      (c.loc 1).pc = .arrive .wait (.resumeAll 0 (.unlock [⟨0, 0⟩])) ∧
      ComesToRest next Inside (fun c => AtRest c ∨ ∃ t, ¬NoStaleResume c t .step) c := by
  refine ⟨_, rfl, rfl, rfl, ?_⟩
  have hreach : Reach next NoStaleResume (start (Fin 2)) _ :=
    reach_of_exec (l := onePhase.take 19) rfl (by decide)
  exact barrier_comes_to_rest hreach

end Barrier
end CoopSync
