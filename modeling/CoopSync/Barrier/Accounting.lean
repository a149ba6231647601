/-
# The accounts of a phase

In a run in which the calls of a phase take at most its expected count off, every update
begun is either taken off already or pending (`Inv.begun`).  So when the count reaches
zero nothing is pending, nobody can begin a call, and the last arriver is alone until it
has advanced `m_phase` (`Inv.nobody_pending`): the count it restores overwrites zero, and
`m_initial_expected`, from which it takes it, counts every drop made so far.
-/

import CoopSync.Barrier.Tokens

namespace CoopSync
namespace Barrier
namespace Clients

open WaitQueue

variable {τ : Type*}

/-- The update of a call that has not taken it off `m_expected`. -/
def Pc.pending : Pc τ → ℕ
  | .dropSub call | .arrive call .load | .arrive call (.fetchSub _) => call.update.toNat
  | _ => 0

/-- One for a task that has not taken itself off `m_initial_expected`. -/
def Pc.dropping : Pc τ → ℕ
  | .dropSub _ => 1
  | _ => 0

/-- One for a task that has taken the last expected arrival and not advanced the phase. -/
def Pc.completing : Pc τ → ℕ
  | .arrive _ (.completion _) | .arrive _ (.loadInitial _) | .arrive _ (.storeExpected _ _)
  | .arrive _ (.storePhase _) => 1
  | _ => 0

/-- One for a task that has stored the next count and not advanced the phase. -/
def Pc.restored : Pc τ → ℕ
  | .arrive _ (.storePhase _) => 1
  | _ => 0

/-- What a completing task restores `m_expected` to. -/
def Pc.Restores (expected next : ℤ) : Pc τ → Prop
  | .arrive _ (.storeExpected _ m) => m = next
  | .arrive _ (.storePhase _) => expected = next
  | _ => True

/-- The calls of a task in phase `k`: those that have not advanced it belong to it, and
every phase read is that of the call. -/
def Pc.Ok (k : ℕ) : Pc τ → Prop
  | .dropSub call | .arrive call .load => call.began = k ∧ 1 ≤ call.update
  | .arrive call (.fetchSub _) => call.began = k ∧ 1 ≤ call.update ∧ call.number = k
  | .arrive call (.completion _) | .arrive call (.loadInitial _)
  | .arrive call (.storeExpected _ _) | .arrive call (.storePhase _) =>
    call.began = k ∧ call.number = k
  | .arrive call (.resumeAll _ _) => call.number = call.began
  | _ => True

section Enter

variable (tok : Token) (k : After)

/-- A call that has returned has nothing pending, and counts for none of the others. -/
@[simp] theorem enter_pending : (After.enter tok k : Pc τ).pending = 0 := by
  cases k <;> rfl

@[simp] theorem enter_dropping : (After.enter tok k : Pc τ).dropping = 0 := by
  cases k <;> rfl

@[simp] theorem enter_completing : (After.enter tok k : Pc τ).completing = 0 := by
  cases k <;> rfl

@[simp] theorem enter_restored : (After.enter tok k : Pc τ).restored = 0 := by
  cases k <;> rfl

end Enter

/-- A call that has returned restores nothing. -/
theorem enter_restores (tok : Token) (k : After) (e n : ℤ) :
    (After.enter tok k : Pc τ).Restores e n := by
  cases k <;> trivial

/-- A call that has returned belongs to no phase. -/
theorem enter_ok (tok : Token) (k : After) (p : ℕ) : (After.enter tok k : Pc τ).Ok p := by
  cases k <;> trivial

/-- Only a completing task restores the count. -/
theorem restores_of_not_completing {l : Pc τ} (h : l.completing = 0) (e n : ℤ) :
    l.Restores e n := by
  unfold Pc.Restores
  split <;> simp_all [Pc.completing]

/-- Who has stored the next count is completing a phase. -/
theorem restored_le_completing (l : Pc τ) : l.restored ≤ l.completing := by
  unfold Pc.restored
  split <;> simp [Pc.completing]

/-- A task with nothing pending that is not completing a phase stands where the next
phase may begin. -/
theorem Pc.Ok.advance {k : ℕ} {l : Pc τ} (h : l.Ok k) (hp : l.pending = 0)
    (hc : l.completing = 0) : l.Ok (k + 1) := by
  cases l with
  | dropSub call =>
    obtain ⟨-, hu⟩ := h
    simp only [Pc.pending] at hp
    omega
  | arrive call a =>
    cases a with
    | load =>
      obtain ⟨-, hu⟩ := h
      simp only [Pc.pending] at hp
      omega
    | fetchSub p =>
      obtain ⟨-, hu, -⟩ := h
      simp only [Pc.pending] at hp
      omega
    | resumeAll => exact h
    | _ => simp [Pc.completing] at hc
  | _ => trivial

variable [DecidableEq τ] [Fintype τ]

/-- The calls of a phase take at least one each off, and together at most what the phase
expects. -/
def Disciplined (c : Config τ (Shared τ) (Pc τ)) (_ : τ) : Act → Prop
  | .arrive u => 1 ≤ u ∧ c.shared.begun + u ≤ c.shared.phaseExpected
  | .arriveAndWait | .arriveAndDrop => c.shared.begun + 1 ≤ c.shared.phaseExpected
  | .wait _ | .step => True

omit [DecidableEq τ] [Fintype τ] in
instance (c : Config τ (Shared τ) (Pc τ)) (t : τ) : ∀ a, Decidable (Disciplined c t a)
  | .arrive u => inferInstanceAs (Decidable (1 ≤ u ∧ c.shared.begun + u ≤ c.shared.phaseExpected))
  | .arriveAndWait | .arriveAndDrop =>
    inferInstanceAs (Decidable (c.shared.begun + 1 ≤ c.shared.phaseExpected))
  | .wait _ | .step => .isTrue trivial

/-- The accounts of a barrier constructed with `n`. -/
structure Inv (n : ℕ) (c : Config τ (Shared τ) (Pc τ)) : Prop where
  number : c.shared.number = c.shared.phases
  ok : ∀ t, (c.loc t).Ok c.shared.phases
  tokens : ∀ tok ∈ c.shared.tokens, tok.call.number = tok.call.began
  begun : c.shared.begun = c.shared.applied + total Pc.pending c.loc
  within : c.shared.begun ≤ c.shared.phaseExpected
  unique : total Pc.completing c.loc ≤ 1
  last : 0 < total Pc.completing c.loc → c.shared.applied = c.shared.phaseExpected
  expected : total Pc.restored c.loc = 0 →
    c.shared.expected = c.shared.phaseExpected - c.shared.applied
  initial : c.shared.initialExpected + c.shared.drops = n + total Pc.dropping c.loc
  restores : ∀ t, (c.loc t).Restores c.shared.expected (n - c.shared.drops)
  drops : c.shared.drops ≤ c.shared.dropsBefore + c.shared.begun
  phaseExpected : c.shared.phaseExpected + c.shared.dropsBefore = n

variable {n : ℕ} {c : Config τ (Shared τ) (Pc τ)} {t : τ} {a : Act} {s : Shared τ} {l : Pc τ}

omit [DecidableEq τ] in
/-- While a phase is being completed no call is between its beginning and its decrement. -/
theorem Inv.nobody_pending (h : Inv n c) (hc : 0 < total Pc.completing c.loc) :
    total Pc.pending c.loc = 0 ∧ c.shared.begun = c.shared.phaseExpected := by
  have := h.last hc
  have := h.begun
  have := h.within
  omega

omit [DecidableEq τ] in
/-- Nor is a task between its drop and its arrival. -/
theorem Inv.nobody_dropping (h : Inv n c) (hp : total Pc.pending c.loc = 0) :
    total Pc.dropping c.loc = 0 := by
  refine total_eq_zero.2 fun t => ?_
  have hok := h.ok t
  have hp := total_eq_zero.1 hp t
  generalize c.loc t = l at hok hp
  cases l with
  | dropSub call =>
    obtain ⟨-, hu⟩ := hok
    simp only [Pc.pending] at hp
    omega
  | _ => rfl

/-- The task that completes a phase is the only one. -/
theorem Inv.restores_alone (h : Inv n c) (ht : (c.loc t).completing = 1) {u : τ} (hu : u ≠ t)
    (e m : ℤ) : (c.loc u).Restores e m := by
  have := add_le_total Pc.completing c.loc hu
  have := h.unique
  exact restores_of_not_completing (by omega) e m

/-- A step that leaves the accounts as they are. -/
theorem Inv.quiet (h : Inv n c) (q : Queue τ) (m : ℕ) (comp : List (ℕ × Call))
    (toks waited : List Token) (f : ℕ) (hp : l.pending = (c.loc t).pending)
    (hd : l.dropping = (c.loc t).dropping) (hc : l.completing = (c.loc t).completing)
    (hr : l.restored = (c.loc t).restored) (hok : l.Ok c.shared.phases)
    (hres : l.Restores c.shared.expected (n - c.shared.drops))
    (htok : ∀ tok ∈ toks, tok.call.number = tok.call.began) :
    Inv n ⟨{ c.shared with
        waiters := q
        completions := m
        completed := comp
        tokens := toks
        waited := waited
        failures := f }, Function.update c.loc t l⟩ := by
  have hp' := total_update_eq hp
  have hd' := total_update_eq hd
  have hc' := total_update_eq hc
  have hr' := total_update_eq hr
  refine ⟨h.number, ?_, htok, ?_, h.within, ?_, ?_, ?_, ?_, ?_, h.drops, h.phaseExpected⟩
  · exact (Function.forall_update_iff c.loc fun _ l => l.Ok _).2 ⟨hok, fun u _ => h.ok u⟩
  · simpa only [hp'] using h.begun
  · simpa only [hc'] using h.unique
  · simpa only [hc'] using h.last
  · simpa only [hr'] using h.expected
  · simpa only [hd'] using h.initial
  · exact (Function.forall_update_iff c.loc fun _ l => l.Restores _ _).2
      ⟨hres, fun u _ => h.restores u⟩

/-- A call begins, and takes `d` off the participants. -/
theorem Inv.call (h : Inv n c) {u : ℤ} {d : ℕ} (hl : c.loc t = .outside) (hu : 1 ≤ u)
    (hle : c.shared.begun + u ≤ c.shared.phaseExpected) (hdu : d ≤ u)
    (hp : l.pending = u.toNat) (hd : l.dropping = d) (hc : l.completing = 0)
    (hr : l.restored = 0) (hok : l.Ok c.shared.phases) :
    Inv n ⟨{ c.shared with begun := c.shared.begun + u, drops := c.shared.drops + d },
      Function.update c.loc t l⟩ := by
  have hp' := total_update Pc.pending c.loc t l
  have hd' := total_update Pc.dropping c.loc t l
  have hc' := total_update Pc.completing c.loc t l
  have hr' := total_update Pc.restored c.loc t l
  have h₀ : (c.loc t).pending = 0 ∧ (c.loc t).dropping = 0 ∧ (c.loc t).completing = 0 ∧
      (c.loc t).restored = 0 := by
    rw [hl]
    exact ⟨rfl, rfl, rfl, rfl⟩
  have hzero : total Pc.completing c.loc = 0 := by
    by_contra hne
    have := (h.nobody_pending (Nat.pos_of_ne_zero hne)).2
    omega
  have hbegun := h.begun
  have hdrops := h.drops
  have hinitial := h.initial
  refine ⟨h.number, ?_, h.tokens, ?_, hle, ?_, ?_, ?_, ?_, ?_, ?_, h.phaseExpected⟩
  · exact (Function.forall_update_iff c.loc fun _ l => l.Ok _).2 ⟨hok, fun u _ => h.ok u⟩
  · simp only
    omega
  · simp only
    omega
  · intro hpos
    simp only at hpos
    omega
  · intro hz
    exact h.expected (by simp only at hz; omega)
  · simp only
    push_cast
    omega
  · refine (Function.forall_update_iff c.loc fun _ l => l.Restores _ _).2
      ⟨restores_of_not_completing hc _ _, fun u _ => restores_of_not_completing ?_ _ _⟩
    exact total_eq_zero.1 hzero u
  · simp only
    push_cast
    omega

/-- The decrement of a call: what is pending of it is taken off, and the call whose update
is all that was expected goes on alone. -/
theorem Inv.decrement (h : Inv n c) {call : Call} {p : UInt8} {toks : List Token}
    (hl : c.loc t = .arrive call (.fetchSub p)) (hp : l.pending = 0) (hd : l.dropping = 0)
    (hc : l.completing = if c.shared.expected = call.update then 1 else 0)
    (hr : l.restored = 0) (hok : l.Ok c.shared.phases)
    (hres : ∀ e m, l.Restores e m) (htok : ∀ tok ∈ toks, tok.call.number = tok.call.began) :
    Inv n ⟨{ c.shared with
        expected := c.shared.expected - call.update
        applied := c.shared.applied + call.update
        tokens := toks }, Function.update c.loc t l⟩ := by
  have hp' := total_update Pc.pending c.loc t l
  have hd' := total_update Pc.dropping c.loc t l
  have hc' := total_update Pc.completing c.loc t l
  have hr' := total_update Pc.restored c.loc t l
  have hokt : 1 ≤ call.update := by
    have := h.ok t
    rw [hl] at this
    exact this.2.1
  have h₀ : (c.loc t).pending = call.update.toNat ∧ (c.loc t).dropping = 0 ∧
      (c.loc t).completing = 0 ∧ (c.loc t).restored = 0 := by
    rw [hl]
    exact ⟨rfl, rfl, rfl, rfl⟩
  have hle := le_total Pc.pending c.loc t
  have hzero : total Pc.completing c.loc = 0 := by
    by_contra hne
    have := (h.nobody_pending (Nat.pos_of_ne_zero hne)).1
    omega
  have hexp := h.expected (by have := total_mono restored_le_completing c.loc; omega)
  have hbegun := h.begun
  have hwithin := h.within
  refine ⟨h.number, ?_, htok, ?_, hwithin, ?_, ?_, ?_, ?_, ?_, h.drops, h.phaseExpected⟩
  · exact (Function.forall_update_iff c.loc fun _ l => l.Ok _).2 ⟨hok, fun u _ => h.ok u⟩
  · simp only
    omega
  · simp only
    split_ifs at hc <;> omega
  · intro hpos
    simp only at hpos ⊢
    split_ifs at hc <;> omega
  · intro _
    simp only
    omega
  · have := h.initial
    simp only
    omega
  · refine (Function.forall_update_iff c.loc fun _ l => l.Restores _ _).2
      ⟨hres _ _, fun u _ => restores_of_not_completing ?_ _ _⟩
    exact total_eq_zero.1 hzero u

omit [DecidableEq τ] in
/-- What the last arriver loads is the number of participants that have not dropped out. -/
theorem Inv.initial_of_completing (h : Inv n c) (hc : 0 < total Pc.completing c.loc) :
    c.shared.initialExpected = n - c.shared.drops := by
  have := h.nobody_dropping (h.nobody_pending hc).1
  have := h.initial
  omega

/-- A participant takes itself off `m_initial_expected`. -/
theorem Inv.dropSub (h : Inv n c) {call : Call} (hl : c.loc t = .dropSub call) :
    Inv n ⟨{ c.shared with initialExpected := c.shared.initialExpected - 1 },
      Function.update c.loc t (.arrive call .load)⟩ := by
  have hp := total_update Pc.pending c.loc t (.arrive call .load)
  have hd := total_update Pc.dropping c.loc t (.arrive call .load)
  have hc := total_update Pc.completing c.loc t (.arrive call .load)
  have hr := total_update Pc.restored c.loc t (.arrive call .load)
  have hok := h.ok t
  rw [hl] at hp hd hc hr hok
  simp only [Pc.pending, Pc.dropping, Pc.completing, Pc.restored, add_left_inj, add_zero]
    at hp hd hc hr
  refine ⟨h.number, ?_, h.tokens, ?_, h.within, ?_, ?_, ?_, ?_, ?_, h.drops, h.phaseExpected⟩
  · exact (Function.forall_update_iff c.loc fun _ l => l.Ok _).2 ⟨hok, fun u _ => h.ok u⟩
  · simpa only [hp] using h.begun
  · simpa only [hc] using h.unique
  · simpa only [hc] using h.last
  · simpa only [hr] using h.expected
  · have := h.initial
    simp only
    omega
  · exact (Function.forall_update_iff c.loc fun _ l => l.Restores _ _).2
      ⟨trivial, fun u _ => h.restores u⟩

/-- The last arriver stores the next count: it overwrites zero. -/
theorem Inv.restore (h : Inv n c) {call : Call} {p : UInt8} {m : ℤ}
    (hl : c.loc t = .arrive call (.storeExpected p m)) :
    Inv n ⟨{ c.shared with expected := m },
      Function.update c.loc t (.arrive call (.storePhase p))⟩ := by
  have hp := total_update Pc.pending c.loc t (.arrive call (.storePhase p))
  have hd := total_update Pc.dropping c.loc t (.arrive call (.storePhase p))
  have hc := total_update Pc.completing c.loc t (.arrive call (.storePhase p))
  have hr := le_total Pc.restored (Function.update c.loc t (.arrive call (.storePhase p))) t
  have hok := h.ok t
  have hres := h.restores t
  have hcomp : (c.loc t).completing = 1 := hl ▸ rfl
  rw [hl] at hp hd hc hok hres
  simp only [Pc.pending, Pc.dropping, Pc.completing, add_left_inj, add_zero] at hp hd hc
  rw [Function.update_self] at hr
  refine ⟨h.number, ?_, h.tokens, ?_, h.within, ?_, ?_, fun hz => ?_, ?_, ?_, h.drops,
    h.phaseExpected⟩
  · exact (Function.forall_update_iff c.loc fun _ l => l.Ok _).2 ⟨hok, fun u _ => h.ok u⟩
  · simpa only [hp] using h.begun
  · simpa only [hc] using h.unique
  · simpa only [hc] using h.last
  · simp only [Pc.restored] at hr hz
    omega
  · simpa only [hd] using h.initial
  · exact (Function.forall_update_iff c.loc fun _ l => l.Restores _ _).2
      ⟨hres, fun u hu => h.restores_alone hcomp hu _ _⟩

/-- **The last arriver advances the phase**: nothing of the phase before is pending, and the
next phase expects everybody that has not dropped out. -/
theorem Inv.advance (h : Inv n c) {call : Call} {p : UInt8}
    (hl : c.loc t = .arrive call (.storePhase p)) :
    Inv n ⟨{ c.shared with
        phase := p + 1
        phases := c.shared.phases + 1
        number := call.number + 1
        begun := 0
        applied := 0
        phaseExpected := c.shared.expected
        dropsBefore := c.shared.drops },
      Function.update c.loc t (.arrive call (.resumeAll p .lock))⟩ := by
  have hp := total_update Pc.pending c.loc t (.arrive call (.resumeAll p .lock))
  have hd := total_update Pc.dropping c.loc t (.arrive call (.resumeAll p .lock))
  have hc := total_update Pc.completing c.loc t (.arrive call (.resumeAll p .lock))
  have hok := h.ok t
  have hres := h.restores t
  have hcomp : (c.loc t).completing = 1 := hl ▸ rfl
  have hpos : 0 < total Pc.completing c.loc := total_pos.2 ⟨t, by omega⟩
  have hzero := (h.nobody_pending hpos).1
  rw [hl] at hp hd hc hok hres
  simp only [Pc.pending, Pc.dropping, Pc.completing, add_zero] at hp hd hc
  have hunique := h.unique
  have hle : (c.shared.drops : ℤ) ≤ n := by
    have := h.drops
    have := h.within
    have := h.phaseExpected
    omega
  have hexp : c.shared.expected = n - c.shared.drops := hres
  refine ⟨?_, ?_, h.tokens, ?_, ?_, ?_, fun hlt => ?_, fun _ => ?_, ?_, ?_, ?_, ?_⟩
  · exact congrArg (· + 1) hok.2
  · refine (Function.forall_update_iff c.loc fun _ l => l.Ok _).2
      ⟨hok.2.trans hok.1.symm, fun u hu => (h.ok u).advance (total_eq_zero.1 hzero u) ?_⟩
    have := add_le_total Pc.completing c.loc hu
    omega
  · simp only [hp, hzero]
    rfl
  · simp only
    omega
  · simp only
    omega
  · simp only at hlt
    omega
  · simp only
    omega
  · have := h.initial
    simp only
    omega
  · exact (Function.forall_update_iff c.loc fun _ l => l.Restores _ _).2
      ⟨trivial, fun u hu => h.restores_alone hcomp hu _ _⟩
  · simp only
    omega
  · simp only
    omega

/-- A step of a disciplined run keeps the accounts. -/
theorem inv_step (hs : Step t c.shared a (c.loc t) s l) (h : Inv n c) (hok : Disciplined c t a) :
    Inv n ⟨s, Function.update c.loc t l⟩ := by
  have ht := h.ok t
  have hrt := h.restores t
  generalize hl : c.loc t = l₀ at hs ht hrt
  cases hs with
  | callArrive =>
    obtain ⟨hu, hle⟩ := hok
    exact h.call (d := 0) hl hu hle (by omega) rfl rfl rfl rfl ⟨rfl, hu⟩
  | callArriveAndWait =>
    exact h.call (d := 0) hl le_rfl hok (by omega) rfl rfl rfl rfl ⟨rfl, le_rfl⟩
  | callDrop => exact h.call (d := 1) hl le_rfl hok le_rfl rfl rfl rfl rfl ⟨rfl, le_rfl⟩
  | @callWait i tok htok =>
    exact h.quiet _ _ _ _ _ _ (hl ▸ rfl) (hl ▸ rfl) (hl ▸ rfl) (hl ▸ rfl) trivial trivial h.tokens
  | dropSub => exact h.dropSub hl
  | load =>
    exact h.quiet _ _ _ _ _ _ (hl ▸ rfl) (hl ▸ rfl) (hl ▸ rfl) (hl ▸ rfl)
      ⟨ht.1, ht.2, h.number⟩ trivial h.tokens
  | takesLast hs =>
    exact h.decrement hl rfl rfl (by rw [if_pos hs]; rfl) rfl ⟨ht.1, ht.2.2⟩ (fun _ _ => trivial)
      h.tokens
  | @takes call p s' tok hs hs' htok =>
    obtain rfl := hs'
    refine h.decrement hl (by simp) (by simp) (by simp [hs]) (by simp) (enter_ok ..)
      (enter_restores _ _) ?_
    refine List.forall_mem_append.2 ⟨h.tokens, List.forall_mem_singleton.2 ?_⟩
    rw [htok]
    exact ht.2.2.trans ht.1.symm
  | completion =>
    exact h.quiet _ _ _ _ _ _ (hl ▸ rfl) (hl ▸ rfl) (hl ▸ rfl) (hl ▸ rfl) ht trivial h.tokens
  | loadInitial =>
    have hcomp : (c.loc t).completing = 1 := hl ▸ rfl
    refine h.quiet _ _ _ _ _ _ (hl ▸ rfl) (hl ▸ rfl) (hl ▸ rfl) (hl ▸ rfl) ht ?_ h.tokens
    exact h.initial_of_completing (total_pos.2 ⟨t, by omega⟩)
  | storeExpected => exact h.restore hl
  | storePhase => exact h.advance hl
  | resumeAll hr =>
    exact h.quiet _ _ _ _ _ _ (hl ▸ rfl) (hl ▸ rfl) (hl ▸ rfl) (hl ▸ rfl) ht trivial h.tokens
  | @resumedAll call p r q s' tok hr hs' htok =>
    obtain rfl := hs'
    refine h.quiet _ _ _ _ _ _ ((enter_pending ..).trans (hl ▸ rfl))
      ((enter_dropping ..).trans (hl ▸ rfl)) ((enter_completing ..).trans (hl ▸ rfl))
      ((enter_restored ..).trans (hl ▸ rfl)) (enter_ok ..) (enter_restores ..) ?_
    refine List.forall_mem_append.2 ⟨h.tokens, List.forall_mem_singleton.2 ?_⟩
    rw [htok]
    exact ht
  | waitReturns =>
    exact h.quiet _ _ _ _ _ _ (hl ▸ rfl) (hl ▸ rfl) (hl ▸ rfl) (hl ▸ rfl) trivial trivial h.tokens
  | waitGoesOn =>
    unfold Shared.assertCurrent
    split_ifs
    · exact h.quiet _ _ _ _ _ _ (hl ▸ rfl) (hl ▸ rfl) (hl ▸ rfl) (hl ▸ rfl) trivial trivial
        h.tokens
    · exact h.quiet _ _ _ _ _ _ (hl ▸ rfl) (hl ▸ rfl) (hl ▸ rfl) (hl ▸ rfl) trivial trivial
        h.tokens
  | wait | waited =>
    exact h.quiet _ _ _ _ _ _ (hl ▸ rfl) (hl ▸ rfl) (hl ▸ rfl) (hl ▸ rfl) trivial trivial h.tokens

omit [DecidableEq τ] in
/-- The accounts of a new barrier. -/
theorem inv_start : Inv n (start τ n) where
  number := rfl
  ok _ := trivial
  tokens := by simp [start]
  begun := by simp [start, total, Pc.pending]
  within := Int.natCast_nonneg n
  unique := by simp [start, total, Pc.completing]
  last hlt := by simp [start, total, Pc.completing] at hlt
  expected _ := by simp [start]
  initial := by simp [start, total, Pc.dropping]
  restores _ := trivial
  drops := le_rfl
  phaseExpected := by simp [start]

/-- The accounts hold in every configuration of a disciplined run. -/
theorem inv_of_reach (h : Reach next Disciplined (start τ n) c) : Inv n c :=
  h.invariant inv_start fun _ _ _ _ _ _ hI hok hn => inv_step (step_of_next hn) hI hok

/-- **The accounts of a phase.**  In a run in which the calls of every phase take at least
one each and together at most what the phase expects, every token of phase `k` carries
`k`, and `m_phase` the number of phases completed, modulo 256; `m_expected` is what the
phase expects less what has been taken off, until the last arriver restores it, which
overwrites zero when every update begun has been taken off; and a phase expects all
participants but those that have dropped out in the phases before. -/
theorem phases_accounted (h : Reach next Disciplined (start τ n) c) :
    c.shared.phase = UInt8.ofNat c.shared.phases ∧
      (∀ tok ∈ c.shared.tokens, tok.phase = UInt8.ofNat tok.call.began) ∧
      0 ≤ c.shared.expected ∧
      ((∀ t, (c.loc t).restored = 0) →
        c.shared.expected = c.shared.phaseExpected - c.shared.applied) ∧
      (∀ t call p m, c.loc t = .arrive call (.storeExpected p m) →
        c.shared.expected = 0 ∧ c.shared.applied = c.shared.begun) ∧
      c.shared.phaseExpected = n - c.shared.dropsBefore := by
  have hI := inv_of_reach h
  have hN := numbered h
  have hbegun := hI.begun
  have hwithin := hI.within
  have hphase := hI.phaseExpected
  refine ⟨?_, fun tok htok => ?_, ?_, fun hz => ?_, fun t call p m hl => ?_, by omega⟩
  · rw [hN.phase, hI.number]
  · rw [hN.tokens tok htok, hI.tokens tok htok]
  · by_cases hz : total Pc.restored c.loc = 0
    · have := hI.expected hz
      omega
    · obtain ⟨t, ht⟩ := total_pos.1 (Nat.pos_of_ne_zero hz)
      have hres := hI.restores t
      have hdrops := hI.drops
      generalize c.loc t = l at ht hres
      unfold Pc.restored at ht
      split at ht
      · have : c.shared.expected = n - c.shared.drops := hres
        omega
      · exact absurd ht (lt_irrefl 0)
  · exact hI.expected (total_eq_zero.2 hz)
  · have hcomp : (c.loc t).completing = 1 := hl ▸ rfl
    have hpos : 0 < total Pc.completing c.loc := total_pos.2 ⟨t, by omega⟩
    have hzero : total Pc.restored c.loc = 0 := by
      refine total_eq_zero.2 fun u => ?_
      rcases eq_or_ne u t with rfl | hu
      · rw [hl]
        rfl
      · have := add_le_total Pc.completing c.loc hu
        have := hI.unique
        have := restored_le_completing (c.loc u)
        omega
    have := hI.expected hzero
    have := hI.last hpos
    have := hI.nobody_pending hpos
    omega

/-- Task `0` arrives and task `1` drops out; then task `0` arrives again and completes the
next phase alone. -/
def dropOut : List (Fin 2 × Act) :=
  turns [(0, 1, .arrive 1), (0, 2, .step), (1, 1, .arriveAndDrop), (1, 11, .step),
    (0, 1, .arrive 1), (0, 5, .step)]

/-- The theorem where one of two participants drops out. -/
theorem phases_accounted_drop_out : ∃ c, (start (Fin 2) 2).exec next dropOut = some c ∧
    c.shared.phase = UInt8.ofNat c.shared.phases ∧ c.shared.phaseExpected = 1 := by
  refine ⟨_, rfl, ?_⟩
  have hreach : Reach next Disciplined (start (Fin 2) 2) _ :=
    reach_of_exec (l := dropOut) rfl (by decide)
  have h := phases_accounted hreach
  exact ⟨h.1, h.2.2.2.2.2⟩

end Clients
end Barrier
end CoopSync
