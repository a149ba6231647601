/-
# The shared state as an atomic cell

The calls on a shared state look from outside like operations of a cell that is written
once, each at one instant (`future_linearizable`).  A call that satisfies or breaks the
promise has the cell from its exchange on; another one that comes later, perhaps while
the first still constructs its value, is refused; every `get` reports one and the same
outcome of the first; and one `get_future` succeeds.

Whether the construction of a value throws is decided after the exchange.  The cell
leaves this open, and the first `get` settles it (`Fate`).
-/

import CoopSync.Future.Invariant
import CoopSync.Linearize

namespace CoopSync
namespace Future

open WaitQueue

variable {τ ν σ ε : Type*}

/-! ### The cell -/

/-- What has become of the promise. -/
inductive Fate (ν ε : Type*)
  | untouched
  /-- a call has it, and nobody has seen what came of it -/
  | taken (call : Call ν ε)
  /-- a `get` has reported the outcome -/
  | seen (o : Outcome ν ε)

/-- What a call returns with. -/
inductive Reply (ν ε : Type*)
  | done
  | threw (errc : FutureErrc)
  /-- what `get` reports, `none` if it read a slot without a value or a null exception -/
  | report (o : Option (Outcome ν ε))
deriving DecidableEq, Repr

/-- The reply to a call that finds the promise satisfied or broken. -/
def Call.refused (call : Call ν ε) : Reply ν ε := call.rejection.elim .done .threw

/-- What the operations of the cell do; the second component says whether the future has
been obtained. -/
inductive Serves (V : Variant ν σ) (t : τ) :
    Op ν ε → Fate ν ε × Bool → Reply ν ε → Fate ν ε × Bool → Prop
  | takes {call b} : Serves V t (.set call) (.untouched, b) .done (.taken call, b)
  | refuses {call f b} : f ≠ .untouched → Serves V t (.set call) (f, b) call.refused (f, b)
  | obtains {f} : Serves V t .getFuture (f, false) .done (f, true)
  | obtained {f} : Serves V t .getFuture (f, true) (.threw .futureAlreadyRetrieved) (f, true)
  | settles {kind call o b} : call.Yields V o →
      Serves V t (.get kind) (.taken call, b) (.report (some o)) (.seen o, b)
  | reports {kind o b} : Serves V t (.get kind) (.seen o, b) (.report (some o)) (.seen o, b)

/-- A cell that nobody has written. -/
def cell (V : Variant ν σ) (τ ε : Type*) : Object τ (Op ν ε) (Reply ν ε) (Fate ν ε × Bool) :=
  ⟨(.untouched, false), Serves V⟩

/-! ### What is seen of the steps -/

/-- What a setter returns with. -/
def Setter.reply : Setter τ ν ε → Reply ν ε
  | .exchange call => call.refused
  | _ => .done

/-- What a `get` reports in its last step. -/
def Get.reads (V : Variant ν σ) (s : SharedState τ σ ε) : Get τ → Option (Outcome ν ε)
  | .loadState => some .broken
  | .readException => s.exception.map .exception
  | .readValue => (V.read s.value).map .value
  | .wait _ => none

/-- What `get_future` returns with. -/
def SharedState.retrieve (s : SharedState τ σ ε) : Reply ν ε :=
  match s.markFutureObtained with
  | .ok _ => .done
  | .error errc => .threw errc

/-- What is seen of a step: a call, or the return with its reply.  `share` is a matter of
the handle. -/
def observe (V : Variant ν σ) :
    Object.Observe τ (Act ν ε) (World τ ν σ ε) (Local τ ν ε) (Op ν ε) (Reply ν ε)
  | _, .call .share, _, _, _ => []
  | t, .call .getFuture, w, _, _ => [.call t .getFuture, .ret t w.state.retrieve]
  | t, .call op, _, _, _ => [.call t op]
  | t, .step _, _, .setter w, .idle => [.ret t w.reply]
  | t, .step _, w, .getter _ g, .idle => [.ret t (.report (g.reads V w.state))]
  | _, _, _, _, _ => []

/-- Where a task stands on the cell. -/
def Local.stand : Local τ ν ε → Object.Phase (Op ν ε) (Reply ν ε)
  | .idle => .idle
  | .setter (.exchange call) => .called (.set call)
  | .setter _ => .done .done
  | .getter kind _ => .called (.get kind)

/-! ### The cell behind a configuration -/

/-- The call whose exchange has succeeded and that has not stored its status. -/
def Setter.claim : Setter τ ν ε → Option (Call ν ε)
  | .construct v | .mark v | .storeValue v => some (.setValue v)
  | .writeException call _ | .storeException call _ => some call
  | .exchange _ | .resumeAll _ => none

def Local.claim : Local τ ν ε → Option (Call ν ε)
  | .setter w => w.claim
  | _ => none

/-- What the configuration says of the fate of the promise. -/
def Fate.Fits (c : Config τ (World τ ν σ ε) (Local τ ν ε)) : Fate ν ε → Prop
  | .untouched => c.shared.state.status = .empty
  | .taken call => (∃ t, (c.loc t).claim = some call) ∨
      ∃ t o, .effective t call o ∈ c.shared.history
  | .seen o => ∃ t call, .effective t call o ∈ c.shared.history

/-- A setter has a claim while it writes. -/
theorem Setter.claim_isSome {w : Setter τ ν ε} : w.claim.isSome ↔ w.writing = 1 := by
  cases w <;> simp [Setter.claim, Setter.writing]

/-- A task with a claim is writing. -/
theorem writing_of_claim {l : Local τ ν ε} {call : Call ν ε} (h : l.claim = some call) :
    l.writing = 1 := by
  cases l with
  | setter w => exact Setter.claim_isSome.1 (Option.isSome_of_mem h)
  | _ => cases h

/-- A setter that writes has taken effect on the cell. -/
theorem stand_of_writing {w : Setter τ ν ε} (h : w.writing = 1) :
    (Local.setter w).stand = .done .done := by
  cases w with
  | exchange call => simp [Setter.writing] at h
  | _ => rfl

variable {V : Variant ν σ} {t : τ}

/-- A setter goes on with the call that it has begun, and that is the call it records. -/
theorem Setter.claim_of_step {thrown : Option ε} {s s' : SharedState τ σ ε} {w : Setter τ ν ε}
    {o : Option (Setter τ ν ε)} {e : Option (Event τ ν ε)}
    (h : w.step V t thrown s = some (s', o, e)) {call : Call ν ε}
    (hc : w = .exchange call ∨ w.claim = some call) :
    (∀ w', o = some w' → w'.writing = 1 → w'.claim = some call) ∧
      ∀ u call' out, e = some (.effective u call' out) → call' = call := by
  cases w with
  | exchange call' =>
    obtain rfl : call' = call := by simpa [Setter.claim] using hc
    simp only [Setter.step] at h
    split at h
    · cases call' with
      | setValue v =>
        simp only at h
        split at h
        · obtain ⟨-, rfl, rfl⟩ := by simpa using h
          exact ⟨by simp [Setter.writing], by rintro _ _ _ ⟨⟩; rfl⟩
        · obtain ⟨-, rfl, rfl⟩ := by simpa using h
          exact ⟨by rintro _ ⟨⟩ -; rfl, by simp⟩
      | setException p =>
        obtain ⟨-, rfl, rfl⟩ := by simpa using h
        exact ⟨by rintro _ ⟨⟩ -; rfl, by simp⟩
      | breakPromise =>
        obtain ⟨-, rfl, rfl⟩ := by simpa using h
        exact ⟨by simp [Setter.writing], by rintro _ _ _ ⟨⟩; rfl⟩
    · obtain ⟨-, rfl, rfl⟩ := by simpa using h
      exact ⟨by simp, by simp⟩
  | construct v =>
    obtain rfl : .setValue v = call := by simpa [Setter.claim] using hc
    simp only [Setter.step] at h
    split at h
    · obtain ⟨-, rfl, rfl⟩ := by simpa using h
      exact ⟨by rintro _ ⟨⟩ -; rfl, by simp⟩
    · obtain ⟨-, rfl, rfl⟩ := by simpa using h
      refine ⟨?_, by simp⟩
      rintro _ ⟨⟩ -
      split_ifs <;> rfl
  | mark v =>
    obtain rfl : .setValue v = call := by simpa [Setter.claim] using hc
    obtain ⟨-, rfl, rfl⟩ := by simpa [Setter.step] using h
    exact ⟨by rintro _ ⟨⟩ -; rfl, by simp⟩
  | storeValue v =>
    obtain rfl : .setValue v = call := by simpa [Setter.claim] using hc
    obtain ⟨-, rfl, rfl⟩ := by simpa [Setter.step] using h
    exact ⟨by simp [Setter.writing], by rintro _ _ _ ⟨⟩; rfl⟩
  | writeException call' x =>
    obtain rfl : call' = call := by simpa [Setter.claim] using hc
    obtain ⟨-, rfl, rfl⟩ := by simpa [Setter.step] using h
    exact ⟨by rintro _ ⟨⟩ -; rfl, by simp⟩
  | storeException call' x =>
    obtain rfl : call' = call := by simpa [Setter.claim] using hc
    obtain ⟨-, rfl, rfl⟩ := by simpa [Setter.step] using h
    exact ⟨by simp [Setter.writing], by rintro _ _ _ ⟨⟩; rfl⟩
  | resumeAll r => simp [Setter.claim] at hc

variable [DecidableEq τ]

namespace Fate

variable {c : Config τ (World τ ν σ ε) (Local τ ν ε)} {f : Fate ν ε}

/-- A step that leaves the status alone, and the claim of its task, leaves the fate. -/
theorem Fits.keep (h : f.Fits c) {w : World τ ν σ ε} {l : Local τ ν ε}
    (hstatus : w.state.status = c.shared.state.status) (hhist : c.shared.history ⊆ w.history)
    (hl : ∀ call, (c.loc t).claim = some call → l.claim = some call) :
    f.Fits ⟨w, Function.update c.loc t l⟩ := by
  cases f with
  | untouched => exact hstatus.trans h
  | taken call =>
    rcases h with ⟨u, hu⟩ | ⟨u, o, hmem⟩
    · refine .inl ⟨u, ?_⟩
      rcases eq_or_ne u t with rfl | hne
      · simpa using hl call hu
      · simpa [Function.update_of_ne hne] using hu
    · exact .inr ⟨u, o, hhist hmem⟩
  | seen o =>
    obtain ⟨u, call, hmem⟩ := h
    exact ⟨u, call, hhist hmem⟩

end Fate

section Invariant

variable [Fintype τ] {c : Config τ (World τ ν σ ε) (Local τ ν ε)} {f : Fate ν ε}

omit [DecidableEq τ] in
/-- At most one call has taken effect. -/
theorem Inv.effective_unique (h : Inv V c) {u u' : τ} {call call' : Call ν ε} {o o' : Outcome ν ε}
    (hmem : .effective u call o ∈ c.shared.history)
    (hmem' : .effective u' call' o' ∈ c.shared.history) : call = call' ∧ o = o' := by
  have hle : c.shared.history.countP Event.isEffective ≤ 1 := by
    rw [h.effective]
    split <;> omega
  have hm := List.mem_filter.2 ⟨hmem, (rfl : Event.isEffective (.effective u call o) = true)⟩
  have hm' := List.mem_filter.2 ⟨hmem', (rfl : Event.isEffective (.effective u' call' o') = true)⟩
  rw [List.countP_eq_length_filter] at hle
  generalize c.shared.history.filter Event.isEffective = l at hle hm hm'
  match l, hle with
  | [x], _ =>
    rw [List.mem_singleton] at hm hm'
    cases hm.trans hm'.symm
    exact ⟨rfl, rfl⟩

omit [DecidableEq τ] in
/-- Where a call has taken effect the status is final. -/
theorem Inv.ready_of_effective (h : Inv V c) {u : τ} {call : Call ν ε} {o : Outcome ν ε}
    (hmem : .effective u call o ∈ c.shared.history) : c.shared.state.status.ready = true :=
  (h.events _ hmem).2.ready

omit [DecidableEq τ] in
/-- Where a task claims the promise the status is in transition. -/
theorem Inv.transition_of_claim (h : Inv V c) {u : τ} {call : Call ν ε}
    (hu : (c.loc u).claim = some call) : c.shared.state.status = .transition :=
  h.transition (writing_of_claim hu)

/-- One task at most does. -/
theorem Inv.claim_unique (h : Inv V c) {u u' : τ} {call call' : Call ν ε}
    (hu : (c.loc u).claim = some call) (hu' : (c.loc u').claim = some call') : u = u' := by
  by_contra hne
  have hle := add_le_total Local.writing c.loc hne
  rw [h.writing, if_pos (h.transition_of_claim hu), writing_of_claim hu, writing_of_claim hu']
    at hle
  omega

omit [DecidableEq τ] in
/-- The promise is untouched where the status is empty. -/
theorem Inv.fate_of_empty (h : Inv V c) (hf : f.Fits c) (he : c.shared.state.status = .empty) :
    f = .untouched := by
  cases f with
  | untouched => rfl
  | taken call =>
    rcases hf with ⟨u, hu⟩ | ⟨u, o, hmem⟩
    · simp [h.transition_of_claim hu] at he
    · simpa [he, Status.ready] using h.ready_of_effective hmem
  | seen o =>
    obtain ⟨u, call, hmem⟩ := hf
    simpa [he, Status.ready] using h.ready_of_effective hmem

/-- The call that is recorded is the one that has taken the promise. -/
theorem Inv.fits_effective (h : Inv V c) (hf : f.Fits c) {w : World τ ν σ ε} {l : Local τ ν ε}
    {call : Call ν ε} {o : Outcome ν ε} (ht : (c.loc t).claim = some call)
    (hhist : w.history = .effective t call o :: c.shared.history) :
    f.Fits ⟨w, Function.update c.loc t l⟩ := by
  cases f with
  | untouched =>
    have hempty : c.shared.state.status = .empty := hf
    simp [h.transition_of_claim ht] at hempty
  | taken call' =>
    rcases hf with ⟨u, hu⟩ | ⟨u, o', hmem⟩
    · obtain rfl := h.claim_unique hu ht
      obtain rfl := Option.some.inj (hu.symm.trans ht)
      exact .inr ⟨u, o, by simp [hhist]⟩
    · exact .inr ⟨u, o', by simp [hhist, hmem]⟩
  | seen o' =>
    obtain ⟨u, call', hmem⟩ := hf
    exact ⟨u, call', by simp [hhist, hmem]⟩

end Invariant

/-- The cell behind a configuration. -/
structure Implements (c : Config τ (World τ ν σ ε) (Local τ ν ε))
    (d : Config τ (Fate ν ε × Bool) (Object.Phase (Op ν ε) (Reply ν ε))) : Prop where
  phases : Object.Tracks Local.stand c.loc d.loc
  fate : d.shared.1.Fits c
  obtained : d.shared.2 = c.shared.state.futureObtained

section Steps

variable [Fintype τ] {c : Config τ (World τ ν σ ε) (Local τ ν ε)}
  {d : Config τ (Fate ν ε × Bool) (Object.Phase (Op ν ε) (Reply ν ε))}

/-- The steps of a setter: its exchange takes effect, or is refused. -/
theorem implements_setter (hI : Inv V c) (h : Implements c d) {thrown : Option ε}
    {s' : SharedState τ σ ε} {w : Setter τ ν ε} {o : Option (Setter τ ν ε)}
    {e : Option (Event τ ν ε)} (hpc : c.loc t = .setter w)
    (hn : w.step V t thrown c.shared.state = some (s', o, e)) : ∃ ops d',
      (cell V τ ε).Moves d
        (observe V t (.step thrown) c.shared (.setter w) (o.elim .idle .setter)) ops d' ∧
      Implements ⟨{ c.shared with state := s', history := e.toList ++ c.shared.history },
        Function.update c.loc t (o.elim .idle .setter)⟩ d' := by
  have hp := h.phases t
  have hb := h.obtained
  have hf := h.fate
  have hok := hI.locals t
  rw [hpc] at hp hok
  obtain ⟨⟨f, b⟩, ph⟩ := d
  simp only at hp hb hf
  cases Setter.step_move hI.untouched hok hn with
  | @rejects call hne =>
    have hserve : Serves V t (.set call) (f, b) call.refused (f, b) := by
      refine .refuses ?_
      rintro rfl
      exact hne hf
    refine ⟨_, _, .serve hp hserve, h.phases.update, ?_, hb⟩
    exact hf.keep rfl (List.subset_cons_self ..) (by simp [hpc, Local.claim, Setter.claim])
  | @claims call w' he hw hok' =>
    obtain rfl := hI.fate_of_empty hf he
    refine ⟨_, _, .effect .refl hp .takes, ?_, .inl ⟨t, ?_⟩, hb⟩
    · have := h.phases.update (t := t) (l := .setter w')
      rwa [stand_of_writing hw] at this
    · simpa [Local.claim] using (Setter.claim_of_step hn (.inl rfl)).1 w' rfl hw
  | @settles call out st he hy hs =>
    obtain rfl := hI.fate_of_empty hf he
    refine ⟨_, _, .effect .refl hp .takes, h.phases.update, .inr ⟨t, out, ?_⟩, hb⟩
    exact List.mem_cons_self ..
  | @writes w w' v x hw hw' hok' =>
    refine ⟨_, _, .refl, h.phases.stay ?_, ?_, hb⟩
    · rw [hpc]
      exact (stand_of_writing hw').trans (stand_of_writing hw).symm
    · refine hf.keep rfl (List.Subset.refl _) fun call hcall => ?_
      rw [hpc] at hcall
      exact (Setter.claim_of_step hn (.inr hcall)).1 w' rfl hw'
  | @publishes w call out st hw hy hs =>
    refine ⟨_, _, .refl, h.phases.stay ?_, ?_, hb⟩
    · rw [hpc]
      exact (stand_of_writing hw).symm
    · obtain ⟨call₀, hcall⟩ := Option.isSome_iff_exists.1 (Setter.claim_isSome.2 hw)
      obtain rfl := (Setter.claim_of_step hn (.inr hcall)).2 _ _ _ rfl
      have hclaim : (c.loc t).claim = some call := by
        rw [hpc]
        exact hcall
      exact hI.fits_effective hf hclaim rfl
  | @resumes r q o hr =>
    cases o with
    | none =>
      refine ⟨_, _, .ret .refl hp, h.phases.update, ?_, hb⟩
      exact hf.keep rfl (List.Subset.refl _) (by simp [hpc, Local.claim, Setter.claim])
    | some r' =>
      refine ⟨_, _, .refl, h.phases.stay (by rw [hpc]; rfl), ?_, hb⟩
      exact hf.keep rfl (List.Subset.refl _) (by simp [hpc, Local.claim, Setter.claim])

/-- The last step of a `get` reports the outcome of the call that has taken effect. -/
theorem implements_report (hI : Inv V c) (h : Implements c d) {kind : FutureKind} {g : Get τ}
    {w : World τ ν σ ε} {report : Option (Outcome ν ε)} (hpc : c.loc t = .getter kind g)
    (hI' : Inv V ⟨w, Function.update c.loc t .idle⟩)
    (hhist : w.history = .got t report :: c.shared.history)
    (hobt : w.state.futureObtained = c.shared.state.futureObtained) : ∃ ops d',
      (cell V τ ε).Moves d [.ret t (.report report)] ops d' ∧
        Implements ⟨w, Function.update c.loc t .idle⟩ d' := by
  have hp := h.phases t
  have hb := h.obtained
  have hf := h.fate
  rw [hpc] at hp
  obtain ⟨⟨f, b⟩, ph⟩ := d
  simp only at hp hb hf
  obtain ⟨u, call, o, hmem', rfl⟩ : ∃ (u : τ) (call : Call ν ε) (o : Outcome ν ε),
      Event.effective u call o ∈ w.history ∧ report = some o :=
    hI'.events (.got t report) (by simp [hhist])
  have hmem : .effective u call o ∈ c.shared.history := by simpa [hhist] using hmem'
  have hready := hI.ready_of_effective hmem
  have hseen : Implements ⟨w, Function.update c.loc t .idle⟩
      ⟨(.seen o, b), Function.update ph t .idle⟩ :=
    ⟨h.phases.update, ⟨u, call, hmem'⟩, hb.trans hobt.symm⟩
  cases f with
  | untouched => simp [show c.shared.state.status = .empty from hf, Status.ready] at hready
  | taken call' =>
    obtain rfl : call = call' := by
      rcases hf with ⟨v, hv⟩ | ⟨v, o', hv⟩
      · simp [hI.transition_of_claim hv, Status.ready] at hready
      · exact (hI.effective_unique hmem hv).1
    exact ⟨_, _, .serve hp (.settles (hI.events _ hmem).1), hseen⟩
  | seen o' =>
    obtain ⟨v, call', hv⟩ := hf
    obtain rfl := (hI.effective_unique hmem hv).2
    exact ⟨_, _, .serve hp .reports, hseen⟩

/-- The steps of a `get`: the last one takes effect. -/
theorem implements_getter (hI : Inv V c) (h : Implements c d) {thrown : Option ε}
    {w : World τ ν σ ε} {kind : FutureKind} {g : Get τ} {o : Option (Get τ)}
    (hpc : c.loc t = .getter kind g) (hn : g.step V t kind c.shared = some (w, o))
    (hI' : Inv V ⟨w, Function.update c.loc t (o.elim .idle (.getter kind))⟩) : ∃ ops d',
      (cell V τ ε).Moves d
        (observe V t (.step thrown) c.shared (.getter kind g) (o.elim .idle (.getter kind)))
        ops d' ∧
      Implements ⟨w, Function.update c.loc t (o.elim .idle (.getter kind))⟩ d' := by
  -- a step that ends in the same `get` leaves all but the queue
  have hquiet {w' : World τ ν σ ε} {g' : Get τ}
      (hs : w'.state.status = c.shared.state.status) (hh : w'.history = c.shared.history)
      (hb : w'.state.futureObtained = c.shared.state.futureObtained) :
      Implements ⟨w', Function.update c.loc t (.getter kind g')⟩ d := by
    refine ⟨h.phases.stay (by rw [hpc]; rfl), ?_, h.obtained.trans hb.symm⟩
    exact h.fate.keep hs (by rw [hh]; exact List.Subset.refl _) (by simp [hpc, Local.claim])
  cases g with
  | wait p =>
    obtain ⟨⟨b, q, w'⟩, hw, he⟩ := Option.map_eq_some_iff.1 hn
    obtain ⟨rfl, rfl⟩ := Prod.mk.inj he
    exact ⟨_, _, .refl, hquiet rfl rfl rfl⟩
  | loadState =>
    simp only [Get.step] at hn
    split at hn
    · obtain ⟨rfl, rfl⟩ := by simpa using hn
      exact ⟨_, _, .refl, hquiet rfl rfl rfl⟩
    · obtain ⟨rfl, rfl⟩ := by simpa using hn
      exact implements_report hI h hpc hI' rfl rfl
    · obtain ⟨rfl, rfl⟩ := by simpa using hn
      exact ⟨_, _, .refl, hquiet rfl rfl rfl⟩
  | readException =>
    obtain ⟨rfl, rfl⟩ := by simpa [Get.step] using hn
    exact implements_report hI h hpc hI' rfl rfl
  | readValue =>
    cases kind with
    | future =>
      obtain ⟨rfl, rfl⟩ := by simpa [Get.step] using hn
      exact implements_report hI h hpc hI' rfl rfl
    | sharedFuture =>
      obtain ⟨rfl, rfl⟩ := by simpa [Get.step] using hn
      exact implements_report hI h hpc hI' rfl rfl

omit [Fintype τ] in
/-- The calls: `get_future` takes effect and returns at once, and `share` is not seen. -/
theorem implements_enter (h : Implements c d) {w : World τ ν σ ε} {op : Op ν ε} {l : Local τ ν ε}
    (hpc : c.loc t = .idle) (hn : op.enter t c.shared = some (w, l)) : ∃ ops d',
      (cell V τ ε).Moves d (observe V t (.call op) c.shared .idle l) ops d' ∧
        Implements ⟨w, Function.update c.loc t l⟩ d' := by
  have hp : d.loc t = .idle := by rw [h.phases t, hpc]; rfl
  have hfits {w' : World τ ν σ ε} {l' : Local τ ν ε}
      (hs : w'.state.status = c.shared.state.status) (hh : c.shared.history ⊆ w'.history) :
      d.shared.1.Fits ⟨w', Function.update c.loc t l'⟩ :=
    h.fate.keep hs hh (by simp [hpc, Local.claim])
  cases op with
  | set call =>
    obtain ⟨rfl, rfl⟩ := by simpa [Op.enter] using hn
    exact ⟨_, _, .call _ .refl hp, h.phases.update, hfits rfl (List.Subset.refl _), h.obtained⟩
  | share =>
    obtain ⟨-, rfl, rfl⟩ := by simpa [Op.enter] using hn
    exact ⟨_, _, .refl, h.phases.stay (by rw [hpc]), hfits rfl (List.Subset.refl _), h.obtained⟩
  | get kind =>
    have hw : w = { c.shared with handle := w.handle } ∧ l = .getter kind (.wait .fastPath) := by
      cases kind <;> simp only [Op.enter, Option.ite_none_right_eq_some, Option.some.injEq,
        Prod.mk.injEq] at hn <;> obtain ⟨-, rfl, rfl⟩ := hn <;> exact ⟨rfl, rfl⟩
    obtain ⟨hw, rfl⟩ := hw
    rw [hw]
    exact ⟨_, _, .call _ .refl hp, h.phases.update, hfits rfl (List.Subset.refl _), h.obtained⟩
  | getFuture =>
    obtain ⟨⟨f, b⟩, ph⟩ := d
    have hb : b = c.shared.state.futureObtained := h.obtained
    have hmoves {v : Reply ν ε} {b' : Bool} (hs : Serves V t .getFuture (f, b) v (f, b')) :
        (cell V τ ε).Moves ⟨(f, b), ph⟩ [.call t .getFuture, .ret t v] [(t, .getFuture, v)]
          ⟨(f, b'), Function.update ph t .idle⟩ := by
      have hm : (cell V τ ε).Moves ⟨(f, b), ph⟩ ([.call t .getFuture] ++ [.ret t v])
          ([] ++ [(t, .getFuture, v)]) _ :=
        (Object.Moves.refl.call .getFuture hp).trans (.serve (Function.update_self ..) hs)
      rwa [Function.update_idem] at hm
    cases hobt : c.shared.state.futureObtained with
    | false =>
      obtain ⟨rfl, rfl⟩ := by simpa [Op.enter, SharedState.markFutureObtained, hobt] using hn
      rw [hobt] at hb
      subst hb
      have hseen : observe V t (.call .getFuture) c.shared .idle .idle =
          [.call t .getFuture, .ret t .done] := by
        simp [observe, SharedState.retrieve, SharedState.markFutureObtained, hobt]
      rw [hseen]
      exact ⟨_, _, hmoves .obtains, h.phases.update, hfits rfl (List.Subset.refl _), rfl⟩
    | true =>
      obtain ⟨rfl, rfl⟩ := by simpa [Op.enter, SharedState.markFutureObtained, hobt] using hn
      rw [hobt] at hb
      subst hb
      have hseen : observe V t (.call .getFuture) c.shared .idle .idle =
          [.call t .getFuture, .ret t (.threw .futureAlreadyRetrieved)] := by
        simp [observe, SharedState.retrieve, SharedState.markFutureObtained, hobt]
      rw [hseen]
      exact ⟨_, _, hmoves .obtained, h.phases.update, hfits rfl (List.subset_cons_self ..),
        hobt.symm⟩

/-- Every step is matched on the cell. -/
theorem implements_step {a : Act ν ε} {w : World τ ν σ ε} {l : Local τ ν ε}
    (hr : Reachable (next V) (Future.start V τ ε) c) (h : Implements c d)
    (hn : next V t a c.shared (c.loc t) = some (w, l)) : ∃ ops d',
      (cell V τ ε).Moves d (observe V t a c.shared (c.loc t) l) ops d' ∧
        Implements ⟨w, Function.update c.loc t l⟩ d' := by
  have hI := inv_of_reach hr
  have hI' : Inv V ⟨w, Function.update c.loc t l⟩ :=
    inv_of_reach (hr.step trivial (Config.step_eq_some.2 ⟨w, l, hn, rfl⟩))
  cases hpc : c.loc t with
  | idle =>
    rw [hpc] at hn
    cases a with
    | call op => exact implements_enter h hpc hn
    | step thrown => cases hn
  | setter s =>
    rw [hpc] at hn
    cases a with
    | call op => cases hn
    | step thrown =>
      obtain ⟨⟨s', o, e⟩, hs, he⟩ := Option.map_eq_some_iff.1 hn
      obtain ⟨rfl, rfl⟩ := Prod.mk.inj he
      exact implements_setter hI h hpc hs
  | getter kind g =>
    rw [hpc] at hn
    cases a with
    | call op => cases hn
    | step thrown =>
      obtain ⟨⟨w', o⟩, hg, he⟩ := Option.map_eq_some_iff.1 hn
      obtain ⟨rfl, rfl⟩ := Prod.mk.inj he
      exact implements_getter hI h hpc hg hI'

/-- **A shared state is an atomic cell**, for every variant.  Whatever the tasks do, what
they see can be explained by a cell whose operations take effect at one instant, each
between its call and its return: the first `set_value`, `set_exception` or `break_promise`
takes the cell, every later one is refused, every `get` reports the same outcome of the
first, and one `get_future` succeeds. -/
theorem future_linearizable (V : Variant ν σ) (sched : List (τ × Act ν ε)) :
    (cell V τ ε).Linearizable ((Future.start V τ ε).history (next V) (observe V) sched) := by
  refine Object.linearizable_of_simulation (observe V) Implements ?_ ?_ sched
    (Config.admits_true ..)
  · exact ⟨fun t => rfl, rfl, rfl⟩
  · intro c d t a w l hr h _ hn
    exact implements_step hr h hn

/-- Task `1` constructs a value, and the construction throws after task `2` has been refused;
task `0` gets the exception. -/
example : (Future.start (sharedState ℕ) (Fin 3) ℕ).history (next (sharedState ℕ))
      (observe (sharedState ℕ)) (turns [(0, 1, .call .getFuture), (0, 1, .call (.get .future)),
        (1, 1, .call (.set (.setValue 5))), (1, 1, .step none),
        (2, 1, .call (.set (.setException 8))), (2, 1, .step none),
        (1, 7, .step (some 7)), (0, 3, .step none)]) =
    [.call 0 .getFuture, .ret 0 .done, .call 0 (.get .future), .call 1 (.set (.setValue 5)),
      .call 2 (.set (.setException 8)), .ret 2 (.threw .promiseAlreadySatisfied), .ret 1 .done,
      .ret 0 (.report (some (.exception 7)))] := by
  decide

end Steps

end Future
end CoopSync
