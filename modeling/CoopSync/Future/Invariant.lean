/-
# What holds of a shared state and its users

Any number of tasks call `set_value`, `set_exception` and `break_promise` on one
shared state, and get, share and read its future.  While the status is
`transition`, one task is between its exchange and its final store, and it alone
writes the slot and the exception (`Inv.writing`, `Setter.Ok`).  When the status is
final, one call has taken effect, and the slot or the exception holds what that
call said (`Event.Ok`), until `future::get` takes the value away.

`Inv` is kept by the moves of a setter (`Inv.setter`), by the steps of a `get`
(`Inv.getter`) and by calls (`Inv.enter`); most of them leave status, slot and
exception alone (`Inv.quiet`).
-/

import CoopSync.Future.Setters

namespace CoopSync
namespace Future

open WaitQueue

variable {τ ν σ ε : Type*}

/-! ### What a task relies on -/

/-- Past a re-check that came out false. -/
def pastCheck : WaitIf τ → Bool
  | .unlockResume _ | .resume _ | .selfResumed _ => true
  | _ => false

/-- What a `get` relies on where it stands. -/
def Get.Ok (status : Status) : Get τ → Prop
  | .wait w => pastCheck w = true → status.ready = true
  | .loadState => status.ready = true
  | .readException => status = .exception
  | .readValue => status = .value

def Local.Ok (V : Variant ν σ) (s : SharedState τ σ ε) : Local τ ν ε → Prop
  | .idle => True
  | .setter w => w.Ok V s
  | .getter _ g => g.Ok s.status

/-- One for a task between a successful exchange and its final store. -/
def Local.writing : Local τ ν ε → ℕ
  | .setter w => w.writing
  | _ => 0

/-- One for a task in `future::get`. -/
def Local.inGet : Local τ ν ε → ℕ
  | .getter .future _ => 1
  | _ => 0

/-- One for a task in `shared_future::get`. -/
def Local.inSharedGet : Local τ ν ε → ℕ
  | .getter .sharedFuture _ => 1
  | _ => 0

/-- While the status is not final and not its own to write, a task relies on
nothing. -/
theorem Local.Ok.of_not_ready {V : Variant ν σ} {s s' : SharedState τ σ ε} {l : Local τ ν ε}
    (h : l.Ok V s) (hw : l.writing = 0) (hr : s.status.ready = false) : l.Ok V s' := by
  cases l with
  | idle => trivial
  | setter w =>
    cases w with
    | exchange call => trivial
    | resumeAll r => exact absurd h (by simp [Local.Ok, Setter.Ok, hr])
    | _ => simp [Local.writing, Setter.writing] at hw
  | getter kind g =>
    cases g with
    | wait w => exact fun hp => absurd (h hp) (by simp [hr])
    | loadState => exact absurd h (by simp [Local.Ok, Get.Ok, hr])
    | readException | readValue =>
      have h : s.status = _ := h
      rw [h] at hr
      simp [Status.ready] at hr

/-- Where a task stands depends on the status, the exception and, for a writer, the slot. -/
theorem Local.Ok.congr {V : Variant ν σ} {s s' : SharedState τ σ ε} {l : Local τ ν ε}
    (h : l.Ok V s) (hs : s'.status = s.status) (he : s'.exception = s.exception)
    (hv : l.writing = 1 → s'.value = s.value) : l.Ok V s' := by
  cases l with
  | idle => trivial
  | setter w =>
    cases w with
    | exchange call => trivial
    | resumeAll r =>
      have h : s.status.ready = true := h
      exact show s'.status.ready = true by rwa [hs]
    | construct v => exact (hv rfl).trans h
    | mark v => exact (hv rfl).trans h
    | storeValue v =>
      have h : V.read s.value = some v := h
      exact show V.read s'.value = some v by rw [hv rfl, h]
    | writeException call e => exact h
    | storeException call e => exact ⟨h.1, he.trans h.2⟩
  | getter kind g =>
    have h : g.Ok s.status := h
    exact show g.Ok s'.status by rwa [hs]

/-! ### The invariant -/

/-- A call that took effect. -/
def Event.isEffective : Event τ ν ε → Bool
  | .effective _ _ _ => true
  | _ => false

/-- What holds of the events of a history. -/
def Event.Ok (V : Variant ν σ) (w : World τ ν σ ε) : Event τ ν ε → Prop
  | .effective _ call o => call.Yields V o ∧ o.Stands V w.handle w.state
  | .rejected _ call thrown => thrown = call.rejection
  | .got _ report => ∃ t call o, .effective t call o ∈ w.history ∧ report = some o
  | .threw _ _ => True

variable [Fintype τ]

/-- What holds of every reached configuration. -/
structure Inv (V : Variant ν σ) (c : Config τ (World τ ν σ ε) (Local τ ν ε)) : Prop where
  untouched : c.shared.state.status = .empty → c.shared.state.value = V.init
  writing : total Local.writing c.loc = if c.shared.state.status = .transition then 1 else 0
  effective : c.shared.history.countP Event.isEffective =
    if c.shared.state.status.ready = true then 1 else 0
  locals : ∀ t, (c.loc t).Ok V c.shared.state
  events : ∀ e ∈ c.shared.history, e.Ok V c.shared
  inGet : total Local.inGet c.loc = if c.shared.handle = .inGet then 1 else 0
  sharedGet : ∀ t, 0 < (c.loc t).inSharedGet → c.shared.handle = .shared
  woken : c.shared.state.waiters.resumed ≠ [] → c.shared.state.status.ready = true
  obtained : c.shared.state.futureObtained = false → c.shared.handle = .none

variable [DecidableEq τ] {V : Variant ν σ} {c : Config τ (World τ ν σ ε) (Local τ ν ε)} {t : τ}

namespace Inv

omit [DecidableEq τ] in
/-- The invariant holds of a new state. -/
theorem start : Inv V (start V τ ε) where
  untouched _ := rfl
  writing := total_const_zero rfl
  effective := rfl
  locals _ := trivial
  events e he := by simp [Future.start] at he
  inGet := total_const_zero rfl
  sharedGet t h := by simp [Future.start, Local.inSharedGet] at h
  woken h := by simp [Future.start, Queue.init] at h
  obtained _ := rfl

omit [DecidableEq τ] in
/-- While a task writes, the status is `transition`. -/
theorem transition (h : Inv V c) (hw : (c.loc t).writing = 1) :
    c.shared.state.status = .transition := by
  have := le_total Local.writing c.loc t
  have := h.writing
  by_contra hne
  rw [if_neg hne] at this
  omega

/-- **A step that leaves status, slot and exception alone** keeps the invariant if
what it records is no effective call. -/
theorem quiet (h : Inv V c) {w : World τ ν σ ε} {l : Local τ ν ε} {e : Option (Event τ ν ε)}
    (hstatus : w.state.status = c.shared.state.status)
    (hvalue : w.state.value = c.shared.state.value)
    (hexc : w.state.exception = c.shared.state.exception)
    (hhist : w.history = e.toList ++ c.shared.history)
    (heff : ∀ x ∈ e, x.isEffective = false ∧ x.Ok V w)
    (hwrite : l.writing = (c.loc t).writing) (hl : l.Ok V c.shared.state)
    (hget : l.inGet + (if c.shared.handle = .inGet then 1 else 0) =
      (c.loc t).inGet + if w.handle = .inGet then 1 else 0)
    (hshared : 0 < l.inSharedGet ∨ c.shared.handle = .shared → w.handle = .shared)
    (hrel : c.shared.handle = .released → w.handle = .released)
    (hwoken : w.state.waiters.resumed ≠ [] → c.shared.state.status.ready = true)
    (hobt : w.state.futureObtained = false → w.handle = .none) :
    Inv V ⟨w, Function.update c.loc t l⟩ where
  untouched he := hvalue.trans (h.untouched (hstatus ▸ he))
  writing := by
    have := total_update Local.writing c.loc t l
    have := h.writing
    simp only [hstatus]
    omega
  effective := by
    have hnone : e.toList.countP Event.isEffective = 0 := by
      refine List.countP_eq_zero.2 fun x hx => ?_
      simp [(heff x (Option.mem_toList.1 hx)).1]
    simp only [hhist, List.countP_append, hnone, hstatus, Nat.zero_add]
    exact h.effective
  locals u := by
    have hcongr : ∀ l' : Local τ ν ε, l'.Ok V c.shared.state → l'.Ok V w.state :=
      fun l' hl' => hl'.congr hstatus hexc fun _ => hvalue
    change (Function.update c.loc t l u).Ok V w.state
    rcases eq_or_ne u t with rfl | hne
    · rw [Function.update_self]
      exact hcongr l hl
    · rw [Function.update_of_ne hne]
      exact hcongr _ (h.locals u)
  events x hx := by
    change x ∈ w.history at hx
    rw [hhist] at hx
    rcases List.mem_append.1 hx with hx | hx
    · exact (heff x (Option.mem_toList.1 hx)).2
    · have hold := h.events x hx
      cases x with
      | effective u call o =>
        exact ⟨hold.1, hold.2.congr hstatus hexc fun hne => ⟨hvalue, fun hr => hne (hrel hr)⟩⟩
      | got u report =>
        obtain ⟨u', call, o, hmem, hr⟩ := hold
        refine ⟨u', call, o, ?_, hr⟩
        change _ ∈ w.history
        rw [hhist]
        exact List.mem_append_right _ hmem
      | rejected u call thrown => exact hold
      | threw u errc => trivial
  inGet := by
    have := total_update Local.inGet c.loc t l
    have := h.inGet
    simp only
    omega
  sharedGet u hu := by
    change 0 < (Function.update c.loc t l u).inSharedGet at hu
    rcases eq_or_ne u t with rfl | hne
    · rw [Function.update_self] at hu
      exact hshared (.inl hu)
    · rw [Function.update_of_ne hne] at hu
      exact hshared (.inr (h.sharedGet u hu))
  woken hr := by
    change w.state.status.ready = true
    rw [hstatus]
    exact hwoken hr
  obtained := hobt

/-- **A step of the setter that has the status to itself**: the status was not final,
and no other task writes. -/
theorem unready (h : Inv V c) {s' : SharedState τ σ ε} {w : Setter τ ν ε} {o : Setter τ ν ε}
    {e : Option (Event τ ν ε)} (hpc : c.loc t = .setter w)
    (hr : c.shared.state.status.ready = false)
    (hown : w.writing = if c.shared.state.status = .transition then 1 else 0)
    (hwaiters : s'.waiters = c.shared.state.waiters)
    (hobt : s'.futureObtained = c.shared.state.futureObtained) (hset : s'.status ≠ .empty)
    (hwrite : o.writing = if s'.status = .transition then 1 else 0) (ho : o.Ok V s')
    (hcount : e.toList.countP Event.isEffective = if s'.status.ready = true then 1 else 0)
    (he : ∀ x ∈ e, x.Ok V
      { c.shared with state := s', history := e.toList ++ c.shared.history }) :
    Inv V ⟨{ c.shared with state := s', history := e.toList ++ c.shared.history },
      Function.update c.loc t (.setter o)⟩ where
  untouched hs := absurd hs hset
  writing := by
    have := total_update Local.writing c.loc t (.setter o)
    have := h.writing
    simp only [hpc, Local.writing] at *
    omega
  effective := by
    have := h.effective
    simp only [hr, List.countP_append] at *
    simpa [this] using hcount
  locals u := by
    change (Function.update c.loc t (.setter o) u).Ok V s'
    rcases eq_or_ne u t with rfl | hne
    · rw [Function.update_self]
      exact ho
    · rw [Function.update_of_ne hne]
      -- the account of writers has room for task `t` only
      have hzero : (c.loc u).writing = 0 := by
        have hle := add_le_total Local.writing c.loc hne
        rw [hpc, h.writing, ← hown] at hle
        have hle : (c.loc u).writing + w.writing ≤ w.writing := hle
        omega
      exact (h.locals u).of_not_ready hzero hr
  events x hx := by
    rcases List.mem_append.1 hx with hx | hx
    · exact he x (Option.mem_toList.1 hx)
    · have hold := h.events x hx
      cases x with
      | effective u call out => simp [hold.2.ready] at hr
      | got u report =>
        obtain ⟨u', call, out, hmem, hrep⟩ := hold
        exact ⟨u', call, out, List.mem_append_right _ hmem, hrep⟩
      | rejected u call thrown => exact hold
      | threw u errc => trivial
  inGet := by
    have := total_update Local.inGet c.loc t (.setter o)
    have := h.inGet
    simp only [hpc, Local.inGet] at *
    omega
  sharedGet u hu := by
    change 0 < (Function.update c.loc t (.setter o) u).inSharedGet at hu
    rcases eq_or_ne u t with rfl | hne
    · simp [Local.inSharedGet] at hu
    · rw [Function.update_of_ne hne] at hu
      exact h.sharedGet u hu
  woken hres := by
    have hres : s'.waiters.resumed ≠ [] := hres
    rw [hwaiters] at hres
    simp [h.woken hres] at hr
  obtained hf := h.obtained (hobt ▸ hf)

/-- The step of a setter that makes the status final is that of a call that takes effect. -/
theorem final (h : Inv V c) {w : Setter τ ν ε} {call : Call ν ε} {out : Outcome ν ε}
    {st : Status} (hpc : c.loc t = .setter w) (hr : c.shared.state.status.ready = false)
    (hown : w.writing = if c.shared.state.status = .transition then 1 else 0)
    (hy : call.Yields V out)
    (hs : ∀ handle, out.Stands V handle { c.shared.state with status := st }) :
    Inv V ⟨⟨{ c.shared.state with status := st }, c.shared.handle,
      .effective t call out :: c.shared.history⟩,
      Function.update c.loc t (.setter (.resumeAll .lock))⟩ := by
  have hready : st.ready = true := (hs c.shared.handle).ready
  refine h.unready (e := some (.effective t call out)) hpc hr hown rfl rfl ?_ ?_ hready ?_ ?_
  · rintro rfl
    nomatch hready
  · cases st with
    | empty | transition => nomatch hready
    | _ => rfl
  · simp [Event.isEffective, hready]
  · rintro _ ⟨⟩
    exact ⟨hy, hs _⟩

/-- A step of a setter keeps the invariant. -/
theorem setter (h : Inv V c) {s' : SharedState τ σ ε} {w : Setter τ ν ε}
    {o : Option (Setter τ ν ε)} {e : Option (Event τ ν ε)} (hpc : c.loc t = .setter w)
    (m : SetterMove V t c.shared.state w s' o e) :
    Inv V ⟨{ c.shared with state := s', history := e.toList ++ c.shared.history },
      Function.update c.loc t (o.elim .idle .setter)⟩ := by
  cases m with
  | @rejects call hne =>
    exact h.quiet rfl rfl rfl rfl (by simp [Event.isEffective, Event.Ok]) (by rw [hpc]; rfl)
      trivial (by simp [hpc, Local.inGet]) (by simp [Local.inSharedGet]) id h.woken
      h.obtained
  | @resumes r q o hr =>
    have hok : c.shared.state.status.ready = true := by
      have := h.locals t
      rwa [hpc] at this
    refine h.quiet rfl rfl rfl rfl (by simp) ?_ ?_ ?_ ?_ id (fun _ => hok) h.obtained
    · cases o <;> simp [hpc, Local.writing, Setter.writing]
    · cases o
      exacts [trivial, hok]
    · cases o <;> simp [hpc, Local.inGet]
    · cases o <;> simp [Local.inSharedGet]
  | claims he hw hok =>
    exact h.unready hpc (by rw [he]; rfl) (by rw [he]; rfl) rfl rfl (by simp) (by simp [hw]) hok
      (by simp [Status.ready]) (by simp)
  | settles he hy hs => exact h.final hpc (by rw [he]; rfl) (by rw [he]; rfl) hy hs
  | writes hw hw' hok =>
    have ht := h.transition (t := t) (by rw [hpc]; exact hw)
    exact h.unready hpc (by rw [ht]; rfl) (by simp [ht, hw]) rfl rfl (by simp [ht])
      (by simp [ht, hw']) hok (by simp [ht, Status.ready]) (by simp)
  | publishes hw hy hs =>
    have ht := h.transition (t := t) (by rw [hpc]; exact hw)
    exact h.final hpc (by rw [ht]; rfl) (by simp [ht, hw]) hy hs

omit [DecidableEq τ] in
/-- A final status was made by a call that took effect. -/
theorem exists_effective (h : Inv V c) (hr : c.shared.state.status.ready = true) :
    ∃ u call o, Event.effective u call o ∈ c.shared.history ∧ call.Yields V o ∧
      o.Stands V c.shared.handle c.shared.state := by
  have hcount := h.effective
  rw [if_pos hr] at hcount
  obtain ⟨x, hx, heff⟩ := List.countP_pos_iff.1 (by omega : 0 < c.shared.history.countP
    Event.isEffective)
  cases x with
  | effective u call o => exact ⟨u, call, o, hx, h.events _ hx⟩
  | _ => simp [Event.isEffective] at heff

end Inv

omit [Fintype τ] in
/-- A step of `wait`: a task goes on only when the status is final. -/
theorem step_wait {s s' : SharedState τ σ ε} {q q' : Queue τ} {w : WaitIf τ}
    {r : Option (WaitIf τ)} (hok : pastCheck w = true → s.status.ready = true)
    (hwoken : q.resumed ≠ [] → s.status.ready = true)
    (h : w.stepWith notReady t s q = some (s', q', r)) :
    (∀ w' ∈ r, pastCheck w' = true → s.status.ready = true) ∧
      (r = none → s.status.ready = true) ∧ (q'.resumed ≠ [] → s.status.ready = true) := by
  cases w with
  | fastPath =>
    obtain ⟨rfl, rfl, rfl⟩ := by simpa [WaitIf.stepWith, WaitIf.evaluates, WaitIf.step] using h
    cases hr : s.status.ready <;> simp_all [notReady, pastCheck]
  | recheck sp =>
    obtain ⟨rfl, rfl, rfl⟩ := by simpa [WaitIf.stepWith, WaitIf.evaluates, WaitIf.step] using h
    cases hr : s.status.ready <;> simp_all [notReady, pastCheck]
  | lock sp =>
    obtain ⟨⟨q₁, r₁⟩, hs, he⟩ := Option.map_eq_some_iff.1 h
    obtain ⟨rfl, rfl, rfl⟩ := by simpa using he
    obtain ⟨q₂, hq, he⟩ := Option.map_eq_some_iff.1 hs
    obtain ⟨rfl, rfl⟩ := by simpa using he
    refine ⟨by simp [pastCheck], by simp, fun hres => hwoken ?_⟩
    unfold Queue.acquire at hq
    split at hq
    · obtain rfl := Option.some.inj hq
      exact hres
    · simp at hq
  | queued sp | selfResumed sp =>
    -- the task's own suspend point was resumed
    by_cases hmem : sp ∈ q.resumed
    · obtain ⟨rfl, rfl, rfl⟩ := by
        simpa [WaitIf.stepWith, WaitIf.evaluates, WaitIf.step, hmem] using h
      have hready := hwoken (List.ne_nil_of_mem hmem)
      exact ⟨by simp, fun _ => hready, fun _ => hready⟩
    · simp [WaitIf.stepWith, WaitIf.evaluates, WaitIf.step, hmem] at h
  | unlockResume sp | resume sp =>
    have hready := hok rfl
    exact ⟨fun _ _ _ => hready, fun _ => hready, fun _ => hready⟩
  | suspend | pushBack sp | unlockQueued sp =>
    obtain ⟨rfl, rfl, rfl⟩ := by simpa [WaitIf.stepWith, WaitIf.evaluates, WaitIf.step] using h
    exact ⟨by simp [pastCheck], by simp, hwoken⟩

namespace Inv

omit [DecidableEq τ] in
/-- A `get` uses the future it belongs to. -/
theorem handle_of_getter (h : Inv V c) {kind : FutureKind} {g : Get τ}
    (hpc : c.loc t = .getter kind g) :
    c.shared.handle = match kind with
      | .future => .inGet
      | .sharedFuture => .shared := by
  cases kind with
  | future =>
    have hle := le_total Local.inGet c.loc t
    rw [hpc, h.inGet] at hle
    by_contra hne
    simp [Local.inGet, hne] at hle
  | sharedFuture => exact h.sharedGet t (by simp [hpc, Local.inSharedGet])

/-- A `get` that ends without touching the slot keeps the invariant if it reports
the outcome of the call that took effect. -/
theorem reported (h : Inv V c) {kind : FutureKind} {g : Get τ} {u : τ} {call : Call ν ε}
    {o : Outcome ν ε} (hpc : c.loc t = .getter kind g)
    (hmem : Event.effective u call o ∈ c.shared.history) {handle : Handle}
    (hhandle : handle = kind.restore c.shared.handle ∨
      kind = .sharedFuture ∧ handle = c.shared.handle) :
    Inv V ⟨{ c.shared with
      handle := handle, history := .got t (some o) :: c.shared.history },
      Function.update c.loc t .idle⟩ := by
  have hh := h.handle_of_getter hpc
  refine h.quiet (e := some (.got t (some o))) rfl rfl rfl rfl ?_ ?_ trivial ?_ ?_ ?_ h.woken
    fun hf => ?_
  · rintro _ ⟨⟩
    exact ⟨rfl, u, call, o, List.mem_cons_of_mem _ hmem, rfl⟩
  · rw [hpc]
    rfl
  · cases kind <;> simp_all [Local.inGet, FutureKind.restore]
  · cases kind <;> simp_all [Local.inSharedGet, FutureKind.restore]
  · cases kind <;> simp_all
  · have := h.obtained hf
    cases kind <;> simp_all

/-- `future::get` takes the value and keeps the invariant. -/
theorem taken (h : Inv V c) {u : τ} {call : Call ν ε} {o : Outcome ν ε}
    (hpc : c.loc t = .getter .future .readValue) (hs : c.shared.state.status = .value)
    (hmem : Event.effective u call o ∈ c.shared.history) :
    Inv V ⟨⟨{ c.shared.state with value := V.take c.shared.state.value }, .released,
      .got t (some o) :: c.shared.history⟩, Function.update c.loc t .idle⟩ := by
  have hh : c.shared.handle = .inGet := h.handle_of_getter hpc
  refine ⟨fun he => by simp [hs] at he, ?_, ?_, fun v => ?_, fun x hx => ?_, ?_, fun v hv => ?_,
    h.woken, fun hf => by simp [h.obtained hf] at hh⟩
  · have := total_update Local.writing c.loc t .idle
    have := h.writing
    simp only [hpc, Local.writing] at *
    omega
  · simpa [Event.isEffective] using h.effective
  · change (Function.update c.loc t .idle v).Ok V _
    rcases eq_or_ne v t with rfl | hne
    · rw [Function.update_self]
      trivial
    · rw [Function.update_of_ne hne]
      refine (h.locals v).congr rfl rfl fun hw => ?_
      simp [h.transition hw] at hs
  · rcases List.mem_cons.1 hx with rfl | hx
    · exact ⟨u, call, o, List.mem_cons_of_mem _ hmem, rfl⟩
    · have hold := h.events x hx
      cases x with
      | effective v call' o' => exact ⟨hold.1, hold.2.congr rfl rfl (by simp)⟩
      | got v report =>
        obtain ⟨u', call', o', hmem', hr⟩ := hold
        exact ⟨u', call', o', List.mem_cons_of_mem _ hmem', hr⟩
      | rejected v call' thrown => exact hold
      | threw v errc => trivial
  · have := total_update Local.inGet c.loc t .idle
    have := h.inGet
    simp only [hpc, hh, Local.inGet] at *
    simp at *
    omega
  · change 0 < (Function.update c.loc t .idle v).inSharedGet at hv
    rcases eq_or_ne v t with rfl | hne
    · simp [Local.inSharedGet] at hv
    · rw [Function.update_of_ne hne] at hv
      simp [h.sharedGet v hv] at hh

/-- A step of `get` keeps the invariant. -/
theorem getter (h : Inv V c) {w : World τ ν σ ε} {kind : FutureKind} {g : Get τ}
    {o : Option (Get τ)} (hpc : c.loc t = .getter kind g)
    (hg : g.step V t kind c.shared = some (w, o)) :
    Inv V ⟨w, Function.update c.loc t (o.elim .idle (.getter kind))⟩ := by
  have hok : g.Ok c.shared.state.status := by
    have := h.locals t
    rwa [hpc] at this
  have hh := h.handle_of_getter hpc
  -- the steps that stay in `get`
  have hstay : ∀ (q : Queue τ) (g' : Get τ), g'.Ok c.shared.state.status →
      (q.resumed ≠ [] → c.shared.state.status.ready = true) →
      Inv V ⟨{ c.shared with state := { c.shared.state with waiters := q } },
        Function.update c.loc t (.getter kind g')⟩ := by
    intro q g' hg' hq
    refine h.quiet (e := none) rfl rfl rfl rfl (by simp) ?_ hg' ?_ ?_ id hq h.obtained
    · rw [hpc]
      rfl
    · cases kind <;> simp [hpc, Local.inGet]
    · cases kind <;> simp_all [Local.inSharedGet]
  cases g with
  | wait p =>
    obtain ⟨⟨s, q, r⟩, hs, he⟩ := Option.map_eq_some_iff.1 hg
    obtain ⟨rfl, rfl⟩ := by simpa using he
    obtain ⟨hsome, hnone, hres⟩ := step_wait hok h.woken hs
    refine hstay q _ ?_ hres
    cases r with
    | none => exact hnone rfl
    | some p' => exact hsome p' rfl
  | loadState =>
    obtain ⟨u, call, out, hmem, -, hs⟩ := h.exists_effective hok
    simp only [Get.step] at hg
    split at hg
    · rename_i hst
      obtain ⟨rfl, rfl⟩ := by simpa using hg
      exact hstay _ _ hst h.woken
    · rename_i hst
      obtain ⟨rfl, rfl⟩ := by simpa using hg
      cases out with
      | broken => exact h.reported hpc hmem (.inl rfl)
      | value v => simp [hs.1] at hst
      | exception e => simp [hs.1] at hst
    · rename_i hne hnb
      obtain ⟨rfl, rfl⟩ := by simpa using hg
      refine hstay _ _ ?_ h.woken
      cases out with
      | broken => exact absurd hs hnb
      | value v => exact hs.1
      | exception e => exact absurd hs.1 hne
  | readException =>
    have hst : c.shared.state.status = .exception := hok
    obtain ⟨u, call, out, hmem, -, hs⟩ := h.exists_effective (by rw [hst]; rfl)
    obtain ⟨rfl, rfl⟩ := by simpa [Get.step] using hg
    cases out with
    | exception e =>
      rw [hs.2]
      exact h.reported hpc hmem (.inl rfl)
    | value v => simp [hs.1] at hst
    | broken => simp [show _ = Status.broken from hs] at hst
  | readValue =>
    have hst : c.shared.state.status = .value := hok
    obtain ⟨u, call, out, hmem, -, hs⟩ := h.exists_effective (by rw [hst]; rfl)
    cases out with
    | value v =>
      have hread : V.read c.shared.state.value = some v :=
        hs.2 (by rw [hh]; cases kind <;> simp)
      cases kind with
      | future =>
        obtain ⟨rfl, rfl⟩ := by simpa [Get.step, hread] using hg
        exact h.taken hpc hst hmem
      | sharedFuture =>
        obtain ⟨rfl, rfl⟩ := by simpa [Get.step, hread] using hg
        exact h.reported hpc hmem (.inr ⟨rfl, rfl⟩)
    | exception e => simp [hs.1] at hst
    | broken => simp [show _ = Status.broken from hs] at hst

/-- A call keeps the invariant. -/
theorem enter (h : Inv V c) {w : World τ ν σ ε} {l : Local τ ν ε} {op : Op ν ε}
    (hpc : c.loc t = .idle) (he : op.enter t c.shared = some (w, l)) :
    Inv V ⟨w, Function.update c.loc t l⟩ := by
  cases op with
  | set call =>
    obtain ⟨rfl, rfl⟩ := by simpa [Op.enter] using he
    exact h.quiet (e := none) rfl rfl rfl rfl (by simp) (by rw [hpc]; rfl) trivial (by rw [hpc]; rfl)
      (by simp [Local.inSharedGet]) id h.woken h.obtained
  | getFuture =>
    simp only [Op.enter, SharedState.markFutureObtained] at he
    split_ifs at he with hf
    · obtain ⟨rfl, rfl⟩ := by simpa using he
      exact h.quiet (e := some (.threw t .futureAlreadyRetrieved)) rfl rfl rfl rfl
        (by rintro _ ⟨⟩; exact ⟨rfl, trivial⟩) (by rw [hpc]) trivial (by rw [hpc])
        (by simp [Local.inSharedGet]) id h.woken h.obtained
    · obtain ⟨rfl, rfl⟩ := by simpa using he
      have hnone := h.obtained (by simpa using hf)
      exact h.quiet (e := none) rfl rfl rfl rfl (by simp) (by rw [hpc]) trivial
        (by simp [hpc, hnone]) (by simp [Local.inSharedGet, hnone]) (by simp [hnone]) h.woken
        (by simp)
  | share =>
    obtain ⟨hf, rfl, rfl⟩ := by simpa [Op.enter] using he
    exact h.quiet (e := none) rfl rfl rfl rfl (by simp) (by rw [hpc]) trivial (by simp [hpc, hf])
      (by simp) (by simp [hf]) h.woken fun ho => by simp [h.obtained ho] at hf
  | get kind =>
    cases kind with
    | future =>
      obtain ⟨hf, rfl, rfl⟩ := by simpa [Op.enter] using he
      exact h.quiet (e := none) rfl rfl rfl rfl (by simp) (by rw [hpc]; rfl)
        (by simp [Local.Ok, Get.Ok, pastCheck]) (by simp [hpc, hf, Local.inGet])
        (by simp [hf, Local.inSharedGet]) (by simp [hf]) h.woken
        fun ho => by simp [h.obtained ho] at hf
    | sharedFuture =>
      obtain ⟨hf, rfl, rfl⟩ := by simpa [Op.enter] using he
      exact h.quiet (e := none) rfl rfl rfl rfl (by simp) (by rw [hpc]; rfl)
        (by simp [Local.Ok, Get.Ok, pastCheck]) (by simp [hpc, Local.inGet])
        (by simp [hf]) id h.woken h.obtained

end Inv

/-- **The invariant holds of every reached configuration.** -/
theorem inv_of_reach {ok : Config τ (World τ ν σ ε) (Local τ ν ε) → τ → Act ν ε → Prop}
    (h : Reach (next V) ok (Future.start V τ ε) c) : Inv V c := by
  refine h.invariant .start fun c t a w l _ hc _ hn => ?_
  cases a with
  | call op =>
    cases hpc : c.loc t with
    | idle =>
      rw [hpc] at hn
      exact hc.enter hpc hn
    | _ => simp [hpc, next] at hn
  | step thrown =>
    cases hpc : c.loc t with
    | idle => simp [hpc, next] at hn
    | setter s =>
      rw [hpc] at hn
      obtain ⟨⟨s', o, e⟩, hs, he⟩ := Option.map_eq_some_iff.1 hn
      obtain ⟨rfl, rfl⟩ := by simpa using he
      have hok : s.Ok V c.shared.state := by
        have := hc.locals t
        rwa [hpc] at this
      exact hc.setter hpc (s.step_move hc.untouched hok hs)
    | getter kind g =>
      rw [hpc] at hn
      obtain ⟨⟨w', o⟩, hg, he⟩ := Option.map_eq_some_iff.1 hn
      obtain ⟨rfl, rfl⟩ := by simpa using he
      exact hc.getter hpc hg

end Future
end CoopSync
