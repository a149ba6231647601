/-
# The moves of a setter

What `set_value`, `set_exception` and `break_promise` can make of a promise
(`Call.Yields`), and what it means that an outcome stands in the shared state
(`Outcome.Stands`).  Each step of such a call is one of six moves (`SetterMove`,
`Setter.step_move`): the exchange fails; it succeeds and there is something to write,
or nothing; the slot or the exception is written; the final status is stored; a step
of `resume_all`.
-/

import CoopSync.Future.Model

namespace CoopSync
namespace Future

open WaitQueue

variable {τ ν σ ε : Type*}

/-! ### What a call can make of the promise -/

/-- The outcomes a call can have. -/
def Call.Yields (V : Variant ν σ) : Call ν ε → Outcome ν ε → Prop
  | .setValue v, o => o = .value v ∨ V.throws = true ∧ ∃ e, o = .exception e
  | .setException p, o => o = .exception p
  | .breakPromise, o => o = .broken

/-- The outcome stands in the shared state: the status says what it is, and what a
`get` will read was written. -/
def Outcome.Stands (V : Variant ν σ) (handle : Handle) (s : SharedState τ σ ε) :
    Outcome ν ε → Prop
  | .value v => s.status = .value ∧ (handle ≠ .released → V.read s.value = some v)
  | .exception e => s.status = .exception ∧ s.exception = some e
  | .broken => s.status = .broken

/-- A state that an outcome stands for is ready. -/
theorem Outcome.Stands.ready {V : Variant ν σ} {handle : Handle} {s : SharedState τ σ ε}
    {o : Outcome ν ε} (h : o.Stands V handle s) : s.status.ready = true := by
  cases o with
  | value v => rw [h.1]; rfl
  | exception e => rw [h.1]; rfl
  | broken => rw [show s.status = .broken from h]; rfl

/-- An outcome stands as long as the status, the exception and the slot stay. -/
theorem Outcome.Stands.congr {V : Variant ν σ} {handle handle' : Handle}
    {s s' : SharedState τ σ ε} {o : Outcome ν ε} (h : o.Stands V handle s)
    (hs : s'.status = s.status) (he : s'.exception = s.exception)
    (hv : handle' ≠ .released → s'.value = s.value ∧ handle ≠ .released) :
    o.Stands V handle' s' := by
  cases o with
  | value v =>
    refine ⟨hs.trans h.1, fun hne => ?_⟩
    obtain ⟨hval, hne'⟩ := hv hne
    rw [hval, h.2 hne']
  | exception e => exact ⟨hs.trans h.1, he.trans h.2⟩
  | broken => exact hs.trans h

/-! ### The moves of a setter -/

/-- Between a successful exchange and the final store. -/
def Setter.writing : Setter τ ν ε → ℕ
  | .construct _ | .mark _ | .storeValue _ | .writeException _ _ | .storeException _ _ => 1
  | .exchange _ | .resumeAll _ => 0

/-- What a setter relies on where it stands. -/
def Setter.Ok (V : Variant ν σ) (s : SharedState τ σ ε) : Setter τ ν ε → Prop
  | .exchange _ => True
  | .construct _ => s.value = V.init
  | .mark v => s.value = V.construct v V.init
  | .storeValue v => V.read s.value = some v
  | .writeException call e => call.Yields V (.exception e)
  | .storeException call e => call.Yields V (.exception e) ∧ s.exception = some e
  | .resumeAll _ => s.status.ready = true

/-- What one step of a setter does. -/
inductive SetterMove (V : Variant ν σ) (t : τ) (s : SharedState τ σ ε) :
    Setter τ ν ε → SharedState τ σ ε → Option (Setter τ ν ε) → Option (Event τ ν ε) → Prop
  /-- the exchange fails -/
  | rejects {call} (hne : s.status ≠ .empty) :
      SetterMove V t s (.exchange call) s none (some (.rejected t call call.rejection))
  /-- the exchange succeeds, and there is something to write -/
  | claims {call w} (he : s.status = .empty) (hw : w.writing = 1)
      (hok : w.Ok V { s with status := .transition }) :
      SetterMove V t s (.exchange call) { s with status := .transition } (some w) none
  /-- the exchange succeeds, and that was all -/
  | settles {call o st} (he : s.status = .empty) (hy : call.Yields V o)
      (hs : ∀ handle, o.Stands V handle { s with status := st }) :
      SetterMove V t s (.exchange call) { s with status := st } (some (.resumeAll .lock))
        (some (.effective t call o))
  /-- the slot or the exception is written -/
  | writes {w w' v x} (hw : w.writing = 1) (hw' : w'.writing = 1)
      (hok : w'.Ok V { s with value := v, exception := x }) :
      SetterMove V t s w { s with value := v, exception := x } (some w') none
  /-- the final status is stored -/
  | publishes {w call o st} (hw : w.writing = 1) (hy : call.Yields V o)
      (hs : ∀ handle, o.Stands V handle { s with status := st }) :
      SetterMove V t s w { s with status := st } (some (.resumeAll .lock))
        (some (.effective t call o))
  /-- a step of `resume_all` -/
  | resumes {r q o} (h : ResumeAll.step t s.waiters r = some (q, o)) :
      SetterMove V t s (.resumeAll r) { s with waiters := q } (o.map .resumeAll) none

/-- **Every step of a setter is a move.** -/
theorem Setter.step_move {V : Variant ν σ} {t : τ} {thrown : Option ε} {s s' : SharedState τ σ ε}
    {w : Setter τ ν ε} {o : Option (Setter τ ν ε)} {e : Option (Event τ ν ε)}
    (hinit : s.status = .empty → s.value = V.init) (hok : w.Ok V s)
    (h : w.step V t thrown s = some (s', o, e)) : SetterMove V t s w s' o e := by
  cases w with
  | exchange call =>
    simp only [Setter.step] at h
    split at h
    · rename_i he
      cases call with
      | setValue v =>
        simp only at h
        split at h
        · rename_i hd
          obtain ⟨rfl, rfl, rfl⟩ := by simpa using h
          refine .settles he (.inl rfl) fun _ => ⟨rfl, fun _ => ?_⟩
          -- the status is final at once, so reading the untouched slot gives the value
          rcases V.desired_eq with ht | ⟨-, -, hread⟩
          · rw [ht] at hd
            simp at hd
          · simpa only [hinit he] using hread v
        · rename_i hd
          have ht : V.desired = .transition := V.desired_eq.resolve_right fun hv => hd hv.1
          obtain ⟨rfl, rfl, rfl⟩ := by simpa [ht] using h
          exact .claims he rfl (hinit he)
      | setException p =>
        obtain ⟨rfl, rfl, rfl⟩ := by simpa using h
        exact .claims he rfl rfl
      | breakPromise =>
        obtain ⟨rfl, rfl, rfl⟩ := by simpa using h
        exact .settles he rfl fun _ => rfl
    · rename_i hne
      obtain ⟨rfl, rfl, rfl⟩ := by simpa using h
      exact .rejects hne
  | construct v =>
    have hvalue : s.value = V.init := hok
    simp only [Setter.step] at h
    split at h
    · obtain ⟨rfl, rfl, rfl⟩ := by simpa using h
      exact .writes (v := s.value) (x := s.exception) rfl rfl (.inr ⟨‹_›, _, rfl⟩)
    · obtain ⟨rfl, rfl, rfl⟩ := by simpa using h
      have hread := V.read_construct v
      cases hm : V.mark with
      | some mark => exact .writes (x := s.exception) rfl rfl (by simp [Setter.Ok, hvalue])
      | none =>
        refine .writes (x := s.exception) rfl rfl ?_
        simpa [Setter.Ok, hvalue, hm] using hread
  | mark v =>
    have hvalue : s.value = V.construct v V.init := hok
    obtain ⟨rfl, rfl, rfl⟩ := by simpa [Setter.step] using h
    refine .writes (x := s.exception) rfl rfl ?_
    simpa [Setter.Ok, hvalue] using V.read_construct v
  | storeValue v =>
    obtain ⟨rfl, rfl, rfl⟩ := by simpa [Setter.step] using h
    exact .publishes rfl (.inl rfl) fun _ => ⟨rfl, fun _ => hok⟩
  | writeException call e =>
    obtain ⟨rfl, rfl, rfl⟩ := by simpa [Setter.step] using h
    exact .writes (v := s.value) rfl rfl ⟨hok, rfl⟩
  | storeException call e =>
    obtain ⟨rfl, rfl, rfl⟩ := by simpa [Setter.step] using h
    exact .publishes rfl hok.1 fun _ => ⟨rfl, hok.2⟩
  | resumeAll r =>
    obtain ⟨⟨q, o⟩, hr, he⟩ := Option.map_eq_some_iff.1 h
    obtain ⟨rfl, rfl, rfl⟩ := by simpa using he
    exact .resumes hr

end Future
end CoopSync
