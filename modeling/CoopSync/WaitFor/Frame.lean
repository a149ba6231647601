/-
# The frame of the suspended task

The registration loop is a lambda that captures by reference, so it works on objects of the
task it has suspended, and so do the host callbacks, through the items.  When the task has
been resumed it may return, and those objects are gone.  Whoever calls `tbb::task::resume`
is the last to take an item off `pending`, so no notification is under way then; but the
loop still has its test to make.  `i < N` in `wait_for_all` compares two objects of the
lambda's own, a local variable and a constant; `it != last` in `wait_for_range` reads a
captured parameter.
-/

import CoopSync.WaitFor.Completion

namespace CoopSync
namespace WaitFor

variable {n : ℕ} {σ ε : Type*}

/-! ### What a step reads and writes -/

/-- The objects of the suspended task that callbacks refer to. -/
inductive Object
  | first
  | last
  | streamArray
  | syncMode
  | context
  | errs
  | items
deriving DecidableEq, Repr

/-- The objects that a step of `notify` reads or writes. -/
def Notify.touches : Notify ε → List Object
  | .write _ => [.items, .errs]
  | .fetchSub => [.items, .context]
  | .resume => [.context]

/-- The objects of the suspended task that a step of another party reads or writes; the HIP
overloads have no `sync_mode`. -/
def Call.touches (w : Call n σ ε) (hasSyncMode : Bool) : Pc n ε → List Object
  | .setTag => .context :: if w.bound = .last then [.first] else []
  | .test _ => if w.bound = .last then [.last] else []
  | .setItem _ => [.context, .errs, .items]
  | .register _ =>
    .items :: (if w.bound = .last then [] else [.streamArray]) ++
      if hasSyncMode then [.syncMode] else []
  | .failed _ m | .callback m => m.touches
  | _ => []

/-- Where the task has been resumed, the next step of `p` keeps off its frame. -/
def KeepsOff (w : Call n σ ε) (hasSyncMode : Bool)
    (c : Config (Party n) (Shared n ε) (Pc n ε)) (p : Party n) : Prop :=
  0 < c.shared.resumes → w.touches hasSyncMode (c.loc p) = []

/-- Where the task has been resumed, `p` is not about to make the test `it != last`. -/
def TestsInTime (w : Call n σ ε) (c : Config (Party n) (Shared n ε) (Pc n ε)) (p : Party n) :
    Prop :=
  0 < c.shared.resumes → w.bound = .last → ∀ i, c.loc p ≠ .test i

section Invariant

variable [DecidableEq ε] {w : Call n σ ε} {c : Config (Party n) (Shared n ε) (Pc n ε)}

/-- A step off the frame leaves it alone and does not depend on what is there. -/
theorem next_of_touches_eq_nil {b : Bool} {p : Party n} {s s' : Shared n ε} {l l' : Pc n ε}
    (hp : p ≠ .task) (ht : w.touches b l = []) (hn : next w p () s l = some (s', l')) :
    s' = s ∧ ∀ t : Shared n ε, t.enqueued = s.enqueued → next w p () t l = some (t, l') := by
  have hstep := step_of_next hn
  cases hstep with
  | more hi | left hi =>
    simp only [next] at hn ⊢
    split_ifs at hn ⊢ <;> simp_all
  | fails | succeeds =>
    exact ⟨rfl, fun t _ => by simp_all [next]⟩
  | @run i hi => exact ⟨rfl, fun t he => by simp [next, he, hi]⟩
  | setTag | setItem | register => simp [Call.touches] at ht
  | @failed _ m | @callback _ m => cases m <;> simp [Call.touches, Notify.touches] at ht
  | resumed | copy | returns => exact absurd rfl hp

/-- When the task has been resumed no notification is under way. -/
theorem Inv.no_notification (h : Inv w c) (hs : 0 < c.shared.resumes) {i : Fin n} {m : Notify ε}
    (hm : w.stage i (c.loc (w.owner i)) = some m)
    (hr : (c.loc (w.owner i)).resuming = Notify.resuming (some m)) : False := by
  have hpos : 0 < c.shared.resumes + total Pc.resuming c.loc := by omega
  have hnot := h.notified i ((h.all_of_resumed hpos).1.symm ▸ i.isLt)
  rw [hm] at hnot
  cases m with
  | write status => exact hnot.2.2 (h.taken_of_resumed hpos i)
  | fetchSub => exact hnot.2 (h.taken_of_resumed hpos i)
  | resume =>
    -- the task would be resumed a second time
    have hone := le_total Pc.resuming c.loc (w.owner i)
    have hres := h.resumed
    rw [hr] at hone
    simp only [Notify.resuming] at hone
    split_ifs at hres <;> omega

/-- **The one late access is the test of a range.** -/
theorem Inv.keepsOff_iff (h : Inv w c) (hn : 0 < n) (b : Bool) (p : Party n) :
    KeepsOff w b c p ↔ TestsInTime w c p := by
  constructor
  · intro hk hs hb i hp
    have := hk hs
    simp [hp, Call.touches, hb] at this
  · intro ht hs
    have hcalls := (h.all_of_resumed (by omega)).1
    have hfit := h.fits p
    rcases p with - | - | i
    · generalize c.loc .task = l at hfit
      cases l <;> first | rfl | exact hfit.elim
    · have hreg := h.registered.calls
      rw [hcalls] at hreg
      cases hl : c.loc .loop with
      | test i =>
        have hb : w.bound ≠ .last := fun hb => ht hs hb i hl
        simp [Call.touches, hb]
      | setTag =>
        rw [hl] at hreg
        exact absurd hreg hn.ne'
      | setItem i | register i =>
        rw [hl] at hreg
        exact absurd hreg i.isLt.ne'
      | failed i m =>
        rw [hl] at hfit
        have ho : w.owner i = .loop := owner_loop.2 hfit
        have hm : w.stage i (c.loc (w.owner i)) = some m := by
          rw [ho, hl]
          exact if_pos rfl
        exact (h.no_notification hs hm (by rw [ho, hl]; rfl)).elim
      | check | left => rfl
      | _ =>
        rw [hl] at hfit
        exact hfit.elim
    · cases hl : c.loc (.callback i) with
      | callback m =>
        rw [hl] at hfit
        have ho : w.owner i = .callback i :=
          owner_callback.2 ⟨rfl, ((h.registered.enqueued i).1 hfit).2⟩
        exact (h.no_notification hs (by rw [ho, hl]; rfl) (by rw [ho, hl]; rfl)).elim
      | idle | ended => rfl
      | _ =>
        rw [hl] at hfit
        exact hfit.elim

/-! ### A run that ends with a late test -/

/-- Everybody but the loop before its last test may step. -/
def HoldsLastTest (c : Config (Party n) (Shared n ε) (Pc n ε)) (p : Party n) (_ : Unit) : Prop :=
  ¬(p = .loop ∧ c.loc .loop = .test n)

/-- A loop that is kept from its last test does not end. -/
theorem not_left_of_held (hn : 0 < n) (h : Reach (next w) HoldsLastTest (start w) c) :
    c.loc .loop ≠ .left := by
  refine h.invariant (I := fun c => c.loc .loop ≠ .left) nofun fun c p a s l hr hI hok hs => ?_
  have hle := (inv_of_reachable hn hr.reachable).registered.le
  by_cases hp : p = .loop
  · obtain rfl := hp
    change Function.update c.loc .loop l .loop ≠ .left
    rw [Function.update_self]
    generalize hl : c.loc .loop = l₀ at hs hle
    have hstep := step_of_next hs
    cases hstep with
    | @left i hi =>
      have hin : i = n := le_antisymm hle (Call.more_eq_false hi)
      exact absurd ⟨rfl, by rw [hl, hin]⟩ hok
    | @failed _ _ _ o => cases o <;> nofun
    | _ => nofun
  · change Function.update c.loc p l .loop ≠ .left
    rwa [Function.update_of_ne (Ne.symm hp)]

/-- In some run the task is resumed before the last test of the loop. -/
theorem exists_resumed_at_last_test (hn : 0 < n) (w : Call n σ ε) :
    ∃ c, Reachable (next w) (start w) c ∧ 0 < c.shared.resumes ∧ c.loc .loop = .test n := by
  have hstart : Reach (next w) HoldsLastTest (start w) (start w) := .start
  obtain ⟨c, hc, hmax⟩ := hstart.exists_maximal fun c p a c' => work_step
  have hI := inv_of_reachable hn hc.reachable
  have hstuck : ∀ p, HoldsLastTest c p () → next w p () c.shared (c.loc p) = none := fun p hp => by
    simpa [Config.step] using hmax p () hp
  have hloop : c.loc .loop = .test n := by
    by_contra hl
    exact not_left_of_held hn hc (hI.left_of_stuck (hstuck .loop fun hp => hl hp.2))
  refine ⟨c, hc.reachable, ?_, hloop⟩
  have hone : c.shared.resumes = 1 := by
    refine hI.resumes_of_ended ?_ (fun i => ?_) ?_ fun i hi =>
      hI.ended_of_stuck hi (hstuck (.callback i) fun hp => absurd hp.1 (by simp))
    · rw [hI.registered.calls, hloop]
      rfl
    · rw [hloop]
      rfl
    · rw [hloop]
      rfl
  omega

/-- **Off the frame of the resumed task.**  In all runs of a call exactly where the loop
compares with the size, and in any run up to a test `it != last` that comes after the task
has been resumed. -/
theorem keeps_off_frame (hn : 0 < n) (w : Call n σ ε) (b : Bool) :
    ((∀ c, Reachable (next w) (start w) c → ∀ p c', c.step (next w) p () = some c' →
        KeepsOff w b c p) ↔ w.bound = .size) ∧
      ∀ c, Reachable (next w) (start w) c → ∀ p, KeepsOff w b c p ↔ TestsInTime w c p := by
  refine ⟨⟨fun hall => ?_, fun hb c h p _ _ => ?_⟩, fun c h p => ?_⟩
  · by_contra hb
    have hlast : w.bound = .last := by
      cases hw : w.bound with
      | last => rfl
      | size => exact absurd hw hb
    obtain ⟨c, hc, hs, hl⟩ := exists_resumed_at_last_test hn w
    have hmore : w.more n = false := by simp [Call.more, hlast]
    have hstep : c.step (next w) .loop () =
        some ⟨c.shared, Function.update c.loc .loop .left⟩ :=
      Config.step_eq_some.2 ⟨_, _, by simp [next, hl, hmore], rfl⟩
    have hoff := ((inv_of_reachable hn hc).keepsOff_iff hn b .loop).1 (hall c hc _ _ hstep)
    exact hoff hs hlast n hl
  · refine ((inv_of_reachable hn h).keepsOff_iff hn b p).2 fun _ hlast => ?_
    rw [hb] at hlast
    simp at hlast
  · exact (inv_of_reachable hn h).keepsOff_iff hn b p

/-- The run of `earlyCallback` up to the last test of the loop. -/
def beforeLastTest : List (Party 2 × Unit) :=
  turns [(.loop, 4, ()), (.callback 0, 3, ()), (.loop, 8, ())]

/-- The call `twice` made with `wait_for_all`. -/
def twiceAll : Call 2 ℕ ℕ := hipWaitForAll 0 twice.runtime twice.stream

/-- The last test of `wait_for_all` comes after the resume and keeps off the frame. -/
theorem keeps_off_frame_twice : ∃ c, Reachable (next twiceAll) (start twiceAll) c ∧
    c.loc .loop = .test 2 ∧ c.shared.resumes = 1 ∧ KeepsOff twiceAll false c .loop := by
  refine ⟨_, reachable_of_exec (l := beforeLastTest) rfl, rfl, rfl, ?_⟩
  have hreach : Reachable (next twiceAll) (start twiceAll) _ :=
    reachable_of_exec (l := beforeLastTest) rfl
  refine ((keeps_off_frame (by decide : 0 < 2) twiceAll false).2 _ hreach .loop).2 ?_
  intro _ hlast
  exact absurd hlast (by decide)

/-- The loop resumes the task and then reads `last`. -/
theorem last_read_after_resume : ¬∀ c, Reachable (next twice) (start twice) c →
    ∀ p c', c.step (next twice) p () = some c' → KeepsOff twice false c p := by
  intro hall
  have hreach : Reachable (next twice) (start twice) _ :=
    reachable_of_exec (l := beforeLastTest) rfl
  have hoff := hall _ hreach .loop _ rfl
  exact absurd (hoff (by decide)) (by decide)

end Invariant

end WaitFor
end CoopSync
