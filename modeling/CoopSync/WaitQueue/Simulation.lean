/-
# The linked nodes are the lists of suspend points

Every run of the machine with nodes is matched, step by step, by one of `WaitQueue.Model`
(`exists_simulates`): each step of a function is one of the other machine's, or there is
nothing to match in it (`Matched`), and keeps the queues `Linked`.
-/

import CoopSync.WaitQueue.Linked

namespace CoopSync
namespace WaitQueue
namespace Nodes

open IntrusiveList

variable {τ α : Type*} [DecidableEq τ] [Fintype τ] {s s' : Queue τ α} {pcs : τ → Pc τ α}
  {q q' : WaitQueue.Queue τ} {pcs' : τ → WaitQueue.Pc τ} {t u : τ} {a : α} {sp : SuspendPoint τ}
  {pc : Pc τ α} {pc' : WaitQueue.Pc τ}

/-- What the other machine does at a step of `t` that has the outcome `o`: nothing, where
there is nothing to note, or a step that returns the same. -/
def Matched {P : Type*} (t : τ) (o : P ⊕ Value) (q : WaitQueue.Queue τ) (pc : WaitQueue.Pc τ)
    (q' : WaitQueue.Queue τ) (pc' : WaitQueue.Pc τ) : Prop :=
  (q' = q ∧ pc' = pc ∧ o.getRight? = none ∧ (∀ queued, pc.snapshot queued = none) ∧
    pc.resumes = none) ∨
  ∃ pred o', pc.step t pred q = some (q', o') ∧ pc' = o'.elim id (fun _ => .idle) ∧
    o.getRight? = o'.getRight?

section Matched

variable {P : Type*} {place : P} {value : Value}

omit [Fintype τ] in
/-- Where there is nothing to note the other machine may stay. -/
theorem Matched.stays (hs : ∀ queued, pc'.snapshot queued = none) (hr : pc'.resumes = none) :
    Matched t (.inl place : P ⊕ Value) q pc' q pc' := .inl ⟨rfl, rfl, rfl, hs, hr⟩

omit [Fintype τ] in
/-- It may step to another place. -/
theorem Matched.goesOn {pc₁ : WaitQueue.Pc τ} (pred : Bool)
    (hs : pc'.step t pred q = some (q', .inl pc₁)) :
    Matched t (.inl place : P ⊕ Value) q pc' q' pc₁ := .inr ⟨pred, .inl pc₁, hs, rfl, rfl⟩

omit [Fintype τ] in
/-- Or it returns the same. -/
theorem Matched.returns (pred : Bool) (hs : pc'.step t pred q = some (q', .inr value)) :
    Matched t (.inr value : P ⊕ Value) q pc' q' .idle := .inr ⟨pred, .inr value, hs, rfl, rfl⟩

omit [Fintype τ] in
/-- What is made of a place that goes on is matched as well. -/
theorem Matched.map {P' : Type*} {o : P ⊕ Value} {pc₁ : WaitQueue.Pc τ}
    (h : Matched t o q pc' q' pc₁) (f : P → P') : Matched t (o.map f id) q pc' q' pc₁ := by
  cases o <;> exact h

omit [Fintype τ] in
/-- A step of the loop, which is that of a call that returns `value` when the loop ends. -/
theorem Matched.loop {Q : Type*} {f' : WaitQueue.DoResumeAll τ → WaitQueue.Pc τ}
    {d' : WaitQueue.DoResumeAll τ} {o : Option Q} (f : Q → P)
    (ho : o = none ↔ (d'.step q).2 = none)
    (hs : (f' d').step t false q =
      some ((d'.step q).1, (d'.step q).2.elim (.inr value) fun d => .inl (f' d))) :
    Matched t (o.elim (.inr value) fun d => .inl (f d) : P ⊕ Value) q (f' d') (d'.step q).1
      ((d'.step q).2.elim .idle f') := by
  cases hd' : (d'.step q).2 with
  | none =>
    rw [hd'] at hs
    rw [ho.2 hd']
    exact .returns false hs
  | some d₁ =>
    rw [hd'] at hs
    obtain ⟨d, rfl⟩ := Option.ne_none_iff_exists'.1 (mt ho.1 (by simp [hd']))
    exact .goesOn false hs

end Matched

variable [DecidableEq α] {pred : Bool} {address : α}

/-- A step of `wait_if`. -/
theorem Linked.waitIf (h : Linked s pcs q pcs') (hL : Ledger q fun u => (pcs' u).view)
    {w : WaitIf τ α} {o : WaitIf τ α ⊕ Value} (hpc : pcs t = .waitIf w)
    (hs : w.step t pred address s = some (s', o)) : ∃ q' pc', Matched t o q (pcs' t) q' pc' ∧
      Linked s' (Function.update pcs t (o.elim .waitIf fun _ => .idle)) q'
        (Function.update pcs' t pc') := by
  have hm := h.place t
  rw [hpc] at hm
  cases w with
  | fastPath =>
    generalize hp : pcs' t = p at hm
    cases hm
    obtain ⟨rfl, rfl⟩ := by simpa [WaitIf.step] using hs
    cases pred with
    | false =>
      refine ⟨q, .idle, .returns false rfl, ?_⟩
      exact h.moves hL (by rw [hpc]; rfl) (by rw [hpc]; nofun) fun _ => .idle
    | true =>
      refine ⟨q, .waitIf .suspend, .goesOn true rfl, ?_⟩
      exact h.moves hL (by rw [hpc]; rfl) (by rw [hpc]; nofun) fun _ => .construct
  | construct =>
    generalize hp : pcs' t = p at hm
    cases hm
    simp only [WaitIf.step] at hs
    split at hs
    · obtain ⟨rfl, rfl⟩ := by simpa using hs
      exact ⟨q, _, .stays (fun _ => rfl) rfl, h.construct hL (by rw [hpc]; rfl) (by rw [hpc]; rfl)
        (Option.isNone_iff_eq_none.1 ‹_›)⟩
    · nomatch hs
  | suspend a =>
    generalize hp : pcs' t = p at hm
    cases hm with
    | suspend hn =>
      obtain ⟨rfl, rfl⟩ := by simpa [WaitIf.step] using hs
      refine ⟨_, _, .goesOn false rfl, ?_⟩
      refine h.quiet hL ⟨rfl, rfl, rfl, rfl⟩ h.mutex h.resumed ?_ rfl (by rw [hpc]; rfl)
        (by rw [hpc]; nofun) fun _ => ?_
      · rw [h.suspends]
      · rw [h.suspends]
        exact .lock hn
  | lock a sp =>
    generalize hp : pcs' t = p at hm
    cases hm with
    | lock hn =>
      obtain ⟨s₁, hs₁, he⟩ := Option.map_eq_some_iff.1 hs
      obtain ⟨rfl, rfl⟩ := by simpa using he
      obtain ⟨q', hq', hlinked⟩ := h.acquire hL hs₁ (.waitIf (.recheck a sp))
        (by rw [hpc]; rfl) (by rw [hpc]; exact fun _ _ => id) fun _ => .recheck hn
      exact ⟨q', _, .goesOn false (by simp [WaitQueue.Pc.step, WaitQueue.WaitIf.step, hq']),
        hlinked⟩
  | recheck a sp =>
    generalize hp : pcs' t = p at hm
    cases hm with
    | recheck hn =>
      obtain ⟨rfl, rfl⟩ := by simpa [WaitIf.step] using hs
      cases pred with
      | false =>
        refine ⟨q, .waitIf (.unlockResume sp), .goesOn false rfl, ?_⟩
        exact h.moves hL (by rw [hpc]; rfl) (by rw [hpc]; exact fun _ _ => id) fun _ =>
          .unlockResume
      | true =>
        refine ⟨q, .waitIf (.pushBack sp), .goesOn true rfl, ?_⟩
        exact h.moves hL (by rw [hpc]; rfl) (by rw [hpc]; exact fun _ _ => id) fun _ =>
          .setValue hn
  | setValue a sp =>
    generalize hp : pcs' t = p at hm
    cases hm with
    | setValue hn =>
      obtain ⟨rfl, rfl⟩ := by simpa [WaitIf.step] using hs
      exact ⟨q, _, .stays (fun _ => rfl) rfl, h.setValue hL hpc hn⟩
  | pushBack a sp =>
    generalize hp : pcs' t = p at hm
    cases hm with
    | pushBack hn hv =>
      obtain ⟨s₁, hs₁, hlinked⟩ := h.push hL hpc hp hn hv
      obtain ⟨rfl, rfl⟩ := by simpa [WaitIf.step, hs₁] using hs
      exact ⟨_, _, .goesOn false rfl, hlinked⟩
  | unlockQueued a sp =>
    generalize hp : pcs' t = p at hm
    cases hm
    obtain ⟨rfl, rfl⟩ := by simpa [WaitIf.step] using hs
    exact ⟨_, _, .goesOn false rfl, h.release hL (by rw [hpc]; rfl)
      (by rw [hpc]; exact fun _ _ => id) fun _ => .queued⟩
  | unlockResume a sp =>
    generalize hp : pcs' t = p at hm
    cases hm
    obtain ⟨rfl, rfl⟩ := by simpa [WaitIf.step] using hs
    exact ⟨_, _, .goesOn false rfl, h.release hL (by rw [hpc]; rfl)
      (by rw [hpc]; exact fun _ _ => id) fun _ => .resume⟩
  | resume a sp =>
    generalize hp : pcs' t = p at hm
    cases hm
    obtain ⟨rfl, rfl⟩ := by simpa [WaitIf.step] using hs
    exact ⟨_, _, .goesOn false rfl, h.resume hL (by rw [hpc]; rfl)
      (by rw [hpc]; exact fun _ _ => id) fun _ => .selfResumed⟩
  | queued a sp | selfResumed a sp =>
    generalize hp : pcs' t = p at hm
    cases hm
    simp only [WaitIf.step] at hs
    split at hs
    · obtain ⟨rfl, rfl⟩ := by simpa using hs
      have hsp : sp ∈ q.resumed := h.resumed ▸ ‹sp ∈ s.resumed›
      refine ⟨q, .idle, .returns false ?_, h.returns hL (by rw [hpc]; rfl) hsp⟩
      simp [WaitQueue.Pc.step, WaitQueue.WaitIf.step, hsp]
    · nomatch hs

/-! ### The resumers -/

/-- The places of `do_resume_all` in one of its callers, in both machines. -/
structure Loop (f : DoResumeAll α → Pc τ α) (f' : WaitQueue.DoResumeAll τ → WaitQueue.Pc τ) :
    Prop where
  matches_of : ∀ {heap pcs d d'}, LoopMatches heap pcs d d' → Matches heap pcs (f d) (f' d')
  of_matches : ∀ {heap pcs d d'}, Matches heap pcs (f d) (f' d') → LoopMatches heap pcs d d'
  view : ∀ d', (f' d').view = d'.view
  address : ∀ d, (f d).address = none
  held : ∀ d, (f d).held = none

omit [DecidableEq τ] [Fintype τ] [DecidableEq α] in
/-- `resume_all` runs the loop. -/
theorem Loop.resumeAll : Loop (τ := τ) (α := α) (fun d => .resumeAll (.doResumeAll d))
    fun d => .resumeAll (.doResumeAll d) where
  matches_of hd := .allLoop hd
  of_matches hm := by
    cases hm with
    | allLoop hd => exact hd
  view _ := rfl
  address _ := rfl
  held _ := rfl

omit [DecidableEq τ] [Fintype τ] [DecidableEq α] in
/-- So does `resume_n`. -/
theorem Loop.resumeN (k : ℕ) : Loop (τ := τ) (α := α) (fun d => .resumeN (.doResumeAll k d))
    fun d => .resumeN (.doResumeAll k d) where
  matches_of hd := .nLoop hd
  of_matches hm := by
    cases hm with
    | nLoop hd => exact hd
  view _ := rfl
  address _ := rfl
  held _ := rfl

/-- A step of `do_resume_all` is possible, and matched by one of the other machine. -/
theorem Linked.doResumeAll (h : Linked s pcs q pcs') (hL : Ledger q fun u => (pcs' u).view)
    {f : DoResumeAll α → Pc τ α} {f' : WaitQueue.DoResumeAll τ → WaitQueue.Pc τ} (hf : Loop f f')
    {d : DoResumeAll α} {d' : WaitQueue.DoResumeAll τ} (hpc : pcs t = f d) (hpc' : pcs' t = f' d') :
    ∃ s' o, d.step s = some (s', o) ∧ (o = none ↔ (d'.step q).2 = none) ∧
      Linked s' (Function.update pcs t (o.elim .idle f)) (d'.step q).1
        (Function.update pcs' t ((d'.step q).2.elim .idle f')) := by
  have haddress : (pcs t).address = none := hpc ▸ hf.address d
  have hheld : (pcs t).held = none := hpc ▸ hf.held d
  have hm := h.place t
  rw [hpc, hpc'] at hm
  cases hf.of_matches hm with
  | @resume a l sp sps ha hl =>
    refine ⟨s.resume sp, some (.popFront l), by simp [DoResumeAll.step, ha.1],
      iff_of_false nofun nofun, ?_⟩
    change Linked (s.resume sp) (Function.update pcs t (f (.popFront l))) (q.resume sp)
      (Function.update pcs' t (f' (.popFront sps)))
    refine h.resume hL ((hf.address _).trans haddress.symm) (by simp [hheld]) fun hm => ?_
    rw [hpc, hpc'] at hm
    cases hf.of_matches hm with
    | resume _ hl => exact hf.matches_of (.popFront hl)
  | @popFront l sps hl =>
    cases sps with
    | nil =>
      refine ⟨s, none, by simp [DoResumeAll.step, hl.popFront_nil], iff_of_true rfl rfl, ?_⟩
      change Linked s (Function.update pcs t .idle) q (Function.update pcs' t .idle)
      exact h.moves hL haddress.symm (fun _ _ => Pc.not_held hheld) fun _ => .idle
    | cons sp sps =>
      obtain ⟨a, heap, l', hpop, hat, hnull, hframe, hvalue, hl'⟩ := hl.popFront_cons
      refine ⟨{ s with heap := heap }, some (.resume a l'), by simp [DoResumeAll.step, hpop],
        iff_of_false nofun nofun, ?_⟩
      have hhands : ∀ sp' ∈ sp :: sps, sp' ∈ (pcs' t).view.hands := by
        rw [hpc', hf.view]
        exact fun _ => id
      have hmine := hhands sp (List.mem_cons_self ..)
      have hheld' : ∀ b sp', (pcs t).held = some (b, sp') → sp' ∉ q.resumed →
          (f (.resume a l')).held = some (b, sp') := by simp [hheld]
      have hkept : ∀ sp' ∈ sp :: sps, Kept s.heap pcs s.heap
          (Function.update pcs t (f (.resume a l'))) sp' := fun sp' hsp' =>
        Linked.kept hL hheld' (.inr ⟨t, hhands sp' hsp'⟩) fun _ _ => rfl
      refine h.step hL h.mutex h.resumed h.suspends h.queued
        (h.frame_of_address rfl ((hf.address _).trans haddress.symm)) hheld' (fun b hb => ?_)
        (h.waiters_kept hL hheld' fun b sp' hsp' hb => hframe b ?_)
        (hf.matches_of (.resume ?_ (hl'.kept fun sp' hsp' b hb => ⟨rfl, ?_⟩)))
      · by_cases hba : b = a
        · exact .inr (.inr ⟨sp, hba ▸ hat, .inl hmine⟩)
        · exact absurd (hframe b hba) hb
      · rintro rfl
        exact hL.notMem_waiters_of_hands hmine (hb.unique hat ▸ hsp')
      · exact ⟨(hvalue a).trans hat.1, (hkept sp (List.mem_cons_self ..) a hat).2.2⟩
      · have hb' : At s.heap pcs b sp' := ⟨(hvalue b).symm.trans hb.1, hb.2⟩
        exact ⟨hb.1, (hkept sp' (List.mem_cons_of_mem _ hsp') b hb').2.2⟩

/-- A step of `resume_one`. -/
theorem Linked.resumeOne (h : Linked s pcs q pcs') (hL : Ledger q fun u => (pcs' u).view)
    {r : ResumeOne α} {o : ResumeOne α ⊕ Value} (hpc : pcs t = .resumeOne r)
    (hs : r.step t s = some (s', o)) : ∃ q' pc', Matched t o q (pcs' t) q' pc' ∧
      Linked s' (Function.update pcs t (o.elim .resumeOne fun _ => .idle)) q'
        (Function.update pcs' t pc') := by
  have hm := h.place t
  have haddress : (pcs t).address = none := by rw [hpc]; rfl
  have hheld : (pcs t).held = none := by rw [hpc]; rfl
  rw [hpc] at hm
  cases r with
  | lock =>
    generalize hp : pcs' t = p at hm
    cases hm
    obtain ⟨s₁, hs₁, he⟩ := Option.map_eq_some_iff.1 hs
    obtain ⟨rfl, rfl⟩ := by simpa using he
    obtain ⟨q', hq', hlinked⟩ := h.acquire hL hs₁ (.resumeOne .popFront)
      haddress.symm (fun _ _ => Pc.not_held hheld) fun _ => .onePopFront
    exact ⟨q', _, .goesOn false (by simp [WaitQueue.Pc.step, WaitQueue.ResumeOne.step, hq']),
      hlinked⟩
  | popFront =>
    generalize hp : pcs' t = p at hm
    cases hm
    cases hw : q.waiters with
    | nil =>
      obtain ⟨rfl, rfl⟩ := by simpa [ResumeOne.step, h.popFront_nil hw] using hs
      refine ⟨{ q with waiters := q.waiters.tail }, .resumeOne (.unlock q.waiters.head?),
        .goesOn false rfl, ?_⟩
      rw [hw]
      exact h.quiet hL ⟨rfl, rfl, rfl, rfl⟩ h.mutex h.resumed h.suspends hw.symm
        haddress.symm (fun _ _ => Pc.not_held hheld) fun _ => .oneUnlockNone
    | cons sp sps =>
      obtain ⟨s₁, a, hs₁, hlinked⟩ := h.popFront hL hw (fun a => .resumeOne (.unlock (some a)))
        (.resumeOne (.unlock (some sp))) (by rw [hp]; rfl) hheld
        (fun _ => haddress.symm) fun _ _ ha _ _ => .oneUnlock ha
      obtain ⟨rfl, rfl⟩ := by simpa [ResumeOne.step, hs₁] using hs
      refine ⟨_, _, .goesOn false ?_, hlinked⟩
      simp [WaitQueue.Pc.step, WaitQueue.ResumeOne.step, hw]
  | unlock waiter =>
    generalize hp : pcs' t = p at hm
    cases hm with
    | oneUnlockNone =>
      obtain ⟨rfl, rfl⟩ := by simpa [ResumeOne.step] using hs
      exact ⟨_, _, .returns false rfl, h.release hL haddress.symm (fun _ _ => Pc.not_held hheld)
        fun _ => .idle⟩
    | oneUnlock ha =>
      obtain ⟨rfl, rfl⟩ := by simpa [ResumeOne.step] using hs
      refine ⟨_, _, .goesOn false rfl, h.release hL haddress.symm (fun _ _ => Pc.not_held hheld)
        fun hm => ?_⟩
      rw [hpc, hp] at hm
      cases hm with
      | oneUnlock ha => exact .oneResume ha
  | resume a =>
    generalize hp : pcs' t = p at hm
    cases hm with
    | oneResume ha =>
      obtain ⟨rfl, rfl⟩ := by simpa [ResumeOne.step, ha.1] using hs
      exact ⟨_, _, .returns false rfl, h.resume hL haddress.symm (fun _ _ => Pc.not_held hheld)
        fun _ => .idle⟩

/-- The whole list is taken, and the assertion after the swap holds. -/
theorem Linked.swap (h : Linked s pcs q pcs') (hL : Ledger q fun u => (pcs' u).view)
    (hpc : pcs t = .resumeAll .swap) :
    ResumeAll.step t s .swap =
        some ({ s with waiters := {}, queued := [] }, .inl (.unlock s.waiters)) ∧
      Linked { s with waiters := {}, queued := [] }
        (Function.update pcs t (.resumeAll (.unlock s.waiters))) { q with waiters := [] }
        (Function.update pcs' t (.resumeAll (.unlock q.waiters))) := by
  have hheld : ∀ b sp', (pcs t).held = some (b, sp') → sp' ∉ q.resumed →
      (Pc.resumeAll (.unlock s.waiters)).held = some (b, sp') := by
    rw [hpc]
    nofun
  have hempty : Holds s.heap {} [] := .nil
  have hassert : IntrusiveList.empty s.heap {} = some true := hempty.empty
  refine ⟨by simp [ResumeAll.step, IntrusiveList.swap, hassert], ?_⟩
  exact h.step hL h.mutex h.resumed h.suspends rfl (h.frame_of_address rfl (by rw [hpc]; rfl)) hheld
    (fun b hb => absurd rfl hb) ⟨[], hempty, .nil⟩
    (.allUnlock (h.waiters_kept hL hheld fun _ _ _ _ => rfl))

/-- A step of `resume_all`. -/
theorem Linked.resumeAll (h : Linked s pcs q pcs') (hL : Ledger q fun u => (pcs' u).view)
    {r : ResumeAll α} {o : ResumeAll α ⊕ Value} (hpc : pcs t = .resumeAll r)
    (hs : r.step t s = some (s', o)) : ∃ q' pc', Matched t o q (pcs' t) q' pc' ∧
      Linked s' (Function.update pcs t (o.elim .resumeAll fun _ => .idle)) q'
        (Function.update pcs' t pc') := by
  have hm := h.place t
  have haddress : (pcs t).address = none := by rw [hpc]; rfl
  have hheld : (pcs t).held = none := by rw [hpc]; rfl
  rw [hpc] at hm
  cases r with
  | lock =>
    generalize hp : pcs' t = p at hm
    cases hm
    obtain ⟨s₁, hs₁, he⟩ := Option.map_eq_some_iff.1 hs
    obtain ⟨rfl, rfl⟩ := by simpa using he
    obtain ⟨q', hq', hlinked⟩ := h.acquire hL hs₁ (.resumeAll .swap)
      haddress.symm (fun _ _ => Pc.not_held hheld) fun _ => .allSwap
    exact ⟨q', _, .goesOn false (by simp [WaitQueue.Pc.step, WaitQueue.ResumeAll.step, hq']),
      hlinked⟩
  | swap =>
    generalize hp : pcs' t = p at hm
    cases hm
    obtain ⟨hstep, hlinked⟩ := h.swap hL hpc
    rw [hstep] at hs
    obtain ⟨rfl, rfl⟩ := by simpa using hs
    exact ⟨_, _, .goesOn false rfl, hlinked⟩
  | unlock l =>
    generalize hp : pcs' t = p at hm
    cases hm with
    | allUnlock hl =>
      obtain ⟨rfl, rfl⟩ := by simpa [ResumeAll.step] using hs
      refine ⟨_, _, .goesOn false rfl, h.release hL haddress.symm (fun _ _ => Pc.not_held hheld)
        fun hm => ?_⟩
      rw [hpc, hp] at hm
      cases hm with
      | allUnlock hl => exact .allLoop (.popFront hl)
  | doResumeAll d =>
    generalize hp : pcs' t = p at hm
    cases hm with
    | @allLoop _ d' hd =>
      obtain ⟨s₁, o₁, hs₁, hends, hlinked⟩ := h.doResumeAll hL .resumeAll hpc hp
      obtain ⟨rfl, rfl⟩ := by simpa [ResumeAll.step, hs₁] using hs
      refine ⟨(d'.step q).1, (d'.step q).2.elim .idle fun d => .resumeAll (.doResumeAll d),
        .loop _ hends ?_, ?_⟩
      · cases hd' : (d'.step q).2 <;> simp [WaitQueue.Pc.step, WaitQueue.ResumeAll.step, hd']
      · cases o₁ <;> exact hlinked

/-- The waiter that has been taken goes to the local list. -/
theorem Linked.pushLocal (h : Linked s pcs q pcs') (hL : Ledger q fun u => (pcs' u).view)
    {n k : ℕ} {l : IntrusiveList α} {sps : List (SuspendPoint τ)}
    (hpc : pcs t = .resumeN (.pushBack n k l a))
    (hpc' : pcs' t = .resumeN (.loop n (k + 1) (sps ++ [sp]))) (hl : Chained s.heap pcs l sps)
    (ha : At s.heap pcs a sp) (hn : s.heap.next a = none) :
    ∃ heap l', l.pushBack s.heap a = some (heap, l') ∧
      Linked { s with heap := heap }
        (Function.update pcs t (.resumeN (.popFront n (k + 1) l'))) q
        (Function.update pcs' t (.resumeN (.loop n (k + 1) (sps ++ [sp])))) := by
  have hhands : ∀ sp' ∈ sps ++ [sp], sp' ∈ (pcs' t).view.hands := by
    rw [hpc']
    exact fun _ => id
  have hnodup := hL.hands_nodup t
  rw [hpc'] at hnodup
  have hsp : sp ∉ sps := fun hmem =>
    (List.nodup_append.1 hnodup).2.2 sp hmem sp (List.mem_singleton_self sp) rfl
  obtain ⟨heap, l', hpush, hframe, hvalue, hl'⟩ := hl.pushBack hn ha hsp
  have hheld : ∀ b sp', (pcs t).held = some (b, sp') → sp' ∉ q.resumed →
      (Pc.resumeN (.popFront n (k + 1) l')).held = some (b, sp') := by
    rw [hpc]
    nofun
  refine ⟨heap, l', hpush, h.step hL h.mutex h.resumed h.suspends h.queued
    (h.frame_of_address rfl (by rw [hpc]; rfl)) hheld (fun b hb => ?_)
    (h.waiters_kept hL hheld fun b sp' hsp' hb => hframe b fun sp'' hsp'' hb' => ?_)
    (.nPopFront (hl'.kept fun sp' hsp' b hb => ⟨rfl, ?_⟩))⟩
  · by_contra hw
    exact hb (hframe b fun sp' hsp' hb' =>
      hw (.inr (.inr ⟨sp', hb', .inl (hhands sp' (List.mem_append_left _ hsp'))⟩)))
  · obtain rfl := hb.unique hb'
    exact hL.notMem_waiters_of_hands (hhands sp' (List.mem_append_left _ hsp'')) hsp'
  · have hstays : Kept s.heap pcs s.heap
        (Function.update pcs t (.resumeN (.popFront n (k + 1) l'))) sp' :=
      Linked.kept hL hheld (.inr ⟨t, hhands sp' hsp'⟩) fun _ _ => rfl
    exact ⟨hb.1, (hstays b ⟨(hvalue b).symm.trans hb.1, hb.2⟩).2.2⟩

/-- A step of `resume_n`. -/
theorem Linked.resumeN (h : Linked s pcs q pcs') (hL : Ledger q fun u => (pcs' u).view)
    {r : ResumeN α} {o : ResumeN α ⊕ Value} (hpc : pcs t = .resumeN r)
    (hs : r.step t s = some (s', o)) : ∃ q' pc', Matched t o q (pcs' t) q' pc' ∧
      Linked s' (Function.update pcs t (o.elim .resumeN fun _ => .idle)) q'
        (Function.update pcs' t pc') := by
  have hm := h.place t
  have haddress : (pcs t).address = none := by rw [hpc]; rfl
  have hheld : (pcs t).held = none := by rw [hpc]; rfl
  rw [hpc] at hm
  cases r with
  | enter n =>
    generalize hp : pcs' t = p at hm
    cases hm
    obtain ⟨rfl, rfl⟩ := by simpa [ResumeN.step] using hs
    by_cases hn : n = 0
    · rw [if_pos hn]
      refine ⟨q, .idle,
        .returns false (by simp [WaitQueue.Pc.step, WaitQueue.ResumeN.step, hn]), ?_⟩
      exact h.moves hL haddress.symm (fun _ _ => Pc.not_held hheld) fun _ => .idle
    · rw [if_neg hn]
      refine ⟨q, .resumeN (.lock n),
        .goesOn false (by simp [WaitQueue.Pc.step, WaitQueue.ResumeN.step, hn]), ?_⟩
      exact h.moves hL haddress.symm (fun _ _ => Pc.not_held hheld) fun _ => .nLock
  | lock n =>
    generalize hp : pcs' t = p at hm
    cases hm
    obtain ⟨s₁, hs₁, he⟩ := Option.map_eq_some_iff.1 hs
    obtain ⟨rfl, rfl⟩ := by simpa using he
    obtain ⟨q', hq', hlinked⟩ := h.acquire hL hs₁ (.resumeN (.popFront n 0 {}))
      haddress.symm (fun _ _ => Pc.not_held hheld) fun _ => .nPopFront ⟨[], .nil, .nil⟩
    exact ⟨q', _, .goesOn false (by simp [WaitQueue.Pc.step, WaitQueue.ResumeN.step, hq']),
      hlinked⟩
  | popFront n k l =>
    generalize hp : pcs' t = p at hm
    cases hm with
    | @nPopFront _ _ _ sps hl =>
      -- the loop ends, with the list it has
      have hends : Linked s (Function.update pcs t (.resumeN (.unlock k l))) q
          (Function.update pcs' t (.resumeN (.unlock k sps))) :=
        h.moves hL haddress.symm (fun _ _ => Pc.not_held hheld) fun hm => by
            rw [hpc, hp] at hm
            cases hm with
            | nPopFront hl => exact .nUnlock hl
      by_cases hk : k < n
      · cases hw : q.waiters with
        | nil =>
          obtain ⟨rfl, rfl⟩ := by simpa [ResumeN.step, hk, h.popFront_nil hw] using hs
          exact ⟨q, _, .goesOn false (by simp [WaitQueue.Pc.step, WaitQueue.ResumeN.step, hk, hw]),
            hends⟩
        | cons sp rest =>
          obtain ⟨s₁, a, hs₁, hlinked⟩ := h.popFront hL hw
            (fun a => .resumeN (.pushBack n k l a)) (.resumeN (.loop n (k + 1) (sps ++ [sp])))
            (by rw [hp]; rfl) hheld (fun _ => haddress.symm)
            fun heap a ha hn hm => by
              rw [hpc, hp] at hm
              cases hm with
              | nPopFront hl => exact .nPushBack hl ha hn
          obtain ⟨rfl, rfl⟩ := by simpa [ResumeN.step, hk, hs₁] using hs
          refine ⟨_, _, .goesOn false ?_, hlinked⟩
          simp [WaitQueue.Pc.step, WaitQueue.ResumeN.step, hk, hw]
      · obtain ⟨rfl, rfl⟩ := by simpa [ResumeN.step, hk] using hs
        exact ⟨q, _, .goesOn false (by simp [WaitQueue.Pc.step, WaitQueue.ResumeN.step, hk]), hends⟩
  | pushBack n k l a =>
    generalize hp : pcs' t = p at hm
    cases hm with
    | nPushBack hl ha hn =>
      obtain ⟨heap, l', hpush, hlinked⟩ := h.pushLocal hL hpc hp hl ha hn
      obtain ⟨rfl, rfl⟩ := by simpa [ResumeN.step, hpush] using hs
      exact ⟨q, _, .stays (fun _ => rfl) rfl, hlinked⟩
  | unlock k l =>
    generalize hp : pcs' t = p at hm
    cases hm with
    | nUnlock hl =>
      obtain ⟨rfl, rfl⟩ := by simpa [ResumeN.step] using hs
      refine ⟨_, _, .goesOn false rfl, h.release hL haddress.symm (fun _ _ => Pc.not_held hheld)
        fun hm => ?_⟩
      rw [hpc, hp] at hm
      cases hm with
      | nUnlock hl => exact .nLoop (.popFront hl)
  | doResumeAll k d =>
    generalize hp : pcs' t = p at hm
    cases hm with
    | @nLoop _ _ d' hd =>
      obtain ⟨s₁, o₁, hs₁, hends, hlinked⟩ := h.doResumeAll hL (.resumeN k) hpc hp
      obtain ⟨rfl, rfl⟩ := by simpa [ResumeN.step, hs₁] using hs
      refine ⟨(d'.step q).1, (d'.step q).2.elim .idle fun d => .resumeN (.doResumeAll k d),
        .loop _ hends ?_, ?_⟩
      · cases hd' : (d'.step q).2 <;> simp [WaitQueue.Pc.step, WaitQueue.ResumeN.step, hd']
      · cases o₁ <;> exact hlinked

omit [DecidableEq α] in
/-- A step of `empty`. -/
theorem Linked.empty (h : Linked s pcs q pcs') (hL : Ledger q fun u => (pcs' u).view)
    {e : Empty} {o : Empty ⊕ Value} (hpc : pcs t = .empty e)
    (hs : emptyStep t s e = some (s', o)) : ∃ q' pc', Matched t o q (pcs' t) q' pc' ∧
      Linked s' (Function.update pcs t (o.elim .empty fun _ => .idle)) q'
        (Function.update pcs' t pc') := by
  have hm := h.place t
  have haddress : (pcs t).address = none := by rw [hpc]; rfl
  have hheld : (pcs t).held = none := by rw [hpc]; rfl
  rw [hpc] at hm
  generalize hp : pcs' t = p at hm
  cases hm
  cases e with
  | lock =>
    obtain ⟨s₁, hs₁, he⟩ := Option.map_eq_some_iff.1 hs
    obtain ⟨rfl, rfl⟩ := by simpa using he
    obtain ⟨q', hq', hlinked⟩ := h.acquire hL hs₁ (.empty .read)
      haddress.symm (fun _ _ => Pc.not_held hheld) fun _ => .empty
    exact ⟨q', _, .goesOn false (by simp [WaitQueue.Pc.step, WaitQueue.Empty.step, hq']), hlinked⟩
  | read =>
    obtain ⟨xs, hq, hat⟩ := h.waiters
    have hsame : xs.isEmpty = q.waiters.isEmpty := by
      rw [Bool.eq_iff_iff, List.isEmpty_iff_length_eq_zero, List.isEmpty_iff_length_eq_zero,
        hat.length_eq]
    obtain ⟨rfl, rfl⟩ := by simpa [emptyStep, hq.empty] using hs
    refine ⟨q, .empty (.unlock q.waiters.isEmpty), .goesOn false rfl, ?_⟩
    rw [hsame]
    exact h.moves hL haddress.symm (fun _ _ => Pc.not_held hheld) fun _ => .empty
  | unlock result =>
    obtain ⟨rfl, rfl⟩ := by simpa [emptyStep] using hs
    exact ⟨_, _, .returns false rfl, h.release hL haddress.symm (fun _ _ => Pc.not_held hheld)
      fun _ => .idle⟩

/-! ### Runs -/

/-- A step of a task inside the code. -/
theorem Linked.inside (h : Linked s pcs q pcs') (hL : Ledger q fun u => (pcs' u).view)
    {o : Pc τ α ⊕ Value} (hs : (pcs t).step t pred address s = some (s', o)) :
    ∃ q' pc', Matched t o q (pcs' t) q' pc' ∧
      Linked s' (Function.update pcs t (o.elim id fun _ => .idle)) q'
        (Function.update pcs' t pc') := by
  cases hpc : pcs t with
  | idle =>
    rw [hpc] at hs
    nomatch hs
  | waitIf w =>
    rw [hpc] at hs
    obtain ⟨⟨s₁, o₁⟩, hs₁, he⟩ := Option.map_eq_some_iff.1 hs
    obtain ⟨rfl, rfl⟩ := by simpa using he
    obtain ⟨q', pc', hmatched, hlinked⟩ := h.waitIf hL hpc hs₁
    exact ⟨q', pc', hmatched.map _, by cases o₁ <;> exact hlinked⟩
  | resumeOne r =>
    rw [hpc] at hs
    obtain ⟨⟨s₁, o₁⟩, hs₁, he⟩ := Option.map_eq_some_iff.1 hs
    obtain ⟨rfl, rfl⟩ := by simpa using he
    obtain ⟨q', pc', hmatched, hlinked⟩ := h.resumeOne hL hpc hs₁
    exact ⟨q', pc', hmatched.map _, by cases o₁ <;> exact hlinked⟩
  | resumeAll r =>
    rw [hpc] at hs
    obtain ⟨⟨s₁, o₁⟩, hs₁, he⟩ := Option.map_eq_some_iff.1 hs
    obtain ⟨rfl, rfl⟩ := by simpa using he
    obtain ⟨q', pc', hmatched, hlinked⟩ := h.resumeAll hL hpc hs₁
    exact ⟨q', pc', hmatched.map _, by cases o₁ <;> exact hlinked⟩
  | resumeN r =>
    rw [hpc] at hs
    obtain ⟨⟨s₁, o₁⟩, hs₁, he⟩ := Option.map_eq_some_iff.1 hs
    obtain ⟨rfl, rfl⟩ := by simpa using he
    obtain ⟨q', pc', hmatched, hlinked⟩ := h.resumeN hL hpc hs₁
    exact ⟨q', pc', hmatched.map _, by cases o₁ <;> exact hlinked⟩
  | empty e =>
    rw [hpc] at hs
    obtain ⟨⟨s₁, o₁⟩, hs₁, he⟩ := Option.map_eq_some_iff.1 hs
    obtain ⟨rfl, rfl⟩ := by simpa using he
    obtain ⟨q', pc', hmatched, hlinked⟩ := h.empty hL hpc hs₁
    exact ⟨q', pc', hmatched.map _, by cases o₁ <;> exact hlinked⟩

omit [DecidableEq α] in
/-- A task makes a call. -/
theorem Linked.call (h : Linked s pcs q pcs') (hL : Ledger q fun u => (pcs' u).view)
    (hpc : pcs t = .idle) (op : Op) : pcs' t = .idle ∧
      Linked s (Function.update pcs t (enter op)) q (Function.update pcs' t op.enter) := by
  have hm := h.place t
  rw [hpc] at hm
  generalize hp : pcs' t = p at hm
  cases hm
  refine ⟨rfl, ?_⟩
  refine h.moves hL ?_ (fun _ _ => Pc.not_held (by rw [hpc]; rfl)) fun _ => ?_
  · rw [hpc]
    cases op <;> rfl
  · cases op with
    | waitIf => exact .fastPath
    | resumeOne => exact .oneLock
    | resumeAll => exact .allLock
    | resumeN n => exact .nEnter
    | empty => exact .empty

/-- The same note. -/
def SameNote {P P' : Type*} (l : Noted τ P) (l' : Noted τ P') : Prop :=
  l.op = l'.op ∧ l.queued = l'.queued ∧ l.resumed = l'.resumed ∧ l.finished = l'.finished

omit [DecidableEq τ] [Fintype τ] [DecidableEq α] in
/-- The same is noted of both. -/
theorem SameNote.note {P P' : Type*} {l : Noted τ P} {l' : Noted τ P'} (h : SameNote l l')
    (snapshot : Option (List (SuspendPoint τ))) (waiter : Option (SuspendPoint τ)) :
    SameNote (l.note snapshot waiter) (l'.note snapshot waiter) := by
  obtain ⟨hop, hqueued, hresumed, hfinished⟩ := h
  exact ⟨hop, congrArg snapshot.getD hqueued, congrArg (· ++ waiter.toList) hresumed, hfinished⟩

omit [DecidableEq τ] [Fintype τ] [DecidableEq α] in
/-- The calls go on, or return the same. -/
theorem SameNote.goOn {P P' : Type*} {l : Noted τ P} {l' : Noted τ P'} (h : SameNote l l')
    {idle : P} {idle' : P'} {o : P ⊕ Value} {o' : P' ⊕ Value} (ho : o.getRight? = o'.getRight?) :
    SameNote (l.goOn idle o) (l'.goOn idle' o') := by
  obtain ⟨hop, hqueued, hresumed, hfinished⟩ := h
  cases o with
  | inl pc =>
    cases o' with
    | inl pc' => exact ⟨hop, hqueued, hresumed, hfinished⟩
    | inr value => nomatch ho
  | inr value =>
    cases o' with
    | inl pc' => nomatch ho
    | inr value' =>
      obtain rfl := Option.some.inj ho
      refine ⟨hop, hqueued, hresumed, ?_⟩
      simp only [Noted.goOn, hop, hqueued, hresumed, hfinished]

omit [DecidableEq τ] [Fintype τ] [DecidableEq α] in
/-- The same waiters are noted at the snapshot of both. -/
theorem Matches.snapshot {heap : Heap α (Option (SuspendPoint τ))} (hm : Matches heap pcs pc pc')
    (queued : List (SuspendPoint τ)) : pc.snapshot queued = pc'.snapshot queued := by
  cases hm <;> rfl

omit [DecidableEq τ] [Fintype τ] [DecidableEq α] in
/-- The value that is read is the waiter the other machine resumes. -/
theorem Matches.resumes {heap : Heap α (Option (SuspendPoint τ))}
    (hm : Matches heap pcs pc pc') :
    (pc.resumes.bind fun waiter => (heap waiter).value) = pc'.resumes := by
  cases hm with
  | oneResume ha => exact ha.1
  | allLoop hd | nLoop hd =>
    cases hd with
    | popFront hl => rfl
    | resume ha hl => exact ha.1
  | _ => rfl

/-- The two machines, with their notes. -/
structure Simulates (c : Config τ (Queue τ α) (Noted τ (Pc τ α)))
    (d : Config τ (WaitQueue.Queue τ) (Noted τ (WaitQueue.Pc τ))) : Prop where
  linked : Linked c.shared (fun t => (c.loc t).pc) d.shared fun t => (d.loc t).pc
  note : ∀ t, SameNote (c.loc t) (d.loc t)

omit [DecidableEq τ] [Fintype τ] [DecidableEq α] in
/-- The two machines match before the first call. -/
theorem simulates_start (heap : Heap α (Option (SuspendPoint τ))) :
    Simulates (start heap) (startNoted τ) where
  linked :=
    { mutex := rfl
      resumed := rfl
      suspends := rfl
      queued := rfl
      frame := fun _ _ => iff_of_false nofun nofun
      waiters := ⟨[], .nil, .nil⟩
      place := fun _ => .idle }
  note _ := ⟨rfl, rfl, rfl, rfl⟩

omit [Fintype τ] [DecidableEq α] in
/-- What has become of the queues and of `t` is enough. -/
theorem Simulates.step {c : Config τ (Queue τ α) (Noted τ (Pc τ α))}
    {d : Config τ (WaitQueue.Queue τ) (Noted τ (WaitQueue.Pc τ))} (h : Simulates c d)
    {l : Noted τ (Pc τ α)} {l' : Noted τ (WaitQueue.Pc τ)}
    (hlinked : Linked s (Function.update (fun u => (c.loc u).pc) t l.pc) q
      (Function.update (fun u => (d.loc u).pc) t l'.pc)) (hnote : SameNote l l') :
    Simulates ⟨s, Function.update c.loc t l⟩ ⟨q, Function.update d.loc t l'⟩ where
  linked := by
    have hc : (fun u => (Function.update c.loc t l u).pc) =
        Function.update (fun u => (c.loc u).pc) t l.pc :=
      funext fun u => Function.apply_update (fun _ => Noted.pc) c.loc t l u
    have hd : (fun u => (Function.update d.loc t l' u).pc) =
        Function.update (fun u => (d.loc u).pc) t l'.pc :=
      funext fun u => Function.apply_update (fun _ => Noted.pc) d.loc t l' u
    simpa only [hc, hd] using hlinked
  note u := by
    change SameNote (Function.update c.loc t l u) (Function.update d.loc t l' u)
    rcases eq_or_ne u t with rfl | hu
    · rwa [Function.update_self, Function.update_self]
    · rw [Function.update_of_ne hu, Function.update_of_ne hu]
      exact h.note u

/-- **Every run with nodes is matched by a run with lists of suspend points**, in which the
calls find, resume and return the same. -/
theorem exists_simulates {c : Config τ (Queue τ α) (Noted τ (Pc τ α))}
    {heap : Heap α (Option (SuspendPoint τ))} (h : Reachable next (start heap) c) :
    ∃ d, Reachable nextNoted (startNoted τ) d ∧ Simulates c d := by
  refine h.simulates Simulates (simulates_start heap) fun c d t a s l hd hR hn => ?_
  have hL := ledger_of_noted hd
  obtain ⟨hop, hqueued, hresumed, hfinished⟩ := hR.note t
  cases a with
  | call op =>
    simp only [next] at hn
    split at hn
    · obtain ⟨rfl, rfl⟩ := by simpa using hn
      obtain ⟨hidle, hlinked⟩ := hR.linked.call hL ‹_› op
      refine ⟨d.shared, (d.loc t).call op op.enter, .inr ⟨.call op, ?_⟩,
        hR.step hlinked ⟨rfl, rfl, rfl, hfinished⟩⟩
      simp [nextNoted, hidle]
    · simp at hn
  | reuse address content =>
    simp only [next] at hn
    split at hn
    · obtain ⟨rfl, rfl⟩ := by simpa using hn
      refine ⟨d.shared, d.loc t, .inl ⟨rfl, rfl⟩, ?_⟩
      rw [Function.update_eq_self, Function.update_eq_self]
      exact ⟨hR.linked.reuse (Option.isNone_iff_eq_none.1 (‹_ ∧ _›).2) content, hR.note⟩
    · simp at hn
  | step pred address =>
    obtain ⟨⟨s₁, o⟩, hs₁, he⟩ := Option.map_eq_some_iff.1 hn
    obtain ⟨rfl, rfl⟩ := by simpa using he
    have hplace := hR.linked.place t
    obtain ⟨q', pc', hmatched, hlinked⟩ := hR.linked.inside hL hs₁
    rw [hplace.resumes, hplace.snapshot, hR.linked.queued]
    rcases hmatched with ⟨rfl, rfl, ho, hsnap, hres⟩ | ⟨pred', o', hs', rfl, ho⟩
    · obtain ⟨pc, rfl⟩ : ∃ pc, o = .inl pc := by
        cases o with
        | inl pc => exact ⟨pc, rfl⟩
        | inr value => simp at ho
      refine ⟨d.shared, d.loc t, .inl ⟨rfl, rfl⟩, hR.step hlinked ?_⟩
      rw [hsnap, hres]
      exact ⟨hop, hqueued, (List.append_nil _).trans hresumed, hfinished⟩
    · refine ⟨q', ((d.loc t).note ((d.loc t).pc.snapshot d.shared.waiters)
        (d.loc t).pc.resumes).goOn .idle o', .inr ⟨.step pred', by simp [nextNoted, hs']⟩,
        hR.step ?_ ((hR.note t).note _ _ |>.goOn ho)⟩
      cases o <;> cases o' <;> exact hlinked

end Nodes
end WaitQueue
end CoopSync
