/-
# The nodes that a step touches

A step reads and writes the nodes of `Pc.touches` only: it does the same whatever the other
nodes are, and leaves them alone (`step_congr`).  In every run each of them belongs to a
task that is suspended and that nobody has resumed yet (`Simulates.touches_suspended`),
since the list, and whatever a resumer has taken off it, is made of such nodes.  So a step
spares the storage of a task that has been resumed (`Simulates.spares`).
-/

import CoopSync.WaitQueue.Simulation

namespace CoopSync
namespace WaitQueue
namespace Nodes

open IntrusiveList

variable {τ α : Type*}

/-! ### The nodes of a step -/

/-- The nodes a list points to. -/
def ends (l : IntrusiveList α) : List α := l.head.toList ++ l.tail.toList

def DoResumeAll.touches : DoResumeAll α → List α
  | .popFront l => ends l
  | .resume waiter _ => [waiter]

/-- The nodes that the next step reads or writes, but for the one it constructs. -/
def Pc.touches (s : Queue τ α) : Pc τ α → List α
  | .waitIf (.setValue node _) => [node]
  | .waitIf (.pushBack node _) => node :: s.waiters.tail.toList
  | .resumeOne .popFront => ends s.waiters
  | .resumeOne (.resume waiter) => [waiter]
  | .resumeAll (.doResumeAll d) => d.touches
  | .resumeN (.popFront n resumed _) => if resumed < n then ends s.waiters else []
  | .resumeN (.pushBack _ _ l waiter) => waiter :: l.tail.toList
  | .resumeN (.doResumeAll _ d) => d.touches
  | .empty .read => s.waiters.tail.toList
  | _ => []

section Congr

variable {T : Type*} {D : List α} {h k h' k' : Heap α T} {l l' : IntrusiveList α} {a : α}

/-- From heaps `h` and `k` to `h'` and `k'`: the same at the nodes of `D`, and nothing
elsewhere. -/
structure Within (D : List α) (h k h' k' : Heap α T) : Prop where
  same : ∀ a ∈ D, k' a = h' a
  frame : ∀ a, a ∉ D → k' a = k a ∧ h' a = h a

/-- No change is within any footprint. -/
theorem Within.rfl' (hk : ∀ a ∈ D, k a = h a) : Within D h k h k := ⟨hk, fun _ _ => ⟨rfl, rfl⟩⟩

/-- The assertions of a list read its last node only. -/
theorem assertInvariants_congr (hk : ∀ a ∈ l.tail.toList, k a = h a) :
    assertInvariants k l = assertInvariants h l := by
  unfold assertInvariants
  cases ht : l.tail with
  | none => rfl
  | some t =>
    have hkt : k t = h t := hk t (by simp [ht])
    simp only [Option.all_some, hkt]

variable [DecidableEq α]

/-- A write to a node of the footprint is within it. -/
theorem Within.update {x : Node α T} (hk : ∀ b ∈ D, k b = h b) (ha : a ∈ D) :
    Within D h k (Function.update h a x) (Function.update k a x) where
  same b hb := by
    rcases eq_or_ne b a with rfl | hne
    · rw [Function.update_self, Function.update_self]
    · rw [Function.update_of_ne hne, Function.update_of_ne hne, hk b hb]
  frame b hb := by
    have hne : b ≠ a := fun he => hb (he ▸ ha)
    exact ⟨Function.update_of_ne hne .., Function.update_of_ne hne ..⟩

/-- So is a store to its `next`. -/
theorem Within.setNext {q : Option α} (hk : ∀ b ∈ D, k b = h b) (ha : a ∈ D) :
    Within D h k (h.setNext a q) (k.setNext a q) := by
  unfold Heap.setNext
  rw [hk a ha]
  exact .update hk ha

/-- `push_back` reads and writes the node and the last of the list. -/
theorem pushBack_congr (hk : ∀ b ∈ a :: l.tail.toList, k b = h b)
    (hs : l.pushBack h a = some (h', l')) :
    ∃ k', l.pushBack k a = some (k', l') ∧ Within (a :: l.tail.toList) h k h' k' := by
  have ha : k a = h a := hk a (List.mem_cons_self ..)
  have hbefore := assertInvariants_congr fun b hb => hk b (List.mem_cons_of_mem _ hb)
  unfold IntrusiveList.pushBack at hs ⊢
  rw [hbefore, ha]
  split at hs
  · rename_i hif
    rw [if_pos hif]
    cases ht : l.tail with
    | none =>
      rw [ht] at hs hk
      simp only at hs ⊢
      have hafter : assertInvariants k ⟨some a, some a⟩ = assertInvariants h ⟨some a, some a⟩ :=
        assertInvariants_congr fun b hb => hk b (by simpa using hb)
      split at hs
      · rename_i hif'
        obtain ⟨rfl, rfl⟩ := by simpa using hs
        exact ⟨k, if_pos (hafter.trans hif'), .rfl' hk⟩
      · nomatch hs
    | some t =>
      rw [ht] at hs hk
      simp only at hs ⊢
      have hw : Within (a :: (some t).toList) h k (h.setNext t (some a)) (k.setNext t (some a)) :=
        .setNext hk (by simp)
      have hafter : assertInvariants (k.setNext t (some a)) { l with tail := some a } =
          assertInvariants (h.setNext t (some a)) { l with tail := some a } :=
        assertInvariants_congr fun b hb => hw.same b (by simp at hb; simp [hb])
      split at hs
      · rename_i hif'
        obtain ⟨rfl, rfl⟩ := by simpa using hs
        exact ⟨_, if_pos (hafter.trans hif'), hw⟩
      · nomatch hs
  · nomatch hs

/-- `pop_front` reads and writes the first and the last node of the list. -/
theorem popFront_congr {o : Option α} (hk : ∀ b ∈ ends l, k b = h b)
    (hs : l.popFront h = some (h', l', o)) :
    ∃ k', l.popFront k = some (k', l', o) ∧ Within (ends l) h k h' k' := by
  have hbefore := assertInvariants_congr fun b hb => hk b (List.mem_append_right _ hb)
  unfold IntrusiveList.popFront at hs ⊢
  rw [hbefore]
  split at hs
  · rename_i hif
    rw [if_pos hif]
    cases hh : l.head with
    | none =>
      rw [hh] at hs
      obtain ⟨rfl, rfl, rfl⟩ := by simpa using hs
      exact ⟨k, rfl, .rfl' hk⟩
    | some b =>
      rw [hh] at hs
      simp only at hs ⊢
      have hmem : b ∈ ends l := by simp [ends, hh]
      rw [hk b hmem]
      have hw : Within (ends l) h k (h.setNext b none) (k.setNext b none) := .setNext hk hmem
      generalize hl : IntrusiveList.mk (h b).next (if (h b).next.isNone then none else l.tail) = m
        at hs ⊢
      have hafter : assertInvariants (k.setNext b none) m = assertInvariants (h.setNext b none) m :=
        assertInvariants_congr fun b' hb' => hw.same b' (by
          rw [← hl] at hb'
          dsimp only at hb'
          split at hb'
          · nomatch hb'
          · exact List.mem_append_right _ hb')
      split at hs
      · rename_i hif'
        obtain ⟨rfl, rfl, rfl⟩ := by simpa using hs
        exact ⟨_, if_pos (hafter.trans hif'), hw⟩
      · nomatch hs
  · nomatch hs

/-- What is taken is the first node. -/
theorem popFront_head {o : Option α} (hs : l.popFront h = some (h', l', o)) : o = l.head := by
  unfold IntrusiveList.popFront at hs
  split at hs
  · cases hh : l.head with
    | none =>
      rw [hh] at hs
      obtain ⟨-, -, rfl⟩ := by simpa using hs
      rfl
    | some b =>
      rw [hh] at hs
      simp only at hs
      generalize IntrusiveList.mk (h b).next (if (h b).next.isNone then none else l.tail) = m at hs
      split at hs
      · obtain ⟨-, -, rfl⟩ := by simpa using hs
        rfl
      · nomatch hs
  · nomatch hs

end Congr

/-! ### A step depends on its nodes only -/

section Step

variable [DecidableEq τ] [DecidableEq α] {s : Queue τ α} {c : Heap α (Option (SuspendPoint τ))}
  {t : τ} {pred : Bool} {address : α} {D : List α} {P : Type*} {p : P}

/-- From a heap `c` that agrees on the nodes of `D`, the step `f` goes the same way. -/
def Congr (D : List α) (s : Queue τ α) (c : Heap α (Option (SuspendPoint τ)))
    (f : Queue τ α → Option (Queue τ α × P)) : Prop :=
  ∀ s' o, f s = some (s', o) → ∃ c', f { s with heap := c } = some ({ s' with heap := c' }, o) ∧
    Within D s.heap c s'.heap c'

namespace Congr

omit [DecidableEq τ] [DecidableEq α] in
/-- What is computed from an outcome is within the same footprint. -/
theorem map {P' : Type*} {f : Queue τ α → Option (Queue τ α × P)} (h : Congr D s c f)
    (g : P → P') : Congr D s c fun s => (f s).map fun r => (r.1, g r.2) := by
  intro s' o hs
  obtain ⟨⟨s₁, p⟩, hs₁, he⟩ := Option.map_eq_some_iff.1 hs
  obtain ⟨rfl, rfl⟩ := by simpa using he
  obtain ⟨c', hc', hw⟩ := h s₁ p hs₁
  exact ⟨c', by simp [hc'], hw⟩

omit [DecidableEq τ] [DecidableEq α] in
/-- A step that leaves the nodes alone and does not look at them. -/
theorem quiet {f : Queue τ α → Queue τ α} (hc : ∀ b ∈ D, c b = s.heap b)
    (hf : f { s with heap := c } = { f s with heap := c }) (hs : (f s).heap = s.heap) :
    Congr D s c fun s => some (f s, p) := by
  intro s' o he
  obtain ⟨rfl, rfl⟩ := by simpa using he
  refine ⟨c, by simp [hf], ?_⟩
  rw [hs]
  exact .rfl' hc

omit [DecidableEq τ] [DecidableEq α] in
/-- Taking the lock touches no node. -/
theorem acquire (hc : ∀ b ∈ D, c b = s.heap b) :
    Congr D s c fun s => (s.acquire t).map fun s => (s, p) := by
  intro s' o hs
  obtain ⟨s₁, hs₁, he⟩ := Option.map_eq_some_iff.1 hs
  obtain ⟨rfl, rfl⟩ := by simpa using he
  obtain ⟨hfree, rfl⟩ := Queue.acquire_eq hs₁
  exact ⟨c, by simp [Queue.acquire, hfree], .rfl' hc⟩

omit [DecidableEq α] in
/-- A call of `wait_if` returns. -/
theorem returns {sp : SuspendPoint τ} {g : Queue τ α → α → Option τ}
    (hc : ∀ b ∈ D, c b = s.heap b) (hg : g { s with heap := c } = g s) :
    Congr D s c fun s =>
      if sp ∈ s.resumed then some ({ s with frame := g s }, p) else none := by
  intro s' o hs
  dsimp only at hs ⊢
  split at hs
  · obtain ⟨rfl, rfl⟩ := by simpa using hs
    exact ⟨c, by simp [‹sp ∈ s.resumed›, hg], .rfl' hc⟩
  · nomatch hs

omit [DecidableEq τ] [DecidableEq α] in
/-- The waiter of a node is resumed. -/
theorem resume {waiter : α} (hc : ∀ b ∈ [waiter], c b = s.heap b) :
    Congr [waiter] s c fun s => (s.heap waiter).value.map fun sp => (s.resume sp, p) := by
  intro s' o hs
  obtain ⟨sp, hsp, he⟩ := Option.map_eq_some_iff.1 hs
  obtain ⟨rfl, rfl⟩ := by simpa using he
  refine ⟨c, ?_, .rfl' hc⟩
  simp only [hc waiter (List.mem_singleton_self _), hsp, Option.map_some]
  rfl

/-- A pop touches the ends of the list only. -/
theorem popFront (hc : ∀ b ∈ ends s.waiters, c b = s.heap b) :
    Congr (ends s.waiters) s c Queue.popFront := by
  intro s' o hs
  obtain ⟨⟨h', l', o'⟩, hpop, he⟩ := Option.map_eq_some_iff.1 hs
  obtain ⟨rfl, rfl⟩ := by simpa using he
  obtain ⟨c', hpop', hw⟩ := popFront_congr hc hpop
  have hvalue : (o'.bind fun node => (c node).value) =
      o'.bind fun node => (s.heap node).value := by
    rw [popFront_head hpop]
    cases hh : s.waiters.head with
    | none => rfl
    | some b => exact congrArg Node.value (hc b (by simp [ends, hh]))
  refine ⟨c', ?_, hw⟩
  simp only [Queue.popFront, hpop', Option.map_some, hvalue]

omit [DecidableEq τ] in
/-- `m_waiters.push_back(node)` -/
theorem pushBack {node : α} {sp : SuspendPoint τ}
    (hc : ∀ b ∈ node :: s.waiters.tail.toList, c b = s.heap b) :
    Congr (node :: s.waiters.tail.toList) s c fun s =>
      (s.pushBack node sp).map fun s => (s, p) := by
  intro s' o hs
  obtain ⟨s₁, hs₁, he⟩ := Option.map_eq_some_iff.1 hs
  obtain ⟨rfl, rfl⟩ := by simpa using he
  obtain ⟨⟨h', l'⟩, hpush, rfl⟩ := Option.map_eq_some_iff.1 hs₁
  obtain ⟨c', hpush', hw⟩ := pushBack_congr hc hpush
  exact ⟨c', by simp [Queue.pushBack, hpush'], hw⟩

omit [DecidableEq τ] in
/-- `do_resume_all` -/
theorem doResumeAll {d : DoResumeAll α} (hc : ∀ b ∈ d.touches, c b = s.heap b) :
    Congr d.touches s c fun s => d.step s := by
  cases d with
  | popFront l =>
    intro s' o hs
    obtain ⟨⟨h', l', o'⟩, hpop, he⟩ := Option.map_eq_some_iff.1 hs
    obtain ⟨rfl, rfl⟩ := by simpa using he
    obtain ⟨c', hpop', hw⟩ := popFront_congr hc hpop
    exact ⟨c', by simp [DoResumeAll.step, hpop'], hw⟩
  | resume waiter l => exact resume hc

end Congr

/-- The steps of `wait_if` but the one that constructs the node. -/
theorem WaitIf.step_congr {w : WaitIf τ α} (hw : w ≠ .construct)
    (hc : ∀ a ∈ (Pc.waitIf w).touches s, c a = s.heap a) :
    Congr ((Pc.waitIf w).touches s) s c fun s => w.step t pred address s := by
  cases w with
  | construct => exact absurd rfl hw
  | fastPath | recheck => exact .quiet (f := fun s => s) hc rfl rfl
  | suspend =>
    exact .quiet (f := fun s =>
      { s with suspends := Function.update s.suspends t (s.suspends t + 1) }) hc rfl rfl
  | unlockQueued | unlockResume => exact .quiet (f := Queue.release) hc rfl rfl
  | resume node sp => exact .quiet (f := fun s => s.resume sp) hc rfl rfl
  | lock => exact .acquire hc
  | queued | selfResumed => exact .returns hc rfl
  | pushBack => exact .pushBack hc
  | setValue node sp =>
    intro s' o hs
    obtain ⟨rfl, rfl⟩ := by simpa [WaitIf.step] using hs
    have hnode : c node = s.heap node := hc node (List.mem_singleton_self _)
    refine ⟨_, rfl, ?_⟩
    dsimp only
    rw [hnode]
    exact .update hc (List.mem_singleton_self _)

/-- A step of `resume_one` depends on the nodes it touches only. -/
theorem ResumeOne.step_congr {r : ResumeOne α}
    (hc : ∀ a ∈ (Pc.resumeOne (τ := τ) r).touches s, c a = s.heap a) :
    Congr ((Pc.resumeOne (τ := τ) r).touches s) s c fun s => r.step t s := by
  cases r with
  | lock => exact .acquire hc
  | popFront =>
    exact (Congr.popFront hc).map fun o => (Sum.inl (ResumeOne.unlock o) : ResumeOne α ⊕ Value)
  | unlock waiter => cases waiter <;> exact .quiet (f := Queue.release) hc rfl rfl
  | resume waiter => exact .resume hc

omit [DecidableEq τ] in
/-- So does a step of `resume_all`. -/
theorem ResumeAll.step_congr {r : ResumeAll α}
    (hc : ∀ a ∈ (Pc.resumeAll (τ := τ) r).touches s, c a = s.heap a) :
    Congr ((Pc.resumeAll (τ := τ) r).touches s) s c fun s => r.step t s := by
  cases r with
  | lock => exact .acquire hc
  | swap =>
    intro s' o hs
    have hassert : ∀ h : Heap α (Option (SuspendPoint τ)), IntrusiveList.empty h {} = some true :=
      fun h => Holds.empty (h := h) (l := {}) .nil
    obtain ⟨rfl, rfl⟩ := by simpa [ResumeAll.step, IntrusiveList.swap, hassert] using hs
    exact ⟨c, by simp [ResumeAll.step, IntrusiveList.swap, hassert], .rfl' hc⟩
  | unlock => exact .quiet (f := Queue.release) hc rfl rfl
  | doResumeAll d =>
    exact (Congr.doResumeAll hc).map fun o =>
      (o.elim (.inr .void) fun d => .inl (.doResumeAll d) : ResumeAll α ⊕ Value)

/-- So does a step of `resume_n`. -/
theorem ResumeN.step_congr {r : ResumeN α}
    (hc : ∀ a ∈ (Pc.resumeN (τ := τ) r).touches s, c a = s.heap a) :
    Congr ((Pc.resumeN (τ := τ) r).touches s) s c fun s => r.step t s := by
  cases r with
  | enter => exact .quiet (f := fun s => s) hc rfl rfl
  | lock => exact .acquire hc
  | popFront n resumed l =>
    simp only [Pc.touches, ResumeN.step] at hc ⊢
    split_ifs at hc ⊢ with hn
    · exact (Congr.popFront hc).map fun o =>
        (.inl (o.elim (.unlock resumed l) (.pushBack n resumed l)) : ResumeN α ⊕ Value)
    · exact .quiet (f := fun s => s) hc rfl rfl
  | pushBack n resumed l waiter =>
    intro s' o hs
    obtain ⟨⟨h', l'⟩, hpush, he⟩ := Option.map_eq_some_iff.1 hs
    obtain ⟨rfl, rfl⟩ := by simpa using he
    obtain ⟨c', hpush', hw⟩ := pushBack_congr hc hpush
    exact ⟨c', by simp [ResumeN.step, hpush'], hw⟩
  | unlock => exact .quiet (f := Queue.release) hc rfl rfl
  | doResumeAll k d =>
    exact (Congr.doResumeAll hc).map fun o =>
      (o.elim (.inr (.count k)) fun d => .inl (.doResumeAll k d) : ResumeN α ⊕ Value)

omit [DecidableEq τ] [DecidableEq α] in
/-- So does a step of `empty`. -/
theorem emptyStep_congr {e : Empty} (hc : ∀ a ∈ (Pc.empty e).touches s, c a = s.heap a) :
    Congr ((Pc.empty e).touches s) s c fun s => emptyStep t s e := by
  cases e with
  | lock => exact .acquire hc
  | read =>
    intro s' o hs
    have hassert := assertInvariants_congr hc
    obtain ⟨b, hb, he⟩ := Option.map_eq_some_iff.1 hs
    obtain ⟨rfl, rfl⟩ := by simpa using he
    refine ⟨c, ?_, .rfl' hc⟩
    simp only [IntrusiveList.empty, ← hassert] at hb
    simp [emptyStep, IntrusiveList.empty, hb]
  | unlock => exact .quiet (f := Queue.release) hc rfl rfl

/-- **What a step does depends on its nodes only, and it writes to no others**, but for the
node it constructs. -/
theorem step_congr {pc : Pc τ α} (hpc : pc ≠ .waitIf .construct)
    (hc : ∀ a ∈ pc.touches s, c a = s.heap a) :
    Congr (pc.touches s) s c fun s => pc.step t pred address s := by
  cases pc with
  | idle => exact fun _ _ hs => nomatch hs
  | waitIf w => exact .map (WaitIf.step_congr (fun he => hpc (he ▸ rfl)) hc) _
  | resumeOne r => exact .map (ResumeOne.step_congr hc) _
  | resumeAll r => exact .map (ResumeAll.step_congr hc) _
  | resumeN r => exact .map (ResumeN.step_congr hc) _
  | empty e => exact .map (emptyStep_congr hc) _

/-- The step does the same whatever is at `a`, and leaves it there. -/
def Pc.Spares (s : Queue τ α) (t : τ) (a : α) (pc : Pc τ α) : Prop :=
  ∀ pred address content,
    pc.step t pred address { s with heap := Function.update s.heap a content } =
      (pc.step t pred address s).map fun r =>
        ({ r.1 with heap := Function.update r.1.heap a content }, r.2)

omit [DecidableEq τ] in
/-- A step within a footprint leaves a node outside as it was given. -/
theorem Within.eq_update {h h' k' : Heap α (Option (SuspendPoint τ))} {a : α}
    {content : Node α (Option (SuspendPoint τ))} (ha : a ∉ D)
    (hw : Within D h (Function.update h a content) h' k') : k' = Function.update h' a content := by
  funext b
  by_cases hb : b ∈ D
  · rw [hw.same b hb, Function.update_of_ne (ne_of_mem_of_not_mem hb ha)]
  · obtain ⟨hk, hh⟩ := hw.frame b hb
    rw [hk]
    rcases eq_or_ne b a with rfl | hne
    · rw [Function.update_self, Function.update_self]
    · rw [Function.update_of_ne hne, Function.update_of_ne hne, hh]

/-- **A step spares a node that it does not touch.** -/
theorem spares_of_notMem {pc : Pc τ α} (hpc : pc ≠ .waitIf .construct) {a : α}
    (ha : a ∉ pc.touches s) : pc.Spares s t a := by
  intro pred address content
  have hc : ∀ b ∈ pc.touches s, Function.update s.heap a content b = s.heap b := fun b hb =>
    Function.update_of_ne (ne_of_mem_of_not_mem hb ha) ..
  cases hs : pc.step t pred address s with
  | some r =>
    obtain ⟨s', o⟩ := r
    obtain ⟨c', hc', hw⟩ := step_congr hpc hc s' o hs
    refine hc'.trans ?_
    rw [hw.eq_update ha]
    rfl
  | none =>
    -- with the old content the step would be possible again
    refine Option.eq_none_iff_forall_ne_some.2 fun ⟨s', o⟩ hs' => ?_
    obtain ⟨c', hc', -⟩ := step_congr (s := { s with heap := Function.update s.heap a content })
      (c := s.heap) hpc (fun b hb => (hc b hb).symm) s' o hs'
    exact absurd (hs.symm.trans hc') nofun

end Step

section Touches

variable [DecidableEq τ] [Fintype τ] [DecidableEq α] {c : Config τ (Queue τ α) (Noted τ (Pc τ α))}
  {d : Config τ (WaitQueue.Queue τ) (Noted τ (WaitQueue.Pc τ))} {t : τ} {a : α}

omit [DecidableEq τ] [Fintype τ] [DecidableEq α] in
/-- The nodes a list points to are those of suspensions in it. -/
theorem Chained.at_ends {h : Heap α (Option (SuspendPoint τ))} {pcs : τ → Pc τ α}
    {l : IntrusiveList α} {sps : List (SuspendPoint τ)} (hl : Chained h pcs l sps)
    (ha : a ∈ ends l) : ∃ sp ∈ sps, At h pcs a sp := by
  obtain ⟨xs, hq, hat⟩ := hl
  refine exists_at hat ?_
  rcases List.mem_append.1 ha with ha | ha
  · rw [Option.mem_toList, hq.links.eq_head?] at ha
    exact List.mem_of_head? ha
  · rw [Option.mem_toList, hq.tail_eq] at ha
    exact List.mem_of_getLast? ha

/-- The node is that of a suspended task that nobody has resumed yet. -/
def Suspended (c : Config τ (Queue τ α) (Noted τ (Pc τ α))) (a : α) : Prop :=
  ∃ u sp, (c.loc u).pc.held = some (a, sp) ∧ sp ∉ c.shared.resumed

omit [DecidableEq α] in
/-- A waiter has not been resumed. -/
theorem Simulates.suspended (h : Simulates c d)
    (hL : Ledger d.shared fun u => (d.loc u).pc.view) {sp : SuspendPoint τ}
    (hsp : sp ∈ d.shared.waiters ∨ ∃ u, sp ∈ (d.loc u).pc.view.hands)
    (ha : At c.shared.heap (fun u => (c.loc u).pc) a sp) : Suspended c a := by
  refine ⟨sp.task, sp, ha.2, ?_⟩
  rw [h.linked.resumed]
  exact fun hr => hL.not_placed_of_resumed hr hsp

omit [DecidableEq α] in
/-- The callback has not resumed its own task. -/
theorem Simulates.suspended_of_callback (h : Simulates c d)
    (hL : Ledger d.shared fun u => (d.loc u).pc.view) {sp : SuspendPoint τ}
    (hheld : (c.loc t).pc.held = some (a, sp)) (hstage : (d.loc t).pc.view.stage = .callback sp) :
    Suspended c a := by
  refine ⟨t, sp, hheld, ?_⟩
  rw [h.linked.resumed]
  exact hL.not_resumed_of_callback hstage

omit [DecidableEq α] in
/-- The ends of the list are nodes of suspended tasks. -/
theorem Simulates.touches_queue (h : Simulates c d)
    (hL : Ledger d.shared fun u => (d.loc u).pc.view) (ha : a ∈ ends c.shared.waiters) :
    Suspended c a := by
  obtain ⟨sp, hsp, hat⟩ := h.linked.waiters.at_ends ha
  exact h.suspended hL (.inl hsp) hat

omit [DecidableEq α] in
/-- The nodes that the loop touches are those of suspended tasks. -/
theorem Simulates.touches_loop (h : Simulates c d)
    (hL : Ledger d.shared fun u => (d.loc u).pc.view) {r : DoResumeAll α}
    {r' : WaitQueue.DoResumeAll τ}
    (hr : LoopMatches c.shared.heap (fun u => (c.loc u).pc) r r')
    (hhands : (d.loc t).pc.view.hands = r'.view.hands) (ha : a ∈ r.touches) : Suspended c a := by
  cases hr with
  | popFront hl =>
    obtain ⟨sp, hsp, hat⟩ := hl.at_ends ha
    exact h.suspended hL (.inr ⟨t, hhands ▸ hsp⟩) hat
  | resume hat hl =>
    obtain rfl := List.mem_singleton.1 ha
    exact h.suspended hL (.inr ⟨t, hhands ▸ List.mem_cons_self ..⟩) hat

omit [DecidableEq α] in
/-- **No step touches the node of a task that has been resumed.** -/
theorem Simulates.touches_suspended (h : Simulates c d)
    (hL : Ledger d.shared fun u => (d.loc u).pc.view) (ha : a ∈ (c.loc t).pc.touches c.shared) :
    Suspended c a := by
  have htail : a ∈ c.shared.waiters.tail.toList → Suspended c a := fun ha =>
    h.touches_queue hL (List.mem_append_right _ ha)
  have hm := h.linked.place t
  generalize hp : (c.loc t).pc = p at hm ha
  generalize hp' : (d.loc t).pc = p' at hm
  cases hm with
  | setValue hn =>
    obtain rfl := List.mem_singleton.1 ha
    exact h.suspended_of_callback hL (by rw [hp]; rfl) (by rw [hp']; rfl)
  | pushBack hn hv =>
    rcases List.mem_cons.1 ha with rfl | ha
    · exact h.suspended_of_callback hL (by rw [hp]; rfl) (by rw [hp']; rfl)
    · exact htail ha
  | onePopFront => exact h.touches_queue hL ha
  | oneResume hat =>
    obtain rfl := List.mem_singleton.1 ha
    exact h.suspended hL (.inr ⟨t, by rw [hp']; exact List.mem_singleton_self _⟩) hat
  | allLoop hd => exact h.touches_loop (t := t) hL hd (by rw [hp']; rfl) ha
  | nLoop hd => exact h.touches_loop (t := t) hL hd (by rw [hp']; rfl) ha
  | @nPopFront n k l sps hl =>
    simp only [Pc.touches] at ha
    split_ifs at ha
    · exact h.touches_queue hL ha
    · nomatch ha
  | @nPushBack n k l b sp sps hl hat hn =>
    have hhands : (d.loc t).pc.view.hands = sps ++ [sp] := by rw [hp']; rfl
    rcases List.mem_cons.1 ha with rfl | ha
    · refine h.suspended hL (.inr ⟨t, ?_⟩) hat
      rw [hhands]
      exact List.mem_append_right _ (List.mem_singleton_self sp)
    · obtain ⟨sp', hsp', hat'⟩ := hl.at_ends (List.mem_append_right _ ha)
      refine h.suspended hL (.inr ⟨t, ?_⟩) hat'
      rw [hhands]
      exact List.mem_append_left _ hsp'
  | @empty e =>
    cases e with
    | read => exact htail ha
    | lock | unlock => nomatch ha
  | _ => nomatch ha

/-- The address is no node, or that of a task that has been resumed. -/
def Resumed (c : Config τ (Queue τ α) (Noted τ (Pc τ α))) (a : α) : Prop :=
  c.shared.frame a = none ∨
    ∃ u sp, (c.loc u).pc.held = some (a, sp) ∧ sp ∈ c.shared.resumed

omit [DecidableEq τ] [Fintype τ] [DecidableEq α] in
/-- A task that has been resumed is not suspended. -/
theorem Simulates.not_suspended (h : Simulates c d) (ha : Resumed c a) : ¬Suspended c a := by
  rintro ⟨u, sp, hu, hsp⟩
  rcases ha with hframe | ⟨u', sp', hu', hsp'⟩
  · have hsome := (h.linked.frame a u).2 (Pc.address_of_held hu)
    rw [hframe] at hsome
    nomatch hsome
  · obtain rfl := h.linked.address_unique (Pc.address_of_held hu) (Pc.address_of_held hu')
    rw [hu] at hu'
    obtain rfl : sp = sp' := congrArg Prod.snd (Option.some.inj hu')
    exact hsp hsp'

/-- **No step reads or writes the storage of a task that has been resumed**, but for one
that constructs a node there. -/
theorem Simulates.spares (h : Simulates c d) (hL : Ledger d.shared fun u => (d.loc u).pc.view)
    (hpc : (c.loc t).pc ≠ .waitIf .construct) (ha : Resumed c a) :
    (c.loc t).pc.Spares c.shared t a :=
  spares_of_notMem hpc fun hmem => h.not_suspended ha (h.touches_suspended hL hmem)

end Touches

end Nodes
end WaitQueue
end CoopSync
