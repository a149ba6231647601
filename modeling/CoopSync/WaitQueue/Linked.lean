/-
# Linked nodes and lists of suspend points

A list of nodes matches a list of suspend points if its pointers run through the nodes of
the tasks suspended there, in this order (`Chained`), and a task matches one that stands at
the same place with matching lists (`Matches`).  `Linked` says so of the two queues and of
every task.

What lets a step keep this is who may write to a node (`Writes`): the task whose node it is
until it has been pushed, and afterwards the task in the critical section or the one that
has taken it off the list.  The ledger of the lists of suspend points says that these are
never two.
-/

import CoopSync.IntrusiveList.Refinement
import CoopSync.WaitQueue.Ledger
import CoopSync.WaitQueue.Nodes

namespace CoopSync
namespace WaitQueue
namespace Nodes

open IntrusiveList

variable {τ α : Type*}

/-! ### The node of a task -/

/-- The address of the node of a call of `wait_if`. -/
def Pc.address : Pc τ α → Option α
  | .waitIf (.suspend node) => some node
  | .waitIf (.lock node _) | .waitIf (.recheck node _) | .waitIf (.setValue node _)
  | .waitIf (.pushBack node _) | .waitIf (.unlockQueued node _) | .waitIf (.unlockResume node _)
  | .waitIf (.resume node _) | .waitIf (.queued node _) | .waitIf (.selfResumed node _) =>
    some node
  | _ => none

/-- The node of a suspended task, with its suspension. -/
def Pc.held : Pc τ α → Option (α × SuspendPoint τ)
  | .waitIf (.lock node sp) | .waitIf (.recheck node sp) | .waitIf (.setValue node sp)
  | .waitIf (.pushBack node sp) | .waitIf (.unlockQueued node sp)
  | .waitIf (.unlockResume node sp) | .waitIf (.resume node sp) | .waitIf (.queued node sp)
  | .waitIf (.selfResumed node sp) => some (node, sp)
  | _ => none

/-- A node that has not been pushed yet. -/
def Pc.fresh : Pc τ α → Option α
  | .waitIf (.suspend node) => some node
  | .waitIf (.lock node _) | .waitIf (.recheck node _) | .waitIf (.setValue node _)
  | .waitIf (.pushBack node _) => some node
  | _ => none

/-- A suspended task's node is at its address. -/
theorem Pc.address_of_held {pc : Pc τ α} {a : α} {sp : SuspendPoint τ}
    (h : pc.held = some (a, sp)) : pc.address = some a := by
  unfold Pc.held at h
  split at h <;> simp_all [Pc.address]

/-- A task that is not suspended has no node of a suspension. -/
theorem Pc.not_held {pc : Pc τ α} (h : pc.held = none) {P : Prop} {a : α} {sp : SuspendPoint τ}
    (ha : pc.held = some (a, sp)) : P := by
  simp [h] at ha

/-- So is a node that has not been pushed. -/
theorem Pc.address_of_fresh {pc : Pc τ α} {a : α} (h : pc.fresh = some a) :
    pc.address = some a := by
  unfold Pc.fresh at h
  split at h <;> simp_all [Pc.address]

/-! ### Matching lists and places -/

/-- The node at `a` is that of the suspension `sp`, and says so. -/
def At (h : Heap α (Option (SuspendPoint τ))) (pcs : τ → Pc τ α) (a : α) (sp : SuspendPoint τ) :
    Prop :=
  (h a).value = some sp ∧ (pcs sp.task).held = some (a, sp)

/-- The list runs through the nodes of these suspensions. -/
def Chained (h : Heap α (Option (SuspendPoint τ))) (pcs : τ → Pc τ α) (l : IntrusiveList α)
    (sps : List (SuspendPoint τ)) : Prop :=
  ∃ xs, Holds h l xs ∧ List.Forall₂ (At h pcs) xs sps

section Matches

variable (h : Heap α (Option (SuspendPoint τ))) (pcs : τ → Pc τ α)

/-- The same place in `do_resume_all`. -/
inductive LoopMatches : DoResumeAll α → WaitQueue.DoResumeAll τ → Prop
  | popFront {l sps} (hl : Chained h pcs l sps) : LoopMatches (.popFront l) (.popFront sps)
  | resume {a l sp sps} (ha : At h pcs a sp) (hl : Chained h pcs l sps) :
      LoopMatches (.resume a l) (.resume sp sps)

/-- The same place in the code. -/
inductive Matches : Pc τ α → WaitQueue.Pc τ → Prop
  | idle : Matches .idle .idle
  | fastPath : Matches (.waitIf .fastPath) (.waitIf .fastPath)
  | construct : Matches (.waitIf .construct) (.waitIf .suspend)
  | suspend {a} (hn : h.next a = none) : Matches (.waitIf (.suspend a)) (.waitIf .suspend)
  | lock {a sp} (hn : h.next a = none) : Matches (.waitIf (.lock a sp)) (.waitIf (.lock sp))
  | recheck {a sp} (hn : h.next a = none) :
      Matches (.waitIf (.recheck a sp)) (.waitIf (.recheck sp))
  | setValue {a sp} (hn : h.next a = none) :
      Matches (.waitIf (.setValue a sp)) (.waitIf (.pushBack sp))
  | pushBack {a sp} (hn : h.next a = none) (hv : (h a).value = some sp) :
      Matches (.waitIf (.pushBack a sp)) (.waitIf (.pushBack sp))
  | unlockQueued {a sp} : Matches (.waitIf (.unlockQueued a sp)) (.waitIf (.unlockQueued sp))
  | unlockResume {a sp} : Matches (.waitIf (.unlockResume a sp)) (.waitIf (.unlockResume sp))
  | resume {a sp} : Matches (.waitIf (.resume a sp)) (.waitIf (.resume sp))
  | queued {a sp} : Matches (.waitIf (.queued a sp)) (.waitIf (.queued sp))
  | selfResumed {a sp} : Matches (.waitIf (.selfResumed a sp)) (.waitIf (.selfResumed sp))
  | oneLock : Matches (.resumeOne .lock) (.resumeOne .lock)
  | onePopFront : Matches (.resumeOne .popFront) (.resumeOne .popFront)
  | oneUnlockNone : Matches (.resumeOne (.unlock none)) (.resumeOne (.unlock none))
  | oneUnlock {a sp} (ha : At h pcs a sp) :
      Matches (.resumeOne (.unlock (some a))) (.resumeOne (.unlock (some sp)))
  | oneResume {a sp} (ha : At h pcs a sp) :
      Matches (.resumeOne (.resume a)) (.resumeOne (.resume sp))
  | allLock : Matches (.resumeAll .lock) (.resumeAll .lock)
  | allSwap : Matches (.resumeAll .swap) (.resumeAll .swap)
  | allUnlock {l sps} (hl : Chained h pcs l sps) :
      Matches (.resumeAll (.unlock l)) (.resumeAll (.unlock sps))
  | allLoop {d d'} (hd : LoopMatches h pcs d d') :
      Matches (.resumeAll (.doResumeAll d)) (.resumeAll (.doResumeAll d'))
  | nEnter {n} : Matches (.resumeN (.enter n)) (.resumeN (.enter n))
  | nLock {n} : Matches (.resumeN (.lock n)) (.resumeN (.lock n))
  | nPopFront {n k l sps} (hl : Chained h pcs l sps) :
      Matches (.resumeN (.popFront n k l)) (.resumeN (.loop n k sps))
  /-- the waiter is between the two lists -/
  | nPushBack {n k l a sp sps} (hl : Chained h pcs l sps) (ha : At h pcs a sp)
      (hn : h.next a = none) :
      Matches (.resumeN (.pushBack n k l a)) (.resumeN (.loop n (k + 1) (sps ++ [sp])))
  | nUnlock {k l sps} (hl : Chained h pcs l sps) :
      Matches (.resumeN (.unlock k l)) (.resumeN (.unlock k sps))
  | nLoop {k d d'} (hd : LoopMatches h pcs d d') :
      Matches (.resumeN (.doResumeAll k d)) (.resumeN (.doResumeAll k d'))
  | empty {e} : Matches (.empty e) (.empty e)

end Matches

/-- The queue with nodes and the one with lists of suspend points, each with its tasks. -/
structure Linked (s : Queue τ α) (pcs : τ → Pc τ α) (q : WaitQueue.Queue τ)
    (pcs' : τ → WaitQueue.Pc τ) : Prop where
  mutex : s.waitersMutex = q.waitersMutex
  resumed : s.resumed = q.resumed
  suspends : s.suspends = q.suspends
  queued : s.queued = q.waiters
  frame : ∀ a u, s.frame a = some u ↔ (pcs u).address = some a
  waiters : Chained s.heap pcs s.waiters q.waiters
  place : ∀ t, Matches s.heap pcs (pcs t) (pcs' t)

/-- The nodes that a step of `t` may write to. -/
def Writes (s : Queue τ α) (pcs : τ → Pc τ α) (q : WaitQueue.Queue τ) (v : View τ) (t : τ)
    (a : α) : Prop :=
  s.frame a = none ∨ (pcs t).fresh = some a ∨
    ∃ sp, At s.heap pcs a sp ∧ (sp ∈ v.hands ∨ v.critical = true ∧ sp ∈ q.waiters)

/-! ### What a step leaves alone -/

section Kept

variable {h h' : Heap α (Option (SuspendPoint τ))} {pcs pcs' : τ → Pc τ α} {a b : α}
  {sp sp' : SuspendPoint τ} {l : IntrusiveList α} {sps : List (SuspendPoint τ)}

/-- A node is that of one suspension. -/
theorem At.unique (ha : At h pcs a sp) (ha' : At h pcs a sp') : sp = sp' :=
  Option.some.inj (ha.1.symm.trans ha'.1)

/-- The nodes of `sp` are the same, with the same content. -/
def Kept (h : Heap α (Option (SuspendPoint τ))) (pcs : τ → Pc τ α)
    (h' : Heap α (Option (SuspendPoint τ))) (pcs' : τ → Pc τ α) (sp : SuspendPoint τ) : Prop :=
  ∀ a, At h pcs a sp → h' a = h a ∧ At h' pcs' a sp

/-- Every node of a chain is that of one of its suspensions. -/
theorem exists_at {xs : List α} (hat : List.Forall₂ (At h pcs) xs sps) (ha : a ∈ xs) :
    ∃ sp ∈ sps, At h pcs a sp := by
  induction hat with
  | nil => nomatch ha
  | cons hfirst hrest ih =>
    rcases List.mem_cons.1 ha with rfl | ha
    · exact ⟨_, List.mem_cons_self .., hfirst⟩
    · obtain ⟨sp, hsp, hat⟩ := ih ha
      exact ⟨sp, List.mem_cons_of_mem _ hsp, hat⟩

/-- A list whose nodes are kept stays chained. -/
theorem Chained.kept (hl : Chained h pcs l sps) (hk : ∀ sp ∈ sps, Kept h pcs h' pcs' sp) :
    Chained h' pcs' l sps := by
  obtain ⟨xs, hq, hat⟩ := hl
  have hxs : ∀ a ∈ xs, h' a = h a := by
    intro a ha
    obtain ⟨sp, hsp, hat⟩ := exists_at hat ha
    exact (hk sp hsp a hat).1
  refine ⟨xs, hq.congr fun a ha => congrArg Node.next (hxs a ha), ?_⟩
  clear hq hxs
  induction hat with
  | nil => exact .nil
  | cons ha hrest ih =>
    refine .cons (hk _ (List.mem_cons_self ..) _ ha).2 (ih fun sp hsp => ?_)
    exact hk sp (List.mem_cons_of_mem _ hsp)

/-- So does the list of a resumer. -/
theorem LoopMatches.kept {d : DoResumeAll α} {d' : WaitQueue.DoResumeAll τ}
    (hd : LoopMatches h pcs d d') (hk : ∀ sp ∈ d'.view.hands, Kept h pcs h' pcs' sp) :
    LoopMatches h' pcs' d d' := by
  cases hd with
  | popFront hl => exact .popFront (hl.kept hk)
  | resume ha hl =>
    exact .resume (hk _ (List.mem_cons_self ..) _ ha).2
      (hl.kept fun sp hsp => hk sp (List.mem_cons_of_mem _ hsp))

/-- A task stays where it is if its own node and those in its hands are kept. -/
theorem Matches.kept {pc : Pc τ α} {pc' : WaitQueue.Pc τ} (hm : Matches h pcs pc pc')
    (hk : ∀ sp ∈ pc'.view.hands, Kept h pcs h' pcs' sp)
    (hfresh : ∀ a, pc.fresh = some a → h' a = h a) : Matches h' pcs' pc pc' := by
  have hnext : ∀ {a}, pc.fresh = some a → h.next a = none → h'.next a = none := by
    intro a ha hn
    rw [← hn]
    exact congrArg Node.next (hfresh a ha)
  cases hm with
  | suspend hn => exact .suspend (hnext rfl hn)
  | lock hn => exact .lock (hnext rfl hn)
  | recheck hn => exact .recheck (hnext rfl hn)
  | setValue hn => exact .setValue (hnext rfl hn)
  | pushBack hn hv =>
    refine .pushBack (hnext rfl hn) ?_
    rw [hfresh _ rfl]
    exact hv
  | oneUnlock ha => exact .oneUnlock (hk _ (List.mem_cons_self ..) _ ha).2
  | oneResume ha => exact .oneResume (hk _ (List.mem_cons_self ..) _ ha).2
  | allUnlock hl => exact .allUnlock (hl.kept hk)
  | allLoop hd => exact .allLoop (hd.kept hk)
  | nPopFront hl => exact .nPopFront (hl.kept hk)
  | @nPushBack n k l a sp sps hl ha hn =>
    have hsp := hk sp (List.mem_append_right _ (List.mem_singleton_self sp)) a ha
    refine .nPushBack (hl.kept fun sp' hsp' => hk sp' (List.mem_append_left _ hsp')) hsp.2 ?_
    rw [← hn]
    exact congrArg Node.next hsp.1
  | nUnlock hl => exact .nUnlock (hl.kept hk)
  | nLoop hd => exact .nLoop (hd.kept hk)
  | idle => exact .idle
  | fastPath => exact .fastPath
  | construct => exact .construct
  | unlockQueued => exact .unlockQueued
  | unlockResume => exact .unlockResume
  | resume => exact .resume
  | queued => exact .queued
  | selfResumed => exact .selfResumed
  | oneLock => exact .oneLock
  | onePopFront => exact .onePopFront
  | oneUnlockNone => exact .oneUnlockNone
  | allLock => exact .allLock
  | allSwap => exact .allSwap
  | nEnter => exact .nEnter
  | nLock => exact .nLock
  | empty => exact .empty

/-- A node that has not been pushed belongs to a task that has not been. -/
theorem Matches.not_pushed {pc : Pc τ α} {pc' : WaitQueue.Pc τ} (hm : Matches h pcs pc pc')
    (ha : pc.fresh = some a) (sp : SuspendPoint τ) : pc'.view.stage ≠ .pushed sp := by
  cases hm <;> simp [Pc.fresh, WaitQueue.Pc.view, WaitQueue.WaitIf.view] at ha ⊢

section ListOps

variable [DecidableEq α]

/-- Nothing is taken from an empty list. -/
theorem Chained.popFront_nil (hl : Chained h pcs l []) : l.popFront h = some (h, l, none) := by
  obtain ⟨xs, hq, hat⟩ := hl
  obtain rfl := List.forall₂_nil_right_iff.1 hat
  have hhead : l.head = none := hq.head_eq_none.2 rfl
  simp only [IntrusiveList.popFront, hq.assertInvariants, hhead, if_true]

/-- The first waiter is taken, and only its node is written to. -/
theorem Chained.popFront_cons (hl : Chained h pcs l (sp :: sps)) :
    ∃ a h' l', l.popFront h = some (h', l', some a) ∧ At h pcs a sp ∧ h'.next a = none ∧
      (∀ b, b ≠ a → h' b = h b) ∧ (∀ b, (h' b).value = (h b).value) ∧ Chained h' pcs l' sps := by
  obtain ⟨xs, hq, hat⟩ := hl
  obtain ⟨a, xs, ha, hrest, rfl⟩ := List.forall₂_cons_right_iff.1 hat
  obtain ⟨h', l', hpop, hq', hframe, hnull, hvalue⟩ := hq.popFront
  have hne : ∀ b, b ≠ a → h' b = h b := fun b hb =>
    Node.ext (hvalue b) (hframe b fun he => hb (Option.some.inj he).symm)
  refine ⟨a, h', l', hpop, ha, hnull a rfl, hne, hvalue, xs, hq', ?_⟩
  exact hrest.imp fun b sp' hb => ⟨(hvalue b).trans hb.1, hb.2⟩

/-- A node that is in no list is pushed, and only a node of the list is written to. -/
theorem Chained.pushBack (hl : Chained h pcs l sps) (hn : h.next a = none) (ha : At h pcs a sp)
    (hsp : sp ∉ sps) : ∃ h' l', l.pushBack h a = some (h', l') ∧
      (∀ b, (∀ sp' ∈ sps, ¬At h pcs b sp') → h' b = h b) ∧
      (∀ b, (h' b).value = (h b).value) ∧ Chained h' pcs l' (sps ++ [sp]) := by
  obtain ⟨xs, hq, hat⟩ := hl
  have hxs : a ∉ xs := by
    intro hmem
    obtain ⟨sp', hsp', ha'⟩ := exists_at hat hmem
    exact hsp (ha.unique ha' ▸ hsp')
  obtain ⟨h', l', hpush, hq', hframe, hvalue⟩ := hq.pushBack hxs hn
  have hkeep : ∀ b sp', At h pcs b sp' → At h' pcs b sp' := fun b sp' hb =>
    ⟨(hvalue b).trans hb.1, hb.2⟩
  refine ⟨h', l', hpush, fun b hb => Node.ext (hvalue b) (hframe b fun hmem => ?_), hvalue,
    xs ++ [a], hq', ?_⟩
  · obtain ⟨sp', hsp', hb'⟩ := exists_at hat hmem
    exact hb sp' hsp' hb'
  · exact List.rel_append (hat.imp hkeep) (.cons (hkeep a sp ha) .nil)

end ListOps

end Kept

section Step

variable [DecidableEq τ] [Fintype τ] {s s' : Queue τ α} {pcs : τ → Pc τ α}
  {q q' : WaitQueue.Queue τ} {pcs' : τ → WaitQueue.Pc τ} {t u : τ} {a : α} {sp : SuspendPoint τ}
  {pc : Pc τ α} {pc' : WaitQueue.Pc τ}

namespace Linked

omit [DecidableEq τ] [Fintype τ] in
/-- Two tasks have no node in common. -/
theorem address_unique (h : Linked s pcs q pcs') (ht : (pcs t).address = some a)
    (hu : (pcs u).address = some a) : t = u :=
  Option.some.inj (((h.frame a t).2 ht).symm.trans ((h.frame a u).2 hu))

/-- The node of a waiter is that of a pushed task. -/
theorem not_fresh (h : Linked s pcs q pcs') (hL : Ledger q fun u => (pcs' u).view)
    (hsp : sp ∈ q.waiters ∨ ∃ u, sp ∈ (pcs' u).view.hands) (ha : At s.heap pcs a sp) :
    (pcs u).fresh ≠ some a := by
  intro hf
  have hu : sp.task = u :=
    h.address_unique (Pc.address_of_held ha.2) (Pc.address_of_fresh hf)
  exact (h.place u).not_pushed hf sp (hu ▸ hL.placed sp hsp)

/-- Nobody writes to the node of a waiter in the hands of another. -/
theorem not_writes_of_hands (h : Linked s pcs q pcs') (hL : Ledger q fun u => (pcs' u).view)
    (hne : u ≠ t) (hsp : sp ∈ (pcs' u).view.hands) (ha : At s.heap pcs a sp) :
    ¬Writes s pcs q (pcs' t).view t a := by
  rintro (hfree | hf | ⟨sp', ha', hmine | ⟨-, hw⟩⟩)
  · rw [(h.frame a _).2 (Pc.address_of_held ha.2)] at hfree
    nomatch hfree
  · exact h.not_fresh hL (.inr ⟨u, hsp⟩) ha hf
  · obtain rfl := ha.unique ha'
    exact hne (hL.hands_unique hsp hmine)
  · obtain rfl := ha.unique ha'
    exact hL.notMem_waiters_of_hands hsp hw

/-- Nobody writes to the node of another that has not been pushed. -/
theorem not_writes_of_fresh (h : Linked s pcs q pcs') (hL : Ledger q fun u => (pcs' u).view)
    (hne : u ≠ t) (hf : (pcs u).fresh = some a) : ¬Writes s pcs q (pcs' t).view t a := by
  rintro (hfree | hf' | ⟨sp, ha, hsp⟩)
  · rw [(h.frame a u).2 (Pc.address_of_fresh hf)] at hfree
    nomatch hfree
  · exact hne (h.address_unique (Pc.address_of_fresh hf) (Pc.address_of_fresh hf'))
  · exact h.not_fresh hL (hsp.imp (fun hm => ⟨t, hm⟩) And.right).symm ha hf

/-- A waiter's task is still there after a step of `t`. -/
theorem kept (hL : Ledger q fun u => (pcs' u).view)
    (hheld : ∀ a sp, (pcs t).held = some (a, sp) → sp ∉ q.resumed → pc.held = some (a, sp))
    (hsp : sp ∈ q.waiters ∨ ∃ u, sp ∈ (pcs' u).view.hands) {heap : Heap α (Option (SuspendPoint τ))}
    (hheap : ∀ a, At s.heap pcs a sp → heap a = s.heap a) :
    Kept s.heap pcs heap (Function.update pcs t pc) sp := by
  intro a ha
  refine ⟨hheap a ha, ?_, ?_⟩
  · rw [hheap a ha]
    exact ha.1
  · by_cases ht : sp.task = t
    · rw [ht, Function.update_self]
      exact hheld a sp (ht ▸ ha.2) fun hr => hL.not_placed_of_resumed hr hsp
    · rw [Function.update_of_ne ht]
      exact ha.2

/-- **One step of `t`.**  It is enough to say what becomes of the queue and of `t`, if the
step writes only where `t` may. -/
theorem step (h : Linked s pcs q pcs') (hL : Ledger q fun u => (pcs' u).view)
    (hmutex : s'.waitersMutex = q'.waitersMutex) (hresumed : s'.resumed = q'.resumed)
    (hsuspends : s'.suspends = q'.suspends) (hqueued : s'.queued = q'.waiters)
    (hframe : ∀ a u, s'.frame a = some u ↔ (Function.update pcs t pc u).address = some a)
    (hheld : ∀ a sp, (pcs t).held = some (a, sp) → sp ∉ q.resumed → pc.held = some (a, sp))
    (hheap : ∀ a, s'.heap a ≠ s.heap a → Writes s pcs q (pcs' t).view t a)
    (hwaiters : Chained s'.heap (Function.update pcs t pc) s'.waiters q'.waiters)
    (hplace : Matches s'.heap (Function.update pcs t pc) pc pc') :
    Linked s' (Function.update pcs t pc) q' (Function.update pcs' t pc') where
  mutex := hmutex
  resumed := hresumed
  suspends := hsuspends
  queued := hqueued
  frame := hframe
  waiters := hwaiters
  place u := by
    rcases eq_or_ne u t with rfl | hne
    · rw [Function.update_self, Function.update_self]
      exact hplace
    · rw [Function.update_of_ne hne, Function.update_of_ne hne]
      refine (h.place u).kept (fun sp hsp => ?_) fun a ha => ?_
      · refine kept hL hheld (.inr ⟨u, hsp⟩) fun a ha => ?_
        by_contra hw
        exact h.not_writes_of_hands hL hne hsp ha (hheap a hw)
      · by_contra hw
        exact h.not_writes_of_fresh hL hne ha (hheap a hw)

omit [Fintype τ] in
/-- The owners of the nodes, where the node of `t` is the one it had. -/
theorem frame_of_address (h : Linked s pcs q pcs') (hframe : s'.frame = s.frame)
    (haddress : pc.address = (pcs t).address) (a : α) (u : τ) :
    s'.frame a = some u ↔ (Function.update pcs t pc u).address = some a := by
  rw [hframe, h.frame]
  rcases eq_or_ne u t with rfl | hne
  · rw [Function.update_self, haddress]
  · rw [Function.update_of_ne hne]

/-- A step that neither touches a list nor constructs or destroys a node. -/
theorem quiet (h : Linked s pcs q pcs') (hL : Ledger q fun u => (pcs' u).view)
    (hs : s'.heap = s.heap ∧ s'.frame = s.frame ∧ s'.waiters = s.waiters ∧ s'.queued = s.queued)
    (hmutex : s'.waitersMutex = q'.waitersMutex) (hresumed : s'.resumed = q'.resumed)
    (hsuspends : s'.suspends = q'.suspends) (hqueued : q'.waiters = q.waiters)
    (haddress : pc.address = (pcs t).address)
    (hheld : ∀ a sp, (pcs t).held = some (a, sp) → sp ∉ q.resumed → pc.held = some (a, sp))
    (hplace : Matches s.heap (Function.update pcs t pc) (pcs t) (pcs' t) →
      Matches s.heap (Function.update pcs t pc) pc pc') :
    Linked s' (Function.update pcs t pc) q' (Function.update pcs' t pc') := by
  obtain ⟨hheap, hframe, hlist, hlog⟩ := hs
  have hkept : ∀ sp, (sp ∈ q.waiters ∨ ∃ u, sp ∈ (pcs' u).view.hands) →
      Kept s.heap pcs s.heap (Function.update pcs t pc) sp :=
    fun sp hsp => kept hL hheld hsp fun _ _ => rfl
  refine h.step hL hmutex hresumed hsuspends ?_ (h.frame_of_address hframe haddress) hheld ?_ ?_ ?_
  · rw [hlog, h.queued, hqueued]
  · intro a ha
    exact absurd (congrFun hheap a) ha
  · rw [hheap, hlist, hqueued]
    exact h.waiters.kept fun sp hsp => hkept sp (.inl hsp)
  · rw [hheap]
    exact hplace ((h.place t).kept (fun sp hsp => hkept sp (.inr ⟨t, hsp⟩)) fun _ _ => rfl)

/-- A step that leaves both queues as they are. -/
theorem moves (h : Linked s pcs q pcs') (hL : Ledger q fun u => (pcs' u).view)
    (haddress : pc.address = (pcs t).address)
    (hheld : ∀ a sp, (pcs t).held = some (a, sp) → pc.held = some (a, sp))
    (hplace : Matches s.heap (Function.update pcs t pc) (pcs t) (pcs' t) →
      Matches s.heap (Function.update pcs t pc) pc pc') :
    Linked s (Function.update pcs t pc) q (Function.update pcs' t pc') :=
  h.quiet hL ⟨rfl, rfl, rfl, rfl⟩ h.mutex h.resumed h.suspends rfl haddress
    (fun a sp ha _ => hheld a sp ha) hplace

end Linked

/-! ### The operations on the queue -/

omit [DecidableEq τ] [Fintype τ] in
/-- Taking the queue's lock changes nothing else. -/
theorem Queue.acquire_eq (h : s.acquire t = some s') :
    s.waitersMutex = none ∧ s' = { s with waitersMutex := some t } := by
  unfold Queue.acquire at h
  split at h
  · exact ⟨Option.isNone_iff_eq_none.1 ‹_›, (Option.some.inj h).symm⟩
  · nomatch h

/-- The lock is taken in both machines. -/
theorem Linked.acquire (h : Linked s pcs q pcs') (hL : Ledger q fun u => (pcs' u).view)
    (hs : s.acquire t = some s') (pc : Pc τ α) (haddress : pc.address = (pcs t).address)
    (hheld : ∀ a sp, (pcs t).held = some (a, sp) → pc.held = some (a, sp))
    (hplace : Matches s.heap (Function.update pcs t pc) (pcs t) (pcs' t) →
      Matches s.heap (Function.update pcs t pc) pc pc') :
    ∃ q', q.acquire t = some q' ∧
      Linked s' (Function.update pcs t pc) q' (Function.update pcs' t pc') := by
  obtain ⟨hfree, rfl⟩ := Queue.acquire_eq hs
  refine ⟨{ q with waitersMutex := some t }, if_pos (h.mutex.symm.trans hfree), ?_⟩
  exact h.quiet hL ⟨rfl, rfl, rfl, rfl⟩ rfl h.resumed h.suspends rfl haddress
    (fun a sp ha _ => hheld a sp ha) hplace

/-- The lock is released in both machines. -/
theorem Linked.release (h : Linked s pcs q pcs') (hL : Ledger q fun u => (pcs' u).view)
    (haddress : pc.address = (pcs t).address)
    (hheld : ∀ a sp, (pcs t).held = some (a, sp) → pc.held = some (a, sp))
    (hplace : Matches s.heap (Function.update pcs t pc) (pcs t) (pcs' t) →
      Matches s.heap (Function.update pcs t pc) pc pc') :
    Linked s.release (Function.update pcs t pc) q.release (Function.update pcs' t pc') :=
  h.quiet hL ⟨rfl, rfl, rfl, rfl⟩ rfl h.resumed h.suspends rfl haddress
    (fun a sp ha _ => hheld a sp ha) hplace

/-- The same suspension is resumed in both machines. -/
theorem Linked.resume (h : Linked s pcs q pcs') (hL : Ledger q fun u => (pcs' u).view)
    (haddress : pc.address = (pcs t).address)
    (hheld : ∀ a sp, (pcs t).held = some (a, sp) → pc.held = some (a, sp))
    (hplace : Matches s.heap (Function.update pcs t pc) (pcs t) (pcs' t) →
      Matches s.heap (Function.update pcs t pc) pc pc') :
    Linked (s.resume sp) (Function.update pcs t pc) (q.resume sp) (Function.update pcs' t pc') :=
  h.quiet hL ⟨rfl, rfl, rfl, rfl⟩ h.mutex (congrArg (sp :: ·) h.resumed) h.suspends rfl haddress
    (fun a sp ha _ => hheld a sp ha) hplace

variable [DecidableEq α] {pred : Bool} {address : α}

omit [DecidableEq α] in
/-- A list that `t` does not write to is there after its step. -/
theorem Linked.waiters_kept (h : Linked s pcs q pcs') (hL : Ledger q fun u => (pcs' u).view)
    (hheld : ∀ a sp, (pcs t).held = some (a, sp) → sp ∉ q.resumed → pc.held = some (a, sp))
    {heap : Heap α (Option (SuspendPoint τ))}
    (hheap : ∀ a sp, sp ∈ q.waiters → At s.heap pcs a sp → heap a = s.heap a) :
    Chained heap (Function.update pcs t pc) s.waiters q.waiters :=
  h.waiters.kept fun sp hsp =>
    Linked.kept hL hheld (.inl hsp) fun a => hheap a sp hsp

omit [DecidableEq τ] [Fintype τ] in
/-- Writing to storage that is no node. -/
theorem Linked.reuse (h : Linked s pcs q pcs') (hfree : s.frame address = none)
    (content : Node α (Option (SuspendPoint τ))) :
    Linked { s with heap := Function.update s.heap address content } pcs q pcs' := by
  have hheap : ∀ b, b ≠ address → Function.update s.heap address content b = s.heap b :=
    fun b hb => Function.update_of_ne hb ..
  have hkept : ∀ sp, Kept s.heap pcs (Function.update s.heap address content) pcs sp := by
    intro sp a ha
    have hne : a ≠ address := by
      rintro rfl
      rw [(h.frame a _).2 (Pc.address_of_held ha.2)] at hfree
      nomatch hfree
    exact ⟨hheap a hne, (congrArg Node.value (hheap a hne)).trans ha.1, ha.2⟩
  refine ⟨h.mutex, h.resumed, h.suspends, h.queued, h.frame,
    h.waiters.kept fun sp _ => hkept sp, fun u => (h.place u).kept (fun sp _ => hkept sp) ?_⟩
  intro a ha
  refine hheap a ?_
  rintro rfl
  rw [(h.frame a u).2 (Pc.address_of_fresh ha)] at hfree
  nomatch hfree

/-- A node is constructed where there was none. -/
theorem Linked.construct (h : Linked s pcs q pcs') (hL : Ledger q fun u => (pcs' u).view)
    (hpc : (pcs t).address = none) (hheld : (pcs t).held = none)
    (hfree : s.frame address = none) :
    Linked { s with
        heap := Function.update s.heap address { value := none }
        frame := Function.update s.frame address (some t) }
      (Function.update pcs t (.waitIf (.suspend address))) q
      (Function.update pcs' t (.waitIf .suspend)) := by
  have hr := h.reuse hfree { value := none }
  refine hr.step hL h.mutex h.resumed h.suspends h.queued (fun a u => ?_) (by simp [hheld])
    (fun a ha => absurd rfl ha) (hr.waiters_kept hL (by simp [hheld]) fun _ _ _ _ => rfl)
    (.suspend ?_)
  · change Function.update s.frame address (some t) a = some u ↔ _
    rcases eq_or_ne a address with rfl | ha
    · rw [Function.update_self]
      rcases eq_or_ne u t with rfl | hu
      · rw [Function.update_self]
        exact iff_of_true rfl rfl
      · rw [Function.update_of_ne hu, ← h.frame, hfree]
        exact iff_of_false (fun he => hu (Option.some.inj he).symm) nofun
    · rw [Function.update_of_ne ha, h.frame]
      rcases eq_or_ne u t with rfl | hu
      · rw [Function.update_self, hpc]
        exact iff_of_false nofun fun he => ha (Option.some.inj he).symm
      · rw [Function.update_of_ne hu]
  · simp [Heap.next]

/-- The call returns, and its node is gone. -/
theorem Linked.returns (h : Linked s pcs q pcs') (hL : Ledger q fun u => (pcs' u).view) {a : α}
    (hheld : (pcs t).held = some (a, sp)) (hsp : sp ∈ q.resumed) :
    Linked { s with frame := Function.update s.frame a none } (Function.update pcs t .idle) q
      (Function.update pcs' t .idle) := by
  have hlast : ∀ b sp', (pcs t).held = some (b, sp') → sp' ∉ q.resumed →
      (Pc.idle : Pc τ α).held = some (b, sp') := by
    intro b sp' hb hsp'
    rw [hheld] at hb
    obtain ⟨-, rfl⟩ := Prod.mk.inj (Option.some.inj hb)
    exact absurd hsp hsp'
  have haddress := Pc.address_of_held hheld
  refine h.step hL h.mutex h.resumed h.suspends h.queued (fun b u => ?_) hlast
    (fun b hb => absurd rfl hb) (h.waiters_kept hL hlast fun _ _ _ _ => rfl) .idle
  change Function.update s.frame a none b = some u ↔ _
  rcases eq_or_ne b a with rfl | hb
  · rw [Function.update_self]
    refine iff_of_false nofun ?_
    rcases eq_or_ne u t with rfl | hu
    · rw [Function.update_self]
      nofun
    · rw [Function.update_of_ne hu]
      exact fun he => hu (h.address_unique he haddress)
  · rw [Function.update_of_ne hb, h.frame]
    rcases eq_or_ne u t with rfl | hu
    · rw [Function.update_self, haddress]
      exact iff_of_false (fun he => hb (Option.some.inj he).symm) nofun
    · rw [Function.update_of_ne hu]

omit [Fintype τ] [DecidableEq α] in
/-- A step that leaves its task's node moves no other. -/
theorem At.of_update {heap : Heap α (Option (SuspendPoint τ))} (hheld : pc.held = (pcs t).held)
    (ha : At heap (Function.update pcs t pc) a sp) : At heap pcs a sp := by
  refine ⟨ha.1, ?_⟩
  rw [← ha.2]
  rcases eq_or_ne sp.task t with ht | ht
  · rw [ht, Function.update_self, hheld]
  · rw [Function.update_of_ne ht]

/-- The callback writes its suspend point into its node. -/
theorem Linked.setValue (h : Linked s pcs q pcs') (hL : Ledger q fun u => (pcs' u).view)
    (hpc : pcs t = .waitIf (.setValue a sp)) (hn : s.heap.next a = none) :
    Linked { s with heap := Function.update s.heap a { s.heap a with value := some sp } }
      (Function.update pcs t (.waitIf (.pushBack a sp))) q
      (Function.update pcs' t (.waitIf (.pushBack sp))) := by
  have hfresh : (pcs t).fresh = some a := by rw [hpc]; rfl
  have hheld : ∀ b sp', (pcs t).held = some (b, sp') → sp' ∉ q.resumed →
      (Pc.waitIf (.pushBack a sp)).held = some (b, sp') := by
    rw [hpc]
    exact fun _ _ ha _ => ha
  have hheap : ∀ b, b ≠ a →
      Function.update s.heap a { s.heap a with value := some sp } b = s.heap b :=
    fun b hb => Function.update_of_ne hb ..
  refine h.step hL h.mutex h.resumed h.suspends h.queued
    (h.frame_of_address rfl (by rw [hpc]; rfl)) hheld (fun b hb => ?_)
    (h.waiters_kept hL hheld fun b sp' hsp' hb => hheap b ?_) (.pushBack ?_ ?_)
  · obtain rfl : b = a := by
      by_contra hne
      exact hb (hheap b hne)
    exact .inr (.inl hfresh)
  · rintro rfl
    exact h.not_fresh hL (.inl hsp') hb hfresh
  · simpa [Heap.next] using hn
  · simp

/-- The callback pushes its node. -/
theorem Linked.push (h : Linked s pcs q pcs') (hL : Ledger q fun u => (pcs' u).view)
    (hpc : pcs t = .waitIf (.pushBack a sp)) (hpc' : pcs' t = .waitIf (.pushBack sp))
    (hn : s.heap.next a = none) (hv : (s.heap a).value = some sp) :
    ∃ s', s.pushBack a sp = some s' ∧
      Linked s' (Function.update pcs t (.waitIf (.unlockQueued a sp)))
        { q with waiters := q.waiters ++ [sp] }
        (Function.update pcs' t (.waitIf (.unlockQueued sp))) := by
  have hheld : ∀ b sp', (pcs t).held = some (b, sp') → sp' ∉ q.resumed →
      (Pc.waitIf (.unlockQueued a sp)).held = some (b, sp') := by
    rw [hpc]
    exact fun _ _ ha _ => ha
  have htask : sp.task = t := (hL.own t sp (by rw [hpc']; rfl)).1
  have hat : At s.heap pcs a sp := ⟨hv, by rw [htask, hpc]; rfl⟩
  have hsp : sp ∉ q.waiters := fun hw => h.not_fresh hL (.inl hw) hat (by rw [hpc]; rfl)
  have hl : Chained s.heap (Function.update pcs t (.waitIf (.unlockQueued a sp))) s.waiters
      q.waiters := h.waiters_kept hL hheld fun _ _ _ _ => rfl
  obtain ⟨heap, l, hpush, hframe, hvalue, hl'⟩ :=
    hl.pushBack (a := a) hn ⟨hv, by rw [htask, Function.update_self]; rfl⟩ hsp
  refine ⟨_, by rw [Queue.pushBack, hpush]; rfl, ?_⟩
  refine h.step hL h.mutex h.resumed h.suspends (congrArg (· ++ [sp]) h.queued)
    (h.frame_of_address rfl (by rw [hpc]; rfl)) hheld (fun b hb => ?_) hl' .unlockQueued
  -- the node written to is the last of the list
  by_contra hw
  refine hb (hframe b fun sp' hsp' hb' => hw (.inr (.inr ⟨sp', ?_, .inr ⟨?_, hsp'⟩⟩)))
  · exact hb'.of_update (by rw [hpc]; rfl)
  · rw [hpc']
    rfl

omit [Fintype τ] in
/-- There is nothing to pop where nobody waits. -/
theorem Linked.popFront_nil (h : Linked s pcs q pcs') (hw : q.waiters = []) :
    s.popFront = some (s, none) := by
  have hl := h.waiters
  rw [hw] at hl
  rw [Queue.popFront, hl.popFront_nil]
  rfl

/-- The task in the critical section takes the first waiter off the queue. -/
theorem Linked.popFront (h : Linked s pcs q pcs') (hL : Ledger q fun u => (pcs' u).view)
    {sps : List (SuspendPoint τ)} (hw : q.waiters = sp :: sps) (pc : α → Pc τ α)
    (pc' : WaitQueue.Pc τ)
    (hcritical : (pcs' t).view.critical = true) (hheld : (pcs t).held = none)
    (haddress : ∀ a, (pc a).address = (pcs t).address)
    (hplace : ∀ heap a, At heap (Function.update pcs t (pc a)) a sp → heap.next a = none →
      Matches heap (Function.update pcs t (pc a)) (pcs t) (pcs' t) →
      Matches heap (Function.update pcs t (pc a)) (pc a) pc') :
    ∃ s' a, s.popFront = some (s', some a) ∧ Linked s' (Function.update pcs t (pc a))
      { q with waiters := sps } (Function.update pcs' t pc') := by
  have hl := h.waiters
  rw [hw] at hl
  obtain ⟨a, heap, l, hpop, hat, hnull, hframe, hvalue, hl'⟩ := hl.popFront_cons
  have hheld' : ∀ b sp', (pcs t).held = some (b, sp') → sp' ∉ q.resumed →
      (pc a).held = some (b, sp') := by simp [hheld]
  have hnodup := hL.waiters_nodup
  rw [hw, List.nodup_cons] at hnodup
  have hmem : sp ∈ q.waiters := hw ▸ List.mem_cons_self ..
  -- the heap changes at the node of `sp` only
  have hkept : ∀ sp', (sp' ∈ q.waiters ∨ ∃ u, sp' ∈ (pcs' u).view.hands) → sp' ≠ sp →
      Kept s.heap pcs heap (Function.update pcs t (pc a)) sp' := fun sp' hsp' hne =>
    Linked.kept hL hheld' hsp' fun b hb =>
      hframe b fun he => hne (hb.unique (he ▸ hat))
  have hstays : Kept s.heap pcs s.heap (Function.update pcs t (pc a)) sp :=
    Linked.kept hL hheld' (.inl hmem) fun _ _ => rfl
  have hat' : At heap (Function.update pcs t (pc a)) a sp :=
    ⟨(hvalue a).trans hat.1, (hstays a hat).2.2⟩
  have hqueued : s.queued.erase sp = sps := by rw [h.queued, hw, List.erase_cons_head]
  refine ⟨_, a, by rw [Queue.popFront, hpop]; rfl, ?_⟩
  refine h.step hL h.mutex h.resumed h.suspends ?_ (h.frame_of_address rfl (haddress a)) hheld'
    (fun b hb => ?_) ?_ (hplace heap a hat' hnull ?_)
  · change ((s.heap a).value.elim s.queued s.queued.erase) = sps
    rw [hat.1]
    exact hqueued
  · by_cases hba : b = a
    · exact .inr (.inr ⟨sp, hba ▸ hat, .inr ⟨hcritical, hmem⟩⟩)
    · exact absurd (hframe b hba) hb
  · refine hl'.kept fun sp' hsp' b hb => ?_
    have hne : sp' ≠ sp := fun he => hnodup.1 (he ▸ hsp')
    have hmem' : sp' ∈ q.waiters := hw ▸ List.mem_cons_of_mem _ hsp'
    exact ⟨rfl, (hkept sp' (.inl hmem') hne b ⟨(hvalue b).symm.trans hb.1, hb.2⟩).2⟩
  · refine (h.place t).kept (fun sp' hsp' => hkept sp' (.inr ⟨t, hsp'⟩) ?_) fun b hb => hframe b ?_
    · rintro rfl
      exact hL.notMem_waiters_of_hands hsp' hmem
    · rintro rfl
      exact h.not_fresh hL (.inl hmem) hat hb

end Step

end Nodes
end WaitQueue
end CoopSync
