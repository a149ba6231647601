/-
# A list is a first-in first-out sequence

What `intrusive_list` is for: each list holds a sequence of nodes, `push_back` appends,
`pop_front` takes the first, and `swap` and the move constructor move whole sequences
(`Seqs.step`).  Lists that share a heap keep to this (`run_refines`) as long as a node is
pushed only while it is in no list (`Seqs.PushesFree`): a push then writes to the last node
of its own list only, and a pop to the node it takes, so the other lists stay as they are.
-/

import Mathlib.Data.Fintype.Basic
import Mathlib.Data.Option.Basic
import Mathlib.Logic.Equiv.Basic
import CoopSync.IntrusiveList.Model
import CoopSync.Links

namespace CoopSync
namespace IntrusiveList

variable {α T κ : Type*}

/-- The next pointers of a heap. -/
def Heap.next (h : Heap α T) (a : α) : Option α := (h a).next

/-- The list `l` holds the nodes `xs`, in this order. -/
abbrev Holds (h : Heap α T) (l : IntrusiveList α) (xs : List α) : Prop :=
  IsQueue h.next l.head l.tail xs

section Operations

variable {h : Heap α T} {l : IntrusiveList α} {xs : List α} {a : α}

/-- The assertions of the class. -/
theorem Holds.assertInvariants (hl : Holds h l xs) : assertInvariants h l = true := by
  have hnull : l.head.isNone = l.tail.isNone := by
    rw [Bool.eq_iff_iff, Option.isNone_iff_eq_none, Option.isNone_iff_eq_none]
    exact hl.head_iff_tail
  simp only [IntrusiveList.assertInvariants, hnull, beq_self_eq_true, Bool.true_and,
    Option.all_eq_true, Option.isNone_iff_eq_none]
  exact fun t ht => hl.next_tail ht

/-- `empty` tells whether the sequence is. -/
theorem Holds.empty (hl : Holds h l xs) : l.empty h = some xs.isEmpty := by
  have hhead : l.head.isNone = xs.isEmpty := by
    rw [Bool.eq_iff_iff, Option.isNone_iff_eq_none, List.isEmpty_iff]
    exact hl.head_eq_none
  rw [IntrusiveList.empty, if_pos hl.assertInvariants, hhead]

/-- The move constructor takes the nodes and leaves an empty list. -/
theorem Holds.moveConstruct (hl : Holds h l xs) : l.moveConstruct h = some (l, {}) :=
  if_pos hl.assertInvariants

variable [DecidableEq α]

/-- A store to `next` of a node. -/
@[simp] theorem Heap.next_setNext (h : Heap α T) (p : α) (q : Option α) :
    (h.setNext p q).next = Function.update h.next p q := by
  funext b
  rcases eq_or_ne b p with rfl | hb
  · simp [Heap.setNext, Heap.next]
  · simp [Heap.setNext, Heap.next, hb]

/-- It leaves the values. -/
@[simp] theorem Heap.value_setNext (h : Heap α T) (p b : α) (q : Option α) :
    (h.setNext p q b).value = (h b).value := by
  rcases eq_or_ne b p with rfl | hb
  · simp [Heap.setNext]
  · simp [Heap.setNext, hb]

/-- **`push_back` appends**, and writes to no node that is not in the list. -/
theorem Holds.pushBack (hl : Holds h l xs) (ha : a ∉ xs) (hn : h.next a = none) :
    ∃ h' l', l.pushBack h a = some (h', l') ∧ Holds h' l' (xs ++ [a]) ∧
      (∀ b, b ∉ xs → h'.next b = h.next b) ∧ ∀ b, (h' b).value = (h b).value := by
  have hassert : (IntrusiveList.assertInvariants h l && (h a).next.isNone) = true := by
    rw [hl.assertInvariants, Bool.true_and, Option.isNone_iff_eq_none]
    exact hn
  cases ht : l.tail with
  | none =>
    rw [Holds, ht] at hl
    have hl' : Holds h ⟨some a, some a⟩ (xs ++ [a]) := hl.push_back_nil hn
    refine ⟨h, _, ?_, hl', fun b _ => rfl, fun b => rfl⟩
    simp only [IntrusiveList.pushBack, hassert, ht, if_true, hl'.assertInvariants]
  | some t =>
    rw [Holds, ht] at hl
    have hl' : Holds (h.setNext t (some a)) { l with tail := some a } (xs ++ [a]) := by
      rw [Holds, Heap.next_setNext]
      exact hl.push_back ha hn
    refine ⟨_, _, ?_, hl', fun b hb => ?_, fun b => h.value_setNext ..⟩
    · simp only [IntrusiveList.pushBack, hassert, ht, if_true, hl'.assertInvariants]
    · have hmem : t ∈ xs := List.mem_of_getLast? hl.tail_eq.symm
      rw [Heap.next_setNext]
      exact Function.update_of_ne (ne_of_mem_of_not_mem hmem hb).symm ..

/-- **`pop_front` returns and unlinks the first node**, and writes to no other. -/
theorem Holds.popFront (hl : Holds h l xs) :
    ∃ h' l', l.popFront h = some (h', l', xs.head?) ∧ Holds h' l' xs.tail ∧
      (∀ b, xs.head? ≠ some b → h'.next b = h.next b) ∧
      (∀ b, xs.head? = some b → h'.next b = none) ∧ ∀ b, (h' b).value = (h b).value := by
  have hassert := hl.assertInvariants
  cases hh : l.head with
  | none =>
    obtain rfl := hl.head_eq_none.1 hh
    refine ⟨h, l, ?_, hl, fun b _ => rfl, nofun, fun b => rfl⟩
    simp only [IntrusiveList.popFront, hassert, hh, if_true, List.head?_nil]
  | some a =>
    rw [Holds, hh] at hl
    obtain ⟨ys, rfl, hq⟩ := hl.pop_front
    have hl' : Holds (h.setNext a none) ⟨(h a).next, if (h a).next.isNone then none else l.tail⟩
        ys := by
      simp only [Holds, Heap.next_setNext, Option.isNone_iff_eq_none]
      exact hq
    refine ⟨_, _, ?_, hl', fun b hb => ?_, fun b hb => ?_, fun b => h.value_setNext ..⟩
    · simp only [IntrusiveList.popFront, hassert, hh, if_true, hl'.assertInvariants,
        List.head?_cons]
    · rw [Heap.next_setNext, Function.update_of_ne fun he => hb (by rw [he, List.head?_cons])]
    · obtain rfl := Option.some.inj hb
      rw [Heap.next_setNext, Function.update_self]

end Operations

/-! ### The sequences -/

/-- The sequence of each list that has been constructed. -/
abbrev Seqs (κ α : Type*) := κ → Option (List α)

/-- The node is in no list. -/
def Seqs.Free (s : Seqs κ α) (a : α) : Prop := ∀ k xs, s k = some xs → a ∉ xs

/-- No two lists share a node. -/
def Seqs.Disjoint (s : Seqs κ α) : Prop :=
  ∀ ⦃j k xs ys⦄, j ≠ k → s j = some xs → s k = some ys → xs.Disjoint ys

/-- The lists hold the sequences, none of which share a node, and a node in no list has a
null next pointer. -/
structure Represents (w : World κ α T) (s : Seqs κ α) : Prop where
  lists : ∀ k, Option.Rel (Holds w.heap) (w.lists k) (s k)
  disjoint : s.Disjoint
  unlinked : ∀ {a}, s.Free a → w.heap.next a = none

/-- At the start there is no list. -/
theorem represents_init (value : α → T) : Represents (World.init (κ := κ) value) fun _ => none where
  lists _ := .none
  disjoint := by
    intro j k xs ys _ hj
    nomatch hj
  unlinked _ := rfl

section Represents

variable {w : World κ α T} {s : Seqs κ α} {k : κ} {l : IntrusiveList α} {xs ys : List α} {a : α}

/-- The lists that exist are those that have a sequence. -/
theorem Represents.none_iff (h : Represents w s) (k : κ) : w.lists k = none ↔ s k = none := by
  have hk := h.lists k
  cases hl : w.lists k <;> cases hs : s k <;> simp_all

/-- A list holds its sequence. -/
theorem Represents.holds (h : Represents w s) (hl : w.lists k = some l) :
    ∃ xs, s k = some xs ∧ Holds w.heap l xs := by
  have hk := h.lists k
  rw [hl] at hk
  cases hs : s k with
  | none =>
    rw [hs] at hk
    nomatch hk
  | some xs =>
    rw [hs] at hk
    cases hk with
    | some hk => exact ⟨xs, rfl, hk⟩

/-- Which object has which content does not matter. -/
theorem Represents.comp (h : Represents w s) (e : Equiv.Perm κ) :
    Represents { w with lists := w.lists ∘ e } (s ∘ e) where
  lists k := h.lists (e k)
  disjoint _ _ _ _ hne := h.disjoint (e.injective.ne hne)
  unlinked hfree := h.unlinked fun k xs hk =>
    hfree (e.symm k) xs (by rwa [Function.comp_apply, e.apply_symm_apply])

variable [DecidableEq κ]

/-- One list gets another sequence, whose nodes are in no other list. -/
theorem Seqs.Disjoint.update (h : s.Disjoint)
    (hys : ∀ j zs, j ≠ k → s j = some zs → zs.Disjoint ys) :
    Seqs.Disjoint (Function.update s k (some ys)) := by
  intro j j' zs zs' hne hj hj'
  rcases eq_or_ne j k with rfl | hjk
  · rw [Function.update_self] at hj
    rw [Function.update_of_ne hne.symm] at hj'
    obtain rfl := Option.some.inj hj
    exact List.disjoint_left.2 fun b hy hz => hys j' zs' hne.symm hj' hz hy
  · rw [Function.update_of_ne hjk] at hj
    rcases eq_or_ne j' k with rfl | hjk'
    · rw [Function.update_self] at hj'
      obtain rfl := Option.some.inj hj'
      exact hys j zs hjk hj
    · rw [Function.update_of_ne hjk'] at hj'
      exact h hne hj hj'

/-- A relation between the lists and the sequences, after a change of both at `k`. -/
theorem rel_update {P : IntrusiveList α → List α → Prop} {f : κ → Option (IntrusiveList α)}
    (h : ∀ j, j ≠ k → Option.Rel P (f j) (s j)) (hk : P l ys) (j : κ) :
    Option.Rel P (Function.update f k (some l) j) (Function.update s k (some ys) j) := by
  rcases eq_or_ne j k with rfl | hj
  · rw [Function.update_self, Function.update_self]
    exact .some hk
  · rw [Function.update_of_ne hj, Function.update_of_ne hj]
    exact h j hj

/-- One list gets another content, made of its own nodes and of nodes in no list; the
other nodes stay as they are, and those let go are unlinked. -/
theorem Represents.set (h : Represents w s) {heap : Heap α T} (hk : s k = some xs)
    (hl : Holds heap l ys) (hys : ∀ a ∈ ys, a ∈ xs ∨ s.Free a)
    (hframe : ∀ b, b ∉ xs → heap.next b = w.heap.next b)
    (hgone : ∀ b ∈ xs, b ∉ ys → heap.next b = none) :
    Represents ⟨heap, Function.update w.lists k (some l)⟩ (Function.update s k (some ys)) where
  lists := by
    refine rel_update (fun j hj => ?_) hl
    have hrel := h.lists j
    cases hs : s j with
    | none =>
      rw [hs] at hrel
      generalize w.lists j = o at hrel ⊢
      cases hrel
      exact .none
    | some zs =>
      rw [hs] at hrel
      generalize w.lists j = o at hrel ⊢
      cases hrel with
      | some hm => exact .some (hm.congr fun b hb => hframe b fun hx => h.disjoint hj hs hk hb hx)
  disjoint := h.disjoint.update fun j zs hj hs b hz hy =>
    (hys b hy).elim (h.disjoint hj hs hk hz) fun hfree => hfree _ _ hs hz
  unlinked := by
    intro b hfree
    have hb : b ∉ ys := hfree k ys (Function.update_self ..)
    by_cases hx : b ∈ xs
    · exact hgone b hx hb
    · refine (hframe b hx).trans (h.unlinked fun j zs hj => ?_)
      rcases eq_or_ne j k with rfl | hjk
      · rw [hk] at hj
        obtain rfl := Option.some.inj hj
        exact hx
      · exact hfree j zs ((Function.update_of_ne hjk ..).trans hj)

/-- A list is constructed. -/
theorem Represents.construct (h : Represents w s) (hk : s k = none) :
    Represents { w with lists := Function.update w.lists k (some {}) }
      (Function.update s k (some [])) where
  lists := rel_update (fun j _ => h.lists j) .nil
  disjoint := h.disjoint.update fun _ _ _ _ => List.disjoint_nil_right _
  unlinked hfree := h.unlinked fun j zs hj => by
    have hjk : j ≠ k := by
      intro he
      rw [he, hk] at hj
      nomatch hj
    exact hfree j zs ((Function.update_of_ne hjk ..).trans hj)

end Represents

/-! ### The operations -/

variable [DecidableEq α] [DecidableEq κ]

/-- What an operation does to the sequences, and what it returns. -/
def Seqs.step (s : Seqs κ α) : Op κ α → Option (Seqs κ α × Result α)
  | .construct k =>
    match s k with
    | none => some (Function.update s k (some []), .unit)
    | some _ => none
  | .moveConstruct k other =>
    match s k, s other with
    | none, some xs =>
      some (Function.update (Function.update s k (some xs)) other (some []), .unit)
    | _, _ => none
  | .pushBack k node => (s k).map fun xs => (Function.update s k (some (xs ++ [node])), .unit)
  | .popFront k => (s k).map fun xs => (Function.update s k (some xs.tail), .node xs.head?)
  | .empty k => (s k).map fun xs => (s, .bool xs.isEmpty)
  | .swap k other =>
    match s k, s other with
    | some xs, some ys =>
      some (Function.update (Function.update s k (some ys)) other (some xs), .unit)
    | _, _ => none

def Seqs.run (s : Seqs κ α) : List (Op κ α) → Option (Seqs κ α × List (Result α))
  | [] => some (s, [])
  | op :: ops => (s.step op).bind fun r => (r.1.run ops).map fun rs => (rs.1, r.2 :: rs.2)

/-- A node that is pushed is in no list. -/
def Seqs.PushFree (s : Seqs κ α) : Op κ α → Prop
  | .pushBack _ node => s.Free node
  | _ => True

def Seqs.PushesFree (s : Seqs κ α) : List (Op κ α) → Prop
  | [] => True
  | op :: ops => s.PushFree op ∧ ∀ r ∈ s.step op, r.1.PushesFree ops

section Decidable

variable [Fintype κ]

instance (s : Seqs κ α) (a : α) : Decidable (s.Free a) :=
  inferInstanceAs (Decidable (∀ k, ∀ xs ∈ s k, a ∉ xs))

instance (s : Seqs κ α) : (op : Op κ α) → Decidable (s.PushFree op)
  | .pushBack _ node => inferInstanceAs (Decidable (s.Free node))
  | .construct _ | .moveConstruct _ _ | .popFront _ | .empty _ | .swap _ _ => .isTrue trivial

instance decidablePushesFree : (s : Seqs κ α) → (ops : List (Op κ α)) →
    Decidable (s.PushesFree ops)
  | _, [] => .isTrue trivial
  | s, op :: ops =>
    haveI : ∀ r : Seqs κ α × Result α, Decidable (r.1.PushesFree ops) :=
      fun r => decidablePushesFree r.1 ops
    inferInstanceAs (Decidable (s.PushFree op ∧ ∀ r ∈ s.step op, r.1.PushesFree ops))

end Decidable

/-- The same result, lists that hold the sequences, and nodes with the values they had. -/
def Refines {β : Type*} (w₀ : World κ α T) (r : World κ α T × β) (r' : Seqs κ α × β) : Prop :=
  r.2 = r'.2 ∧ Represents r.1 r'.1 ∧ ∀ a, (r.1.heap a).value = (w₀.heap a).value

/-- **One operation.**  It fails only where a list it is about does not exist, or a list to
be constructed does. -/
theorem step_refines {w : World κ α T} {s : Seqs κ α} (h : Represents w s) {op : Op κ α}
    (hfree : s.PushFree op) : Option.Rel (Refines w) (w.step op) (s.step op) := by
  cases op with
  | construct k =>
    cases hl : w.lists k with
    | none =>
      have hs := (h.none_iff k).1 hl
      simp only [World.step, Seqs.step, hl, hs]
      exact .some ⟨rfl, h.construct hs, fun a => rfl⟩
    | some l =>
      obtain ⟨xs, hs, -⟩ := h.holds hl
      simp only [World.step, Seqs.step, hl, hs]
      exact .none
  | moveConstruct k other =>
    cases hl : w.lists k with
    | some l =>
      obtain ⟨xs, hs, -⟩ := h.holds hl
      simp only [World.step, Seqs.step, hl, hs]
      exact .none
    | none =>
      have hs := (h.none_iff k).1 hl
      cases hm : w.lists other with
      | none =>
        simp only [World.step, Seqs.step, hl, hs, hm, (h.none_iff other).1 hm]
        exact .none
      | some m =>
        obtain ⟨xs, ho, hq⟩ := h.holds hm
        simp only [World.step, Seqs.step, hl, hs, hm, ho, hq.moveConstruct, Option.map_some]
        -- the two exchange what they hold, and `other`, which holds nothing now, starts anew
        have hswap := (h.comp (Equiv.swap other k)).construct (k := other)
          (by rw [Function.comp_apply, Equiv.swap_apply_left, hs])
        rw [Equiv.comp_swap_eq_update, Equiv.comp_swap_eq_update, hm, ho,
          Function.update_idem, Function.update_idem] at hswap
        exact .some ⟨rfl, hswap, fun a => rfl⟩
  | pushBack k a =>
    cases hl : w.lists k with
    | none =>
      simp only [World.step, Seqs.step, hl, (h.none_iff k).1 hl]
      exact .none
    | some l =>
      obtain ⟨xs, hs, hq⟩ := h.holds hl
      have ha : s.Free a := hfree
      obtain ⟨heap, l', hpush, hq', hframe, hvalue⟩ := hq.pushBack (ha k xs hs) (h.unlinked ha)
      simp only [World.step, Seqs.step, hl, hs, hpush, Option.bind_some, Option.map_some]
      refine .some ⟨rfl, h.set hs hq' (fun b hb => ?_) hframe fun b hx hb => ?_, hvalue⟩
      · rcases List.mem_append.1 hb with hb | hb
        · exact .inl hb
        · exact .inr (List.mem_singleton.1 hb ▸ ha)
      · exact absurd (List.mem_append_left _ hx) hb
  | popFront k =>
    cases hl : w.lists k with
    | none =>
      simp only [World.step, Seqs.step, hl, (h.none_iff k).1 hl]
      exact .none
    | some l =>
      obtain ⟨xs, hs, hq⟩ := h.holds hl
      obtain ⟨heap, l', hpop, hq', hframe, hnull, hvalue⟩ := hq.popFront
      simp only [World.step, Seqs.step, hl, hs, hpop, Option.bind_some, Option.map_some]
      refine .some ⟨rfl, h.set hs hq' (fun b hb => .inl (List.mem_of_mem_tail hb))
        (fun b hb => hframe b fun hx => hb (List.mem_of_head? hx)) fun b hx hb => hnull b ?_,
        hvalue⟩
      cases xs with
      | nil => simp at hx
      | cons c xs => rw [List.head?_cons, (List.mem_cons.1 hx).resolve_right hb]
  | empty k =>
    cases hl : w.lists k with
    | none =>
      simp only [World.step, Seqs.step, hl, (h.none_iff k).1 hl]
      exact .none
    | some l =>
      obtain ⟨xs, hs, hq⟩ := h.holds hl
      simp only [World.step, Seqs.step, hl, hs, hq.empty, Option.bind_some, Option.map_some]
      exact .some ⟨rfl, h, fun a => rfl⟩
  | swap k other =>
    cases hl : w.lists k with
    | none =>
      simp only [World.step, Seqs.step, hl, (h.none_iff k).1 hl]
      exact .none
    | some l =>
      obtain ⟨xs, hs, -⟩ := h.holds hl
      cases hm : w.lists other with
      | none =>
        simp only [World.step, Seqs.step, hl, hs, hm, (h.none_iff other).1 hm]
        exact .none
      | some m =>
        obtain ⟨ys, ho, -⟩ := h.holds hm
        have hswap := h.comp (Equiv.swap other k)
        rw [Equiv.comp_swap_eq_update, Equiv.comp_swap_eq_update, hl, hm, hs, ho] at hswap
        simp only [World.step, Seqs.step, hl, hm, hs, ho]
        exact .some ⟨rfl, hswap, fun a => rfl⟩

/-- **A run of operations**, by induction on it. -/
theorem run_refines {w : World κ α T} {s : Seqs κ α} (h : Represents w s) {ops : List (Op κ α)}
    (hfree : s.PushesFree ops) : Option.Rel (Refines w) (w.run ops) (s.run ops) := by
  induction ops generalizing w s with
  | nil => exact .some ⟨rfl, h, fun a => rfl⟩
  | cons op ops ih =>
    have hstep := step_refines h hfree.1
    simp only [World.run, Seqs.run]
    cases hs : s.step op with
    | none =>
      rw [hs] at hstep
      generalize w.step op = o at hstep ⊢
      cases hstep
      exact .none
    | some r' =>
      rw [hs] at hstep
      generalize w.step op = o at hstep ⊢
      cases hstep with
      | @some r _ hr =>
        obtain ⟨hres, hrep, hvalue⟩ := hr
        have hrest := ih hrep (hfree.2 r' hs)
        simp only [Option.bind_some]
        generalize r.1.run ops = p, r'.1.run ops = p' at hrest ⊢
        cases hrest with
        | none => exact .none
        | some hr =>
          exact .some ⟨congr_arg₂ List.cons hres hr.1, hr.2.1, fun a =>
            (hr.2.2 a).trans (hvalue a)⟩

/-- **`intrusive_list` refines a first-in first-out sequence.**  Operations on lists that
have been constructed, with no node pushed while it is in a list, all succeed and return
what the sequences say; following `next` from `m_head` visits the sequence and ends at
`m_tail`. -/
theorem refines_sequences (value : α → T) {ops : List (Op κ α)} {s : Seqs κ α}
    {rs : List (Result α)} (hfree : Seqs.PushesFree (fun _ => none) ops)
    (hs : Seqs.run (fun _ => none) ops = some (s, rs)) :
    ∃ w, (World.init value).run ops = some (w, rs) ∧
      (∀ k, w.lists k = none ↔ s k = none) ∧
      (∀ k l, w.lists k = some l → ∃ xs, s k = some xs ∧ xs.Nodup ∧
        Links w.heap.next l.head xs ∧ l.tail = xs.getLast? ∧
        (∀ t, l.tail = some t → w.heap.next t = none) ∧ (l.head = none ↔ l.tail = none)) ∧
      s.Disjoint ∧
      (∀ a, s.Free a → w.heap.next a = none) ∧ ∀ a, (w.heap a).value = value a := by
  have hrun := run_refines (represents_init value) hfree
  rw [hs] at hrun
  generalize hw : (World.init value).run ops = o at hrun
  cases hrun with
  | @some r _ hr =>
    obtain ⟨hres, hrep, hvalue⟩ := hr
    refine ⟨r.1, ?_, hrep.none_iff, fun k l hl => ?_, hrep.disjoint, fun a => hrep.unlinked, hvalue⟩
    · have hr : r = (r.1, rs) := Prod.ext rfl hres
      rw [← hr]
    · obtain ⟨xs, hxs, hq⟩ := hrep.holds hl
      exact ⟨xs, hxs, hq.nodup, hq.links, hq.tail_eq, fun t ht => hq.next_tail ht, hq.head_iff_tail⟩

/-- Two nodes go through the list `false` and the list `true` that it is moved to. -/
def moveAndReuse : List (Op Bool Bool) :=
  [.construct false, .pushBack false true, .pushBack false false, .swap false false,
    .moveConstruct true false, .popFront true, .pushBack false true, .swap false true, .empty true,
    .popFront false, .popFront false]

/-- The theorem where a list is moved and its nodes are used again. -/
theorem refines_sequences_move : ∃ w : World Bool Bool ℕ,
    (World.init fun _ => 0).run moveAndReuse = some (w, [.unit, .unit, .unit, .unit, .unit,
      .node (some true), .unit, .unit, .bool false, .node (some false), .node none]) ∧
      w.heap.next false = none := by
  have hpushes : Seqs.PushesFree (fun _ => none) moveAndReuse := by decide
  obtain ⟨w, hw, -, -, -, hfree, -⟩ := refines_sequences (fun _ => 0) hpushes rfl
  exact ⟨w, hw, hfree false (by decide)⟩

end IntrusiveList
end CoopSync
