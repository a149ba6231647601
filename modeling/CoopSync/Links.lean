/-
# Chains of nodes linked by a next pointer

A heap of nodes of type `α` is seen here through one function, `next : α → Option α`.
A pointer and a list agree (`Links`) if following `next` from the pointer visits exactly
the list and ends in a null pointer; then the pointer determines the list, which has no
node twice.  A queue with a pointer to each end agrees with a list (`IsQueue`) if the
first pointer does and the second points to the last node.  Writes to other nodes keep a
queue (`IsQueue.update_of_notMem`), and appending a node and taking the first one are two
writes each (`IsQueue.push_back`, `IsQueue.pop_front`).

Nothing here is about one program.
-/

import Mathlib.Data.List.Nodup
import Mathlib.Logic.Function.Basic

namespace CoopSync

variable {α : Type*} {next next' : α → Option α} {p q head tail : Option α} {l m : List α}

/-- Following `next` from `p` visits exactly the nodes of the list and ends. -/
def Links (next : α → Option α) : Option α → List α → Prop
  | p, [] => p = none
  | p, a :: l => p = some a ∧ Links next (next a) l

namespace Links

/-- The chain of no nodes is the null pointer. -/
@[simp] theorem nil_iff : Links next p [] ↔ p = none := Iff.rfl

/-- A chain is its first node and the chain behind it. -/
@[simp] theorem cons_iff {a : α} :
    Links next p (a :: l) ↔ p = some a ∧ Links next (next a) l := Iff.rfl

/-- The pointer is the first node. -/
theorem eq_head? (h : Links next p l) : p = l.head? := by
  cases l with
  | nil => exact h
  | cons a l => exact h.1

/-- The null pointer starts the chain of no nodes only. -/
theorem eq_nil_iff (h : Links next p l) : p = none ↔ l = [] := by
  rw [h.eq_head?, List.head?_eq_none_iff]

/-- A pointer is followed in one way. -/
theorem unique (h : Links next p l) (h' : Links next p m) : l = m := by
  induction l generalizing p m with
  | nil =>
    obtain rfl := h
    exact (h'.eq_nil_iff.1 rfl).symm
  | cons a l ih =>
    obtain ⟨rfl, h⟩ := h
    cases m with
    | nil => nomatch h'
    | cons b m =>
      obtain ⟨hb, h'⟩ := h'
      obtain rfl := Option.some.inj hb
      rw [ih h h']

/-- What is visited from a node on the way is the rest of the list. -/
theorem of_append {a : α} (h : Links next p (l ++ a :: m)) : Links next (some a) (a :: m) := by
  induction l generalizing p with
  | nil =>
    obtain ⟨rfl, h⟩ := h
    exact ⟨rfl, h⟩
  | cons b l ih => exact ih h.2

/-- No node is visited twice. -/
theorem nodup (h : Links next p l) : l.Nodup := by
  induction l generalizing p with
  | nil => exact List.nodup_nil
  | cons a l ih =>
    refine List.nodup_cons.2 ⟨fun ha => ?_, ih h.2⟩
    -- from the second visit on the list would be as long as from the first
    obtain ⟨l₁, l₂, rfl⟩ := List.append_of_mem ha
    have hfirst : Links next (some a) (a :: (l₁ ++ a :: l₂)) := ⟨rfl, h.2⟩
    have heq := unique (of_append (l := a :: l₁) h) hfirst
    have hlen := congrArg List.length heq
    simp only [List.length_cons, List.length_append] at hlen
    omega

/-- The last node has no successor. -/
theorem next_getLast {a : α} (h : Links next p l) (ha : l.getLast? = some a) : next a = none := by
  obtain ⟨l₁, rfl⟩ := List.getLast?_eq_some_iff.1 ha
  exact (of_append h).2

/-- Only the pointers in the nodes of the list matter. -/
theorem congr (h : Links next p l) (he : ∀ a ∈ l, next' a = next a) : Links next' p l := by
  induction l generalizing p with
  | nil => exact h
  | cons a l ih =>
    refine ⟨h.1, ?_⟩
    rw [he a (List.mem_cons_self ..)]
    exact ih h.2 fun b hb => he b (List.mem_cons_of_mem _ hb)

variable [DecidableEq α] {a t : α}

/-- **The frame of a chain.**  A write to a node elsewhere keeps it. -/
theorem update_of_notMem (h : Links next p l) (ha : a ∉ l) :
    Links (Function.update next a q) p l :=
  h.congr fun _ hb => Function.update_of_ne (ne_of_mem_of_not_mem hb ha) ..

/-- **Appending.**  The last node is linked to one without a successor. -/
theorem concat (h : Links next p l) (ht : l.getLast? = some t) (ha : a ∉ l)
    (hn : next a = none) : Links (Function.update next t (some a)) p (l ++ [a]) := by
  induction l generalizing p with
  | nil => nomatch ht
  | cons b l ih =>
    obtain ⟨hb, h⟩ := h
    refine ⟨hb, ?_⟩
    cases l with
    | nil =>
      have hbt : b = t := Option.some.inj ht
      subst hbt
      have hne : a ≠ b := fun he => ha (he ▸ List.mem_cons_self ..)
      rw [Function.update_self]
      refine ⟨rfl, ?_⟩
      rw [Function.update_of_ne hne]
      exact hn
    | cons c l =>
      rw [List.getLast?_cons_cons] at ht
      have hnodup := nodup (p := some b) (l := b :: c :: l) ⟨rfl, h⟩
      have hne : b ≠ t := fun he =>
        (List.nodup_cons.1 hnodup).1 (he ▸ List.mem_of_getLast? ht)
      rw [Function.update_of_ne hne]
      exact ih h ht fun hmem => ha (List.mem_cons_of_mem _ hmem)

end Links

/-- A queue with a pointer to its first and one to its last node holds the nodes of a
list. -/
structure IsQueue (next : α → Option α) (head tail : Option α) (l : List α) : Prop where
  links : Links next head l
  tail_eq : tail = l.getLast?

namespace IsQueue

/-- The queue of no nodes. -/
theorem nil : IsQueue next none none [] := ⟨rfl, rfl⟩

/-- No node is in a queue twice. -/
theorem nodup (h : IsQueue next head tail l) : l.Nodup := h.links.nodup

/-- A queue without a head is empty. -/
theorem head_eq_none (h : IsQueue next head tail l) : head = none ↔ l = [] := h.links.eq_nil_iff

/-- So is one without a tail. -/
theorem tail_eq_none (h : IsQueue next head tail l) : tail = none ↔ l = [] := by
  rw [h.tail_eq, List.getLast?_eq_none_iff]

/-- Both pointers are null or both are set. -/
theorem head_iff_tail (h : IsQueue next head tail l) : head = none ↔ tail = none := by
  rw [h.head_eq_none, h.tail_eq_none]

/-- Nothing follows the tail. -/
theorem next_tail {t : α} (h : IsQueue next head tail l) (ht : tail = some t) : next t = none :=
  h.links.next_getLast (h.tail_eq.symm.trans ht)

/-- A queue is what the links of its own nodes make it. -/
theorem congr (h : IsQueue next head tail l) (he : ∀ a ∈ l, next' a = next a) :
    IsQueue next' head tail l := ⟨h.links.congr he, h.tail_eq⟩

variable [DecidableEq α] {a t : α}

/-- **The frame of a queue.**  A write to a node that is not in it keeps it. -/
theorem update_of_notMem (h : IsQueue next head tail l) (ha : a ∉ l) :
    IsQueue (Function.update next a q) head tail l :=
  ⟨h.links.update_of_notMem ha, h.tail_eq⟩

omit [DecidableEq α] in
/-- A node without a successor is pushed to an empty queue. -/
theorem push_back_nil (h : IsQueue next head none l) (hn : next a = none) :
    IsQueue next (some a) (some a) (l ++ [a]) := by
  obtain rfl := h.tail_eq_none.1 rfl
  exact ⟨⟨rfl, hn⟩, rfl⟩

/-- A node without a successor is pushed to a queue that is not empty. -/
theorem push_back (h : IsQueue next head (some t) l) (ha : a ∉ l) (hn : next a = none) :
    IsQueue (Function.update next t (some a)) head (some a) (l ++ [a]) :=
  ⟨h.links.concat h.tail_eq.symm ha hn, List.getLast?_concat.symm⟩

/-- **Taking the first node.**  The queue goes on with its successor, and the node itself
is unlinked. -/
theorem pop_front (h : IsQueue next (some a) tail l) :
    ∃ m, l = a :: m ∧
      IsQueue (Function.update next a none) (next a) (if next a = none then none else tail) m := by
  cases l with
  | nil => nomatch h.links
  | cons b m =>
    obtain ⟨hb, hm⟩ := h.links
    obtain rfl := Option.some.inj hb
    refine ⟨m, rfl, hm.update_of_notMem (List.nodup_cons.1 h.nodup).1, ?_⟩
    rw [h.tail_eq]
    split_ifs with hn
    · rw [hm.eq_nil_iff.1 hn]
      rfl
    · obtain ⟨c, m, rfl⟩ := List.exists_cons_of_ne_nil (mt hm.eq_nil_iff.2 hn)
      exact List.getLast?_cons_cons

end IsQueue

end CoopSync
