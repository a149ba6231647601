/-
# `intrusive_list`

`include/coopsync_tbb/detail/intrusive_list.hpp`: a singly linked list of nodes that
belong to its users, each of which can be in one list at a time.

A node is named by its address, and the heap says what is in it, so that a list is its
pointers to the first and the last node.  An operation whose assertion fails has no
result.
-/

import Mathlib.Logic.Function.Basic

namespace CoopSync

/-- `class intrusive_list` -/
structure IntrusiveList (α : Type*) where
  /-- `m_head` -/
  head : Option α := none
  /-- `m_tail` -/
  tail : Option α := none
deriving DecidableEq, Repr

namespace IntrusiveList

/-- `intrusive_list::node` -/
@[ext] structure Node (α T : Type*) where
  value : T
  next : Option α := none
deriving DecidableEq, Repr

/-- The nodes at their addresses. -/
abbrev Heap (α T : Type*) := α → Node α T

variable {α T κ : Type*}

/-- `assert_invariants` -/
def assertInvariants (h : Heap α T) (l : IntrusiveList α) : Bool :=
  l.head.isNone == l.tail.isNone && l.tail.all fun t => (h t).next.isNone

/-- The move constructor: the new list, and what `other` is left as. -/
def moveConstruct (h : Heap α T) (other : IntrusiveList α) :
    Option (IntrusiveList α × IntrusiveList α) :=
  let l : IntrusiveList α := ⟨other.head, other.tail⟩
  if assertInvariants h l then some (l, ⟨none, none⟩) else none

/-- `empty` -/
def empty (h : Heap α T) (l : IntrusiveList α) : Option Bool :=
  if assertInvariants h l then some l.head.isNone else none

/-- `swap` -/
def swap (l other : IntrusiveList α) : IntrusiveList α × IntrusiveList α :=
  (⟨other.head, other.tail⟩, ⟨l.head, l.tail⟩)

variable [DecidableEq α]

/-- `p->next = q` -/
def Heap.setNext (h : Heap α T) (p : α) (q : Option α) : Heap α T :=
  Function.update h p { h p with next := q }

/-- `push_back` -/
def pushBack (h : Heap α T) (l : IntrusiveList α) (node : α) :
    Option (Heap α T × IntrusiveList α) :=
  if assertInvariants h l && (h node).next.isNone then
    let r : Heap α T × IntrusiveList α :=
      match l.tail with
      | some t => (h.setNext t (some node), { l with tail := some node })
      | none => (h, ⟨some node, some node⟩)
    if assertInvariants r.1 r.2 then some r else none
  else none

/-- `pop_front` -/
def popFront (h : Heap α T) (l : IntrusiveList α) :
    Option (Heap α T × IntrusiveList α × Option α) :=
  if assertInvariants h l then
    match l.head with
    | none => some (h, l, none)
    | some node =>
      let head := (h node).next
      let l' : IntrusiveList α := ⟨head, if head.isNone then none else l.tail⟩
      let h' := h.setNext node none
      if assertInvariants h' l' then some (h', l', some node) else none
  else none

/-! ### Lists that share a heap -/

/-- The nodes, and the lists that have been constructed. -/
structure World (κ α T : Type*) where
  heap : Heap α T
  lists : κ → Option (IntrusiveList α)

/-- Nodes with these values, and no list. -/
def World.init (value : α → T) : World κ α T := ⟨fun a => { value := value a }, fun _ => none⟩

/-- The operations on the list `k`. -/
inductive Op (κ α : Type*)
  | construct (k : κ)
  | moveConstruct (k other : κ)
  | pushBack (k : κ) (node : α)
  | popFront (k : κ)
  | empty (k : κ)
  | swap (k other : κ)
deriving DecidableEq, Repr

/-- What an operation returns. -/
inductive Result (α : Type*)
  | unit
  | node (p : Option α)
  | bool (b : Bool)
deriving DecidableEq, Repr

variable [DecidableEq κ]

/-- One operation.  A list is constructed once, and used after that. -/
def World.step (w : World κ α T) : Op κ α → Option (World κ α T × Result α)
  | .construct k =>
    match w.lists k with
    | none => some ({ w with lists := Function.update w.lists k (some {}) }, .unit)
    | some _ => none
  | .moveConstruct k other =>
    match w.lists k, w.lists other with
    | none, some m => (moveConstruct w.heap m).map fun r =>
        ({ w with
          lists := Function.update (Function.update w.lists k (some r.1)) other (some r.2) }, .unit)
    | _, _ => none
  | .pushBack k node => (w.lists k).bind fun l => (pushBack w.heap l node).map fun r =>
      (⟨r.1, Function.update w.lists k (some r.2)⟩, .unit)
  | .popFront k => (w.lists k).bind fun l => (popFront w.heap l).map fun r =>
      (⟨r.1, Function.update w.lists k (some r.2.1)⟩, .node r.2.2)
  | .empty k => (w.lists k).bind fun l => (empty w.heap l).map fun b => (w, .bool b)
  | .swap k other =>
    match w.lists k, w.lists other with
    | some l, some m =>
      let r := l.swap m
      some ({ w with
        lists := Function.update (Function.update w.lists k (some r.1)) other (some r.2) }, .unit)
    | _, _ => none

/-- Operations one after another, with what they return. -/
def World.run (w : World κ α T) : List (Op κ α) → Option (World κ α T × List (Result α))
  | [] => some (w, [])
  | op :: ops => (w.step op).bind fun r => (r.1.run ops).map fun rs => (rs.1, r.2 :: rs.2)

end IntrusiveList
end CoopSync
