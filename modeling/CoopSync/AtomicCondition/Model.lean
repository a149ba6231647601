/-
# `atomic_condition`, `atomic_ref_condition` and `atomic_flag`

`include/coopsync_tbb/atomic_condition.hpp`, `atomic_ref_condition.hpp`,
`atomic_flag.hpp` and `src/atomic_flag.cpp`: an atomic value, or a reference to one, with
a queue of waiters.  `wait(old)` loads the value and returns if it is not `old`; if it is,
it calls `wait_if`, whose predicate loads and compares again, and starts over.
`notify_all` and `notify_one` resume waiters and do not look at the value.

The first two compare object representations (`std::memcmp`), the third compares Booleans.
What is common to the three is an `Atomic`.  The value is modified through the atomic, by
any function of what it was; a task that has modified it goes on to `notify_all`, possibly
after more modifications.
-/

import CoopSync.WaitQueue.Model

namespace CoopSync
namespace AtomicCondition

open WaitQueue

/-! ### The classes -/

/-- `std::memcmp` of two objects of one size. -/
def memcmp : List UInt8 → List UInt8 → ℤ
  | a :: x, b :: y => if a = b then memcmp x y else (a.toNat : ℤ) - b.toNat
  | _, _ => 0

/-- Objects of one size compare equal exactly when their bytes are. -/
theorem memcmp_eq_zero {x y : List UInt8} (h : x.length = y.length) : memcmp x y = 0 ↔ x = y := by
  induction x generalizing y with
  | nil =>
    obtain rfl := List.eq_nil_of_length_eq_zero h.symm
    simp [memcmp]
  | cons a x ih =>
    cases y with
    | nil => simp at h
    | cons b y =>
      rw [List.length_cons, List.length_cons, Nat.add_right_cancel_iff] at h
      rcases eq_or_ne a b with rfl | hne
      · simp [memcmp, ih h]
      · have : (a.toNat : ℤ) ≠ b.toNat := fun he => hne (UInt8.toNat_inj.1 (by exact_mod_cast he))
        simp [memcmp, hne]
        omega

/-- What a class says about its value: the object representation, the test at the head of
the loop of `wait`, and the test in the predicate of `wait_if`. -/
structure Atomic (α : Type*) where
  bytes : α → List UInt8
  differs : α → α → Bool
  same : α → α → Bool
  differs_iff : ∀ current old, differs current old = true ↔ bytes current ≠ bytes old
  same_iff : ∀ current old, same current old = true ↔ bytes current = bytes old

/-- `atomic_condition<T>`, for a `T` whose objects have `size` bytes, none of them
padding. -/
def atomicCondition {α : Type*} (bytes : α → List UInt8) (size : ℕ)
    (hsize : ∀ v, (bytes v).length = size) : Atomic α where
  bytes := bytes
  differs current old := memcmp (bytes current) (bytes old) ≠ 0
  same current old := memcmp (bytes current) (bytes old) = 0
  differs_iff current old := by
    simp [memcmp_eq_zero ((hsize current).trans (hsize old).symm)]
  same_iff current old := by
    simp [memcmp_eq_zero ((hsize current).trans (hsize old).symm)]

/-- `atomic_ref_condition<T>`: the value is that of the object referred to. -/
def atomicRefCondition {α : Type*} (bytes : α → List UInt8) (size : ℕ)
    (hsize : ∀ v, (bytes v).length = size) : Atomic α :=
  atomicCondition bytes size hsize

/-- `atomic_flag` -/
def atomicFlag : Atomic Bool where
  bytes b := [if b then 1 else 0]
  differs current old := old != current
  same current old := old == current
  differs_iff := by decide
  same_iff := by decide

/-! ### Any number of tasks on one value -/

/-- The value and its queue. -/
structure Shared (τ α : Type*) where
  /-- `m_value` -/
  value : α
  /-- `m_waiters` -/
  waiters : Queue τ

/-- Where a task stands. -/
inductive Pc (τ α : Type*)
  | outside
  /-- outside, after a modification -/
  | modified
  /-- `m_waiters.resume_all()` in `notify_all()`, after a modification or not -/
  | notifyAll (modified : Bool) (r : ResumeAll τ)
  /-- `m_waiters.resume_one()` in `notify_one()` -/
  | notifyOne (r : ResumeOne τ)
  /-- `current = m_value.load(order)` and the test at the head of the loop -/
  | head (old : α)
  /-- `m_waiters.wait_if(...)` -/
  | waitIf (old : α) (w : WaitIf τ)

/-- The scheduler's choice: a task outside makes a call or modifies the value, one inside
steps. -/
inductive Act (α : Type*)
  | modify (f : α → α)
  | notifyAll
  | notifyOne
  | wait (old : α)
  | step

variable {τ α : Type*} [DecidableEq τ]

/-- One step of one task. -/
def next (A : Atomic α) : Next τ (Act α) (Shared τ α) (Pc τ α)
  | _, .modify f, s, .outside | _, .modify f, s, .modified =>
    some ({ s with value := f s.value }, .modified)
  | _, .notifyAll, s, .outside => some (s, .notifyAll false .lock)
  | _, .notifyAll, s, .modified => some (s, .notifyAll true .lock)
  | _, .notifyOne, s, .outside => some (s, .notifyOne .lock)
  | _, .wait old, s, .outside => some (s, .head old)
  | t, .step, s, .notifyAll modified r =>
    (r.step t s.waiters).map fun r =>
      ({ s with waiters := r.1 }, r.2.elim .outside (.notifyAll modified))
  | t, .step, s, .notifyOne r =>
    (r.step t s.waiters).map fun r =>
      ({ s with waiters := r.1 }, r.2.elim .notifyOne fun _ => .outside)
  | _, .step, s, .head old =>
    some (s, if A.differs s.value old then .outside else .waitIf old .fastPath)
  | t, .step, s, .waitIf old w =>
    (w.step t (A.same s.value old) s.waiters).map fun r =>
      ({ s with waiters := r.1 }, r.2.elim (.head old) (.waitIf old))
  | _, _, _, _ => none

/-- The value constructed with `v`, every task outside. -/
def start (τ : Type*) (v : α) : Config τ (Shared τ α) (Pc τ α) :=
  ⟨⟨v, Queue.init τ⟩, fun _ => .outside⟩

end AtomicCondition
end CoopSync
