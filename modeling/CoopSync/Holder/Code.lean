/-
# Objects that hold a lock

A holder is an object with two fields, a pointer to the lock that it holds and the mode in
which it holds it.  Its member functions are straight-line code (`Instr`) that reads and
writes the fields, calls the lock, and may return or throw on the way.

A lock is a machine whose users are the holders (`Lockable`): a user outside makes a call
and then takes the steps of the call, in between those of the other users.  What a user
owns is for the machine to say.  Any number of locks and holders make one machine
(`next`), in which the steps are those of the holders.  At most one member function of a
holder runs at a time.
-/

import CoopSync.Interleave

namespace CoopSync
namespace Holder

/-- The calls of a lock, each in a mode. -/
inductive LockCall (μ : Type*)
  | lock (w : μ)
  | tryLock (w : μ)
  | unlock (w : μ)
deriving DecidableEq, Repr

/-- What a user does that is in a call. -/
inductive Phase (μ : Type*)
  | locking (w : μ)
  | trying (w : μ)
  | unlocking
deriving DecidableEq, Repr

/-- A lock with the users `κ`. -/
structure Lockable (κ μ χ α σ ℓ : Type*) where
  next : Next κ α σ ℓ
  start : Config κ σ ℓ
  /-- A user outside makes a call. -/
  call : LockCall μ → α
  /-- A user in a call goes on. -/
  step : χ → α
  /-- What the user does, if it is in a call. -/
  during : ℓ → Option (Phase μ)
  /-- How often the user owns the lock. -/
  owns : ℓ → μ → ℕ

/-- The fields of a holder: the lock it points to, and the mode. -/
@[ext] structure Fields (M μ : Type*) where
  mutex : Option M
  mode : μ
deriving DecidableEq, Repr

/-- How a member function ends. -/
inductive Outcome
  | threw
  | returned (value : Option Bool)
deriving DecidableEq, Repr

/-- The lines of a member function. -/
inductive Instr (M μ : Type*)
  /-- throws if the pointer is not null -/
  | throwIfHeld
  /-- throws if the pointer is null -/
  | throwIfFree
  /-- returns if the pointer is null -/
  | returnIfFree
  /-- returns `true` if the mode is `w` -/
  | returnTrueIf (w : μ)
  | setMutex (m : Option M)
  | setMode (w : μ)
  /-- locks what the pointer points to -/
  | lock (w : μ)
  | unlock (w : μ)
  /-- unlocks in the mode of the field -/
  | unlockHeld
  /-- tries to lock `m`, and returns `false` if this fails -/
  | tryLock (m : M) (w : μ)
  | ret (b : Bool)
deriving DecidableEq, Repr

/-- What a line does, where the fields are what they are. -/
inductive Does (M μ : Type*)
  | goesOn (f : Fields M μ)
  | returns (o : Outcome)
  | calls (m : M) (c : LockCall μ)
  /-- a call through a null pointer -/
  | fails

variable {κ μ χ α σ ℓ M ω : Type*}

/-- A call of the lock that the pointer points to. -/
def Fields.calls (f : Fields M μ) (c : LockCall μ) : Does M μ :=
  f.mutex.elim .fails fun m => .calls m c

def Instr.does [DecidableEq μ] (f : Fields M μ) : Instr M μ → Does M μ
  | .throwIfHeld => if f.mutex.isSome then .returns .threw else .goesOn f
  | .throwIfFree => if f.mutex.isNone then .returns .threw else .goesOn f
  | .returnIfFree => if f.mutex.isNone then .returns (.returned none) else .goesOn f
  | .returnTrueIf w => if f.mode = w then .returns (.returned (some true)) else .goesOn f
  | .setMutex m => .goesOn { f with mutex := m }
  | .setMode w => .goesOn { f with mode := w }
  | .lock w => f.calls (.lock w)
  | .unlock w => f.calls (.unlock w)
  | .unlockHeld => f.calls (.unlock f.mode)
  | .tryLock m w => .calls m (.tryLock w)
  | .ret b => .returns (.returned (some b))

/-- A class of holders with the member functions `ω`. -/
structure Code (ω M μ : Type*) where
  /-- The fields after the member initializers, if the function is a constructor. -/
  init : ω → Option (Fields M μ)
  body : ω → List (Instr M μ)
  destroys : ω → Bool
  /-- The function returns whether it has got the lock. -/
  tries : ω → Bool

/-- A member function that runs. -/
structure Run (ω M μ : Type*) where
  op : ω
  /-- The lines that are left, the first of them perhaps in its call. -/
  code : List (Instr M μ)
  /-- The call of the first line has been made. -/
  inside : Bool
  /-- The fields when the function was called. -/
  entry : Fields M μ
  /-- No step so far has changed a lock. -/
  kept : Prop

/-- A member function that has ended, with the fields before and after it. -/
structure Finished (ω M μ : Type*) where
  op : ω
  entry : Fields M μ
  exit : Fields M μ
  outcome : Outcome
  kept : Prop

/-- A holder, constructed or not, with a record of the functions that have ended, latest
first, which no step reads. -/
structure Local (ω M μ : Type*) where
  fields : Option (Fields M μ)
  run : Option (Run ω M μ)
  finished : List (Finished ω M μ)

/-- The member function `op` is called: a constructor where there is no object, any other
where there is one and no function of it runs. -/
def Local.call (C : Code ω M μ) (op : ω) (l : Local ω M μ) : Option (Local ω M μ) :=
  match l.run, l.fields, C.init op with
  | none, none, some f | none, some f, none =>
    some { l with fields := some f, run := some ⟨op, C.body op, false, f, True⟩ }
  | _, _, _ => none

/-- The member function ends. -/
def Local.finish (C : Code ω M μ) (r : Run ω M μ) (f : Fields M μ) (o : Outcome)
    (l : Local ω M μ) : Local ω M μ where
  fields := if C.destroys r.op then none else some f
  run := none
  finished := ⟨r.op, r.entry, f, o, r.kept⟩ :: l.finished

/-- The call has not obtained the lock that it tried to. -/
def Lockable.refuses (L : Lockable κ μ χ α σ ℓ) (l l' : ℓ) : LockCall μ → Bool
  | .tryLock w => decide (L.owns l' w ≤ L.owns l w)
  | _ => false

variable [DecidableEq κ] [DecidableEq M]

/-- One step in the call `c` of `m`, or the step that makes it. -/
def Run.stepCall (L : Lockable κ μ χ α σ ℓ) (C : Code ω M μ) (k : κ) (x : χ)
    (s : M → Config κ σ ℓ) (l : Local ω M μ) (f : Fields M μ) (m : M) (c : LockCall μ)
    (rest : List (Instr M μ)) (r : Run ω M μ) : Option ((M → Config κ σ ℓ) × Local ω M μ) :=
  ((s m).step L.next k (if r.inside then L.step x else L.call c)).map fun d =>
    let r' := { r with inside := true, kept := r.kept ∧ d.shared = (s m).shared }
    (Function.update s m d,
      if !r.inside || (L.during (d.loc k)).isSome then { l with run := some r' }
      else if L.refuses ((s m).loc k) (d.loc k) c then l.finish C r' f (.returned (some false))
      else { l with run := some { r' with code := rest, inside := false } })

/-- One step of the function that runs. -/
def Run.step [DecidableEq μ] (L : Lockable κ μ χ α σ ℓ) (C : Code ω M μ) (k : κ) (x : χ)
    (s : M → Config κ σ ℓ) (l : Local ω M μ) (f : Fields M μ) (r : Run ω M μ) :
    Option ((M → Config κ σ ℓ) × Local ω M μ) :=
  match r.code with
  | [] => some (s, l.finish C r f (.returned none))
  | i :: rest =>
    match i.does f with
    | .goesOn f' => some (s, { l with fields := some f', run := some { r with code := rest } })
    | .returns o => some (s, l.finish C r f o)
    | .calls m c => r.stepCall L C k x s l f m c rest
    | .fails => none

/-- A holder has a member function called, or the one that runs goes on. -/
inductive Act (ω χ : Type*)
  | call (op : ω)
  | step (x : χ)
deriving DecidableEq, Repr

/-- One step of one holder. -/
def next [DecidableEq μ] (L : Lockable κ μ χ α σ ℓ) (C : Code ω M μ) :
    Next κ (Act ω χ) (M → Config κ σ ℓ) (Local ω M μ)
  | _, .call op, s, l => (l.call C op).map fun l => (s, l)
  | k, .step x, s, l =>
    match l.fields, l.run with
    | some f, some r => r.step L C k x s l f
    | _, _ => none

/-- New locks, and no holder constructed. -/
def start (L : Lockable κ μ χ α σ ℓ) (ω M : Type*) :
    Config κ (M → Config κ σ ℓ) (Local ω M μ) :=
  ⟨fun _ => L.start, fun _ => ⟨none, none, []⟩⟩

end Holder
end CoopSync
