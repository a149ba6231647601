/-
# The resumers take a first-in first-out snapshot

The machine of `WaitQueue.Model` with a note of what each call does (`Noted`): which
suspensions were in the list when the call entered its critical section, which it has
resumed, and what it returned.  No step reads the note.  `resume_one` resumes the first of
the suspensions that were there, `resume_n(n)` the first `n`, and `resume_all` all of them,
in the order in which they were queued (`Finished.Fifo`).

The note is kept for a task that stands at any kind of place, so that the machine with
nodes can keep the same.
-/

import CoopSync.WaitQueue.Ledger

namespace CoopSync
namespace WaitQueue

/-- What a call returns. -/
inductive Value
  | void
  | bool (b : Bool)
  | count (n : ℕ)
deriving DecidableEq, Repr

/-- A call that has returned: what was queued when it entered its critical section, what
it resumed, in order, and what it returned. -/
structure Finished (τ : Type*) where
  op : Op
  queued : List (SuspendPoint τ)
  resumed : List (SuspendPoint τ)
  value : Value
deriving DecidableEq, Repr

/-- A first-in first-out call. -/
def Finished.Fifo {τ : Type*} (f : Finished τ) : Prop :=
  match f.op with
  | .resumeOne => f.resumed = f.queued.take 1 ∧ f.value = .bool (!f.queued.isEmpty)
  | .resumeAll => f.resumed = f.queued
  | .resumeN n => f.resumed = f.queued.take n ∧ f.value = .count (min n f.queued.length)
  | .waitIf | .empty => True

/-- Where a task stands, its present call and those that have returned, latest first. -/
structure Noted (τ P : Type*) where
  pc : P
  op : Op
  queued : List (SuspendPoint τ)
  resumed : List (SuspendPoint τ)
  finished : List (Finished τ)
deriving DecidableEq, Repr

namespace Noted

variable {τ P : Type*}

/-- The task makes a call. -/
def call (l : Noted τ P) (op : Op) (pc : P) : Noted τ P :=
  { l with pc := pc, op := op, queued := [], resumed := [] }

/-- A step that finds `snapshot` queued if it enters a critical section, and resumes `sp`. -/
def note (l : Noted τ P) (snapshot : Option (List (SuspendPoint τ)))
    (sp : Option (SuspendPoint τ)) : Noted τ P :=
  { l with queued := snapshot.getD l.queued, resumed := l.resumed ++ sp.toList }

/-- The call goes on, or returns. -/
def goOn (idle : P) (l : Noted τ P) : P ⊕ Value → Noted τ P
  | .inl pc => { l with pc := pc }
  | .inr value =>
    { l with pc := idle, finished := ⟨l.op, l.queued, l.resumed, value⟩ :: l.finished }

end Noted

variable {τ : Type*}

/-- What the next step finds queued if it enters the critical section of a resumer. -/
def Pc.snapshot (queued : List (SuspendPoint τ)) : Pc τ → Option (List (SuspendPoint τ))
  | .resumeOne .lock | .resumeAll .lock | .resumeN (.lock _) => some queued
  | _ => none

/-- The waiter that the next step of a resumer resumes. -/
def Pc.resumes : Pc τ → Option (SuspendPoint τ)
  | .resumeOne (.resume waiter) | .resumeAll (.doResumeAll (.resume waiter _))
  | .resumeN (.doResumeAll _ (.resume waiter _)) => some waiter
  | _ => none

variable [DecidableEq τ]

/-- One step of a task inside the code, with the value if the call returns. -/
def Pc.step (t : τ) (pred : Bool) (q : Queue τ) : Pc τ → Option (Queue τ × (Pc τ ⊕ Value))
  | .idle => none
  | .waitIf w => (w.step t pred q).map fun r => (r.1, r.2.elim (.inr .void) (.inl ∘ .waitIf))
  | .resumeOne w => (w.step t q).map fun r => (r.1, r.2.map .resumeOne .bool)
  | .resumeAll w => (w.step t q).map fun r => (r.1, r.2.elim (.inr .void) (.inl ∘ .resumeAll))
  | .resumeN w => (w.step t q).map fun r => (r.1, r.2.map .resumeN .count)
  | .empty e => (e.step t q).map fun r => (r.1, r.2.map .empty .bool)

/-- One step of one task, noted. -/
def nextNoted : Next τ Act (Queue τ) (Noted τ (Pc τ))
  | _, .call op, q, l => if l.pc = .idle then some (q, l.call op op.enter) else none
  | t, .step pred, q, l =>
    (l.pc.step t pred q).map fun r =>
      (r.1, (l.note (l.pc.snapshot q.waiters) l.pc.resumes).goOn .idle r.2)

/-- Every task outside the code of a new queue, with no calls made. -/
def startNoted (τ : Type*) : Config τ (Queue τ) (Noted τ (Pc τ)) :=
  ⟨Queue.init τ, fun _ => ⟨.idle, .empty, [], [], []⟩⟩

/-- **Without the note a noted step is a step of the queue.** -/
theorem next_of_noted {t : τ} {a : Act} {q q' : Queue τ} {l l' : Noted τ (Pc τ)}
    (h : nextNoted t a q l = some (q', l')) : next t a q l.pc = some (q', l'.pc) := by
  obtain ⟨pc, op, queued, resumed, finished⟩ := l
  cases a with
  | call op =>
    simp only [nextNoted] at h
    split at h
    · obtain ⟨rfl, rfl⟩ := by simpa using h
      obtain rfl : pc = .idle := ‹_›
      rfl
    · nomatch h
  | step pred =>
    obtain ⟨⟨q₁, o⟩, hs, he⟩ := Option.map_eq_some_iff.1 h
    obtain ⟨rfl, rfl⟩ := by simpa using he
    cases pc with
    | idle => nomatch hs
    | waitIf w | resumeAll w =>
      obtain ⟨⟨q₁, o⟩, hw, he⟩ := Option.map_eq_some_iff.1 hs
      obtain ⟨rfl, rfl⟩ := by simpa using he
      cases o <;> simp [next, hw, Noted.goOn, Noted.note]
    | resumeOne w | resumeN w | empty w =>
      obtain ⟨⟨q₁, o⟩, hw, he⟩ := Option.map_eq_some_iff.1 hs
      obtain ⟨rfl, rfl⟩ := by simpa using he
      cases o <;> simp [next, hw, Noted.goOn, Noted.note]

/-- How far a call has come that found `queued` and has resumed `resumed`. -/
def Progress (q : Queue τ) (op : Op) (queued resumed : List (SuspendPoint τ)) : Pc τ → Prop
  | .idle => True
  | .waitIf _ => op = .waitIf
  | .empty _ => op = .empty
  | .resumeOne .lock => op = .resumeOne ∧ resumed = []
  | .resumeOne .popFront => op = .resumeOne ∧ resumed = [] ∧ queued = q.waiters
  | .resumeOne (.unlock waiter) => op = .resumeOne ∧ resumed = [] ∧ queued.head? = waiter
  | .resumeOne (.resume waiter) => op = .resumeOne ∧ resumed = [] ∧ queued.head? = some waiter
  | .resumeAll .lock => op = .resumeAll ∧ resumed = []
  | .resumeAll .swap => op = .resumeAll ∧ resumed = [] ∧ queued = q.waiters
  | .resumeAll (.unlock waiters) => op = .resumeAll ∧ resumed = [] ∧ queued = waiters
  | .resumeAll (.doResumeAll d) => op = .resumeAll ∧ resumed ++ d.view.hands = queued
  | .resumeN (.enter n) => op = .resumeN n ∧ resumed = [] ∧ queued = []
  | .resumeN (.lock n) => op = .resumeN n ∧ resumed = []
  | .resumeN (.loop n k waiters) =>
    op = .resumeN n ∧ resumed = [] ∧ queued = waiters ++ q.waiters ∧ k = waiters.length ∧ k ≤ n
  | .resumeN (.unlock k waiters) =>
    ∃ n, op = .resumeN n ∧ resumed = [] ∧ queued.take n = waiters ∧ k = min n queued.length
  | .resumeN (.doResumeAll k d) =>
    ∃ n, op = .resumeN n ∧ resumed ++ d.view.hands = queued.take n ∧ k = min n queued.length

section Progress

variable {t : τ} {q q' : Queue τ} {l : Noted τ (Pc τ)}

/-- The list is touched in the critical section only. -/
theorem Effect.waiters_of_not_critical {v v' : View τ} (e : Effect t q v q' v')
    (hv : v.critical = false) : q'.waiters = q.waiters := by
  cases e with
  | push | take => nomatch hv
  | _ => rfl

omit [DecidableEq τ] in
/-- Steps of others do not take back what a call has done. -/
theorem Progress.other {op : Op} {queued resumed : List (SuspendPoint τ)} {pc : Pc τ}
    (h : Progress q op queued resumed pc)
    (hq : pc.view.critical = true → q'.waiters = q.waiters) :
    Progress q' op queued resumed pc := by
  cases pc with
  | resumeOne r =>
    cases r with
    | popFront =>
      rw [Progress, hq rfl]
      exact h
    | _ => exact h
  | resumeAll r =>
    cases r with
    | swap =>
      rw [Progress, hq rfl]
      exact h
    | _ => exact h
  | resumeN r =>
    cases r with
    | loop =>
      rw [Progress, hq rfl]
      exact h
    | _ => exact h
  | _ => exact h

/-- What the note says of the present call, and of those that have returned. -/
structure Noted.Ok (q : Queue τ) (l : Noted τ (Pc τ)) : Prop where
  progress : Progress q l.op l.queued l.resumed l.pc
  fifo : ∀ f ∈ l.finished, f.Fifo

omit [DecidableEq τ] in
/-- A call returns with a note that is first-in first-out. -/
theorem Noted.Ok.returns (hfifo : ∀ f ∈ l.finished, f.Fifo) (value : Value)
    (h : Finished.Fifo ⟨l.op, l.queued, l.resumed, value⟩) :
    Noted.Ok q (l.goOn .idle (.inr value)) := by
  refine ⟨trivial, fun f hf => ?_⟩
  rcases List.mem_cons.1 hf with rfl | hf
  · exact h
  · exact hfifo f hf

omit [DecidableEq τ] in
/-- A step of `resume_one`. -/
theorem Noted.Ok.resumeOne (h : Noted.Ok q l) {r : ResumeOne τ} {o : ResumeOne τ ⊕ Bool}
    (hpc : l.pc = .resumeOne r) (hs : r.step t q = some (q', o)) :
    Noted.Ok q' ((l.note (l.pc.snapshot q.waiters) l.pc.resumes).goOn .idle
      (o.map .resumeOne .bool)) := by
  obtain ⟨hprogress, hfifo⟩ := h
  obtain ⟨pc, op, queued, resumed, finished⟩ := l
  obtain rfl : pc = .resumeOne r := hpc
  dsimp only at hprogress hfifo
  cases r with
  | lock =>
    obtain ⟨rfl, rfl⟩ := hprogress
    obtain ⟨q₁, hq, he⟩ := Option.map_eq_some_iff.1 hs
    obtain ⟨rfl, rfl⟩ := by simpa using he
    exact ⟨⟨rfl, rfl, (Queue.acquire_waiters hq).symm⟩, hfifo⟩
  | popFront =>
    obtain ⟨rfl, rfl, rfl⟩ := hprogress
    obtain ⟨rfl, rfl⟩ := by simpa [ResumeOne.step] using hs
    exact ⟨⟨rfl, rfl, rfl⟩, hfifo⟩
  | unlock waiter =>
    obtain ⟨rfl, rfl, rfl⟩ := hprogress
    cases queued with
    | nil =>
      obtain ⟨rfl, rfl⟩ := by simpa [ResumeOne.step] using hs
      exact .returns hfifo (.bool false) ⟨rfl, rfl⟩
    | cons sp rest =>
      obtain ⟨rfl, rfl⟩ := by simpa [ResumeOne.step] using hs
      exact ⟨⟨rfl, rfl, rfl⟩, hfifo⟩
  | resume waiter =>
    obtain ⟨rfl, rfl, hw⟩ := hprogress
    obtain ⟨rest, rfl⟩ := List.head?_eq_some_iff.1 hw
    obtain ⟨rfl, rfl⟩ := by simpa [ResumeOne.step] using hs
    exact .returns hfifo (.bool true) ⟨rfl, rfl⟩

omit [DecidableEq τ] in
/-- A step of `resume_all`. -/
theorem Noted.Ok.resumeAll (h : Noted.Ok q l) {r : ResumeAll τ} {o : Option (ResumeAll τ)}
    (hpc : l.pc = .resumeAll r) (hs : r.step t q = some (q', o)) :
    Noted.Ok q' ((l.note (l.pc.snapshot q.waiters) l.pc.resumes).goOn .idle
      (o.elim (.inr .void) (.inl ∘ .resumeAll))) := by
  obtain ⟨hprogress, hfifo⟩ := h
  obtain ⟨pc, op, queued, resumed, finished⟩ := l
  obtain rfl : pc = .resumeAll r := hpc
  dsimp only at hprogress hfifo
  cases r with
  | lock =>
    obtain ⟨rfl, rfl⟩ := hprogress
    obtain ⟨q₁, hq, he⟩ := Option.map_eq_some_iff.1 hs
    obtain ⟨rfl, rfl⟩ := by simpa using he
    exact ⟨⟨rfl, rfl, (Queue.acquire_waiters hq).symm⟩, hfifo⟩
  | swap =>
    obtain ⟨rfl, rfl, rfl⟩ := hprogress
    obtain ⟨rfl, rfl⟩ := by simpa [ResumeAll.step] using hs
    exact ⟨⟨rfl, rfl, rfl⟩, hfifo⟩
  | unlock waiters =>
    obtain ⟨rfl, rfl, rfl⟩ := hprogress
    obtain ⟨rfl, rfl⟩ := by simpa [ResumeAll.step] using hs
    exact ⟨⟨rfl, rfl⟩, hfifo⟩
  | doResumeAll d =>
    obtain ⟨rfl, hqueued⟩ := hprogress
    obtain ⟨rfl, rfl⟩ := by simpa [ResumeAll.step] using hs
    cases d with
    | resume waiter rest =>
      have hrest : resumed ++ [waiter] ++ rest = queued := (List.append_assoc ..).trans hqueued
      exact ⟨⟨rfl, hrest⟩, hfifo⟩
    | popFront waiters =>
      have hsame : resumed ++ [] = resumed := List.append_nil _
      cases waiters with
      | nil =>
        have hall : resumed ++ [] = queued := hqueued
        exact .returns hfifo .void hall
      | cons sp rest =>
        have hrest : resumed ++ [] ++ sp :: rest = queued := by rw [hsame]; exact hqueued
        exact ⟨⟨rfl, hrest⟩, hfifo⟩

omit [DecidableEq τ] in
/-- A step of `resume_n`. -/
theorem Noted.Ok.resumeN (h : Noted.Ok q l) {r : ResumeN τ} {o : ResumeN τ ⊕ ℕ}
    (hpc : l.pc = .resumeN r) (hs : r.step t q = some (q', o)) :
    Noted.Ok q' ((l.note (l.pc.snapshot q.waiters) l.pc.resumes).goOn .idle
      (o.map .resumeN .count)) := by
  obtain ⟨hprogress, hfifo⟩ := h
  obtain ⟨pc, op, queued, resumed, finished⟩ := l
  obtain rfl : pc = .resumeN r := hpc
  dsimp only at hprogress hfifo
  cases r with
  | enter n =>
    obtain ⟨rfl, rfl, rfl⟩ := hprogress
    obtain ⟨rfl, rfl⟩ := by simpa [ResumeN.step] using hs
    split_ifs with hn
    · subst hn
      exact .returns hfifo (.count 0) ⟨rfl, rfl⟩
    · exact ⟨⟨rfl, rfl⟩, hfifo⟩
  | lock n =>
    obtain ⟨rfl, rfl⟩ := hprogress
    obtain ⟨q₁, hq, he⟩ := Option.map_eq_some_iff.1 hs
    obtain ⟨rfl, rfl⟩ := by simpa using he
    exact ⟨⟨rfl, rfl, (Queue.acquire_waiters hq).symm, rfl, Nat.zero_le n⟩, hfifo⟩
  | loop n k waiters =>
    obtain ⟨rfl, rfl, rfl, rfl, hk⟩ := hprogress
    simp only [ResumeN.step] at hs
    split at hs
    · split at hs
      · rename_i hw
        obtain ⟨rfl, rfl⟩ := by simpa using hs
        have htake : (waiters ++ q.waiters).take n = waiters := by
          rw [hw, List.append_nil, List.take_of_length_le hk]
        have hlength : waiters.length = min n (waiters ++ q.waiters).length := by
          rw [← List.length_take, htake]
        exact ⟨⟨n, rfl, rfl, htake, hlength⟩, hfifo⟩
      · rename_i sp rest hw
        obtain ⟨rfl, rfl⟩ := by simpa using hs
        have hqueued : waiters ++ q.waiters = waiters ++ [sp] ++ rest := by
          rw [hw, List.append_assoc, List.singleton_append]
        exact ⟨⟨rfl, rfl, hqueued, by rw [List.length_append]; rfl, by omega⟩, hfifo⟩
    · obtain ⟨rfl, rfl⟩ := by simpa using hs
      have hn : n = waiters.length := by omega
      have htake : (waiters ++ q.waiters).take n = waiters := by rw [hn, List.take_left]
      have hlength : waiters.length = min n (waiters ++ q.waiters).length := by
        rw [← List.length_take, htake]
      exact ⟨⟨n, rfl, rfl, htake, hlength⟩, hfifo⟩
  | unlock k waiters =>
    obtain ⟨n, rfl, rfl, rfl, rfl⟩ := hprogress
    obtain ⟨rfl, rfl⟩ := by simpa [ResumeN.step] using hs
    exact ⟨⟨n, rfl, rfl, rfl⟩, hfifo⟩
  | doResumeAll k d =>
    obtain ⟨n, rfl, hqueued, rfl⟩ := hprogress
    obtain ⟨rfl, rfl⟩ := by simpa [ResumeN.step] using hs
    cases d with
    | resume waiter rest =>
      have hrest : resumed ++ [waiter] ++ rest = queued.take n :=
        (List.append_assoc ..).trans hqueued
      exact ⟨⟨n, rfl, hrest, rfl⟩, hfifo⟩
    | popFront waiters =>
      have hsame : resumed ++ [] = resumed := List.append_nil _
      cases waiters with
      | nil =>
        have hall : resumed ++ [] = queued.take n := hqueued
        exact .returns hfifo (.count (min n queued.length)) ⟨hall, rfl⟩
      | cons sp rest =>
        have hrest : resumed ++ [] ++ sp :: rest = queued.take n := by rw [hsame]; exact hqueued
        exact ⟨⟨n, rfl, hrest, rfl⟩, hfifo⟩

/-- One step of the task itself. -/
theorem Noted.Ok.step (h : Noted.Ok q l) {a : Act} {l' : Noted τ (Pc τ)}
    (hs : nextNoted t a q l = some (q', l')) : Noted.Ok q' l' := by
  cases a with
  | call op =>
    simp only [nextNoted] at hs
    split at hs
    · obtain ⟨rfl, rfl⟩ := by simpa using hs
      refine ⟨?_, h.fifo⟩
      cases op with
      | waitIf | empty => rfl
      | resumeOne | resumeAll => exact ⟨rfl, rfl⟩
      | resumeN n => exact ⟨rfl, rfl, rfl⟩
    · nomatch hs
  | step pred =>
    obtain ⟨⟨q₁, o⟩, hs₁, he⟩ := Option.map_eq_some_iff.1 hs
    obtain ⟨rfl, rfl⟩ := by simpa using he
    cases hpc : l.pc with
    | idle =>
      rw [hpc] at hs₁
      nomatch hs₁
    | waitIf w =>
      have hop : l.op = .waitIf := by simpa [Progress, hpc] using h.progress
      rw [hpc] at hs₁
      obtain ⟨⟨q₂, o₂⟩, -, he⟩ := Option.map_eq_some_iff.1 hs₁
      obtain ⟨rfl, rfl⟩ := by simpa using he
      cases o₂ with
      | none =>
        exact .returns (l := l.note none none) h.fifo .void
          (by simp [Finished.Fifo, Noted.note, hop])
      | some w => exact ⟨hop, h.fifo⟩
    | empty e =>
      have hop : l.op = .empty := by simpa [Progress, hpc] using h.progress
      rw [hpc] at hs₁
      obtain ⟨⟨q₂, o₂⟩, -, he⟩ := Option.map_eq_some_iff.1 hs₁
      obtain ⟨rfl, rfl⟩ := by simpa using he
      cases o₂ with
      | inr b =>
        exact .returns (l := l.note none none) h.fifo (.bool b)
          (by simp [Finished.Fifo, Noted.note, hop])
      | inl e => exact ⟨hop, h.fifo⟩
    | resumeOne r =>
      rw [hpc] at hs₁
      obtain ⟨⟨q₂, o₂⟩, hr, he⟩ := Option.map_eq_some_iff.1 hs₁
      obtain ⟨rfl, rfl⟩ := by simpa using he
      exact hpc ▸ h.resumeOne hpc hr
    | resumeAll r =>
      rw [hpc] at hs₁
      obtain ⟨⟨q₂, o₂⟩, hr, he⟩ := Option.map_eq_some_iff.1 hs₁
      obtain ⟨rfl, rfl⟩ := by simpa using he
      exact hpc ▸ h.resumeAll hpc hr
    | resumeN r =>
      rw [hpc] at hs₁
      obtain ⟨⟨q₂, o₂⟩, hr, he⟩ := Option.map_eq_some_iff.1 hs₁
      obtain ⟨rfl, rfl⟩ := by simpa using he
      exact hpc ▸ h.resumeN hpc hr

end Progress

section Runs

variable [Fintype τ] {ok : Config τ (Queue τ) (Noted τ (Pc τ)) → τ → Act → Prop}
  {c : Config τ (Queue τ) (Noted τ (Pc τ))}

/-- The notes leave the ledger as it is. -/
theorem ledger_of_noted (h : Reach nextNoted ok (startNoted τ) c) :
    Ledger c.shared fun t => (c.loc t).pc.view :=
  Ledger.of_reach id (fun l : Noted τ (Pc τ) => l.pc.view) rfl (fun _ => rfl)
    (fun _ _ _ _ _ _ hn => effect_of_next (next_of_noted hn)) h

/-- **The resumers are first-in first-out.** -/
theorem noted_ok (h : Reach nextNoted ok (startNoted τ) c) (t : τ) :
    Noted.Ok c.shared (c.loc t) := by
  revert t
  refine h.invariant (I := fun c => ∀ t, Noted.Ok c.shared (c.loc t))
    (fun _ => ⟨trivial, nofun⟩) fun c t a s l hr ih _ hn u => ?_
  change Noted.Ok s (Function.update c.loc t l u)
  rcases eq_or_ne u t with rfl | hne
  · rw [Function.update_self]
    exact (ih u).step hn
  · rw [Function.update_of_ne hne]
    refine ⟨(ih u).progress.other fun hu => ?_, (ih u).fifo⟩
    -- `u` is in the critical section, so `t` is not
    have hL := ledger_of_noted hr
    refine (effect_of_next (next_of_noted hn)).waiters_of_not_critical ?_
    by_contra ht
    exact hne (hL.critical_unique hu (by simpa using ht))

end Runs

end WaitQueue
end CoopSync
