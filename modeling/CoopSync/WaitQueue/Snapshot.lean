/-
# The resumers at the level of nodes

What the notes say of the machine with suspend points is true of the one with nodes, and
no step of a resumer reads or writes the storage of a task that has been resumed
(`resumes_snapshot`).  No step of a resumer fails an assertion or finds a null suspend
point: the only one that is ever not possible is to take a lock that is held.

The loop of `do_resume_all` runs outside the lock.  It has ended when the task has taken two
steps for every waiter of its critical section and one more, whatever the resumed tasks
have done in between (`left`).
-/

import CoopSync.WaitQueue.Footprint

namespace CoopSync
namespace WaitQueue
namespace Nodes

open IntrusiveList

variable {τ α : Type*}

/-- The task is in one of the resumers. -/
def Pc.resumer : Pc τ α → Bool
  | .resumeOne _ | .resumeAll _ | .resumeN _ => true
  | _ => false

/-- The next step of a resumer takes the lock. -/
def Pc.locks : Pc τ α → Bool
  | .resumeOne .lock | .resumeAll .lock | .resumeN (.lock _) => true
  | _ => false

/-- The task is in the loop of `do_resume_all`. -/
def Pc.inLoop : Pc τ α → Bool
  | .resumeAll (.doResumeAll _) | .resumeN (.doResumeAll _ _) => true
  | _ => false

/-- Whether the next step is the test of the loop. -/
def Pc.tests : Pc τ α → ℕ
  | .resumeAll (.doResumeAll (.popFront _)) | .resumeN (.doResumeAll _ (.popFront _)) => 1
  | _ => 0

/-- A bound on the steps left in the loop. -/
def left (l : Noted τ (Pc τ α)) : ℕ :=
  2 * (l.queued.length - l.resumed.length) + l.pc.tests

/-- The steps of `do_resume_all`, as far as the loop goes. -/
inductive LoopStep (s : Queue τ α) : DoResumeAll α → Option (DoResumeAll α) → Prop
  | ends {l} : LoopStep s (.popFront l) none
  | takes {l l' waiter} : LoopStep s (.popFront l) (some (.resume waiter l'))
  | resumes {l waiter sp} (hsp : (s.heap waiter).value = some sp) :
      LoopStep s (.resume waiter l) (some (.popFront l))

/-- A step of the loop ends it, takes a waiter or resumes it. -/
theorem DoResumeAll.step_loop [DecidableEq α] {s s' : Queue τ α} {d : DoResumeAll α}
    {o : Option (DoResumeAll α)} (hs : d.step s = some (s', o)) : LoopStep s d o := by
  cases d with
  | popFront l =>
    obtain ⟨⟨h, l', o'⟩, -, he⟩ := Option.map_eq_some_iff.1 hs
    obtain ⟨-, rfl⟩ := by simpa using he
    cases o' with
    | none => exact .ends
    | some waiter => exact .takes
  | resume waiter l =>
    obtain ⟨sp, hsp, he⟩ := Option.map_eq_some_iff.1 hs
    obtain ⟨-, rfl⟩ := by simpa using he
    exact .resumes hsp

/-- The steps of the loop, in the calls it is in: it ends, or a test and a resumption take
turns. -/
theorem Pc.step_inLoop [DecidableEq τ] [DecidableEq α] {t : τ} {pred : Bool} {address : α}
    {s s' : Queue τ α} {pc : Pc τ α} {o : Pc τ α ⊕ Value} (hloop : pc.inLoop = true)
    (hs : pc.step t pred address s = some (s', o)) :
    (∃ value, o = .inr value) ∨
      ∃ pc', o = .inl pc' ∧ pc'.inLoop = true ∧ pc.snapshot s.queued = none ∧
        (pc.tests = 1 ∧ pc'.tests = 0 ∧ pc.resumes = none ∨
          pc.tests = 0 ∧ pc'.tests = 1 ∧
            ∃ waiter sp, pc.resumes = some waiter ∧ (s.heap waiter).value = some sp) := by
  cases pc with
  | resumeAll r =>
    cases r with
    | doResumeAll d =>
      obtain ⟨⟨s₁, o₁⟩, hr, he⟩ := Option.map_eq_some_iff.1 hs
      obtain ⟨-, rfl⟩ := by simpa using he
      obtain ⟨⟨s₂, o₂⟩, hd, he⟩ := Option.map_eq_some_iff.1 hr
      obtain ⟨-, rfl⟩ := by simpa using he
      cases DoResumeAll.step_loop hd with
      | ends => exact .inl ⟨_, rfl⟩
      | takes => exact .inr ⟨_, rfl, rfl, rfl, .inl ⟨rfl, rfl, rfl⟩⟩
      | resumes hsp => exact .inr ⟨_, rfl, rfl, rfl, .inr ⟨rfl, rfl, _, _, rfl, hsp⟩⟩
    | _ => exact absurd hloop Bool.false_ne_true
  | resumeN r =>
    cases r with
    | doResumeAll k d =>
      obtain ⟨⟨s₁, o₁⟩, hr, he⟩ := Option.map_eq_some_iff.1 hs
      obtain ⟨-, rfl⟩ := by simpa using he
      obtain ⟨⟨s₂, o₂⟩, hd, he⟩ := Option.map_eq_some_iff.1 hr
      obtain ⟨-, rfl⟩ := by simpa using he
      cases DoResumeAll.step_loop hd with
      | ends => exact .inl ⟨_, rfl⟩
      | takes => exact .inr ⟨_, rfl, rfl, rfl, .inl ⟨rfl, rfl, rfl⟩⟩
      | resumes hsp => exact .inr ⟨_, rfl, rfl, rfl, .inr ⟨rfl, rfl, _, _, rfl, hsp⟩⟩
    | _ => exact absurd hloop Bool.false_ne_true
  | _ => exact absurd hloop Bool.false_ne_true

section Loop

variable [DecidableEq τ] [Fintype τ] [DecidableEq α] {c : Config τ (Queue τ α) (Noted τ (Pc τ α))}
  {d : Config τ (WaitQueue.Queue τ) (Noted τ (WaitQueue.Pc τ))} {t : τ}

omit [DecidableEq τ] [Fintype τ] [DecidableEq α] in
/-- A task about to resume a waiter has resumed fewer than there were. -/
theorem Simulates.resumed_lt (h : Simulates c d) (hok : Noted.Ok d.shared (d.loc t))
    (hloop : (c.loc t).pc.inLoop = true) (htests : (c.loc t).pc.tests = 0) :
    (c.loc t).resumed.length < (c.loc t).queued.length := by
  obtain ⟨-, hqueued, hresumed, -⟩ := h.note t
  rw [hqueued, hresumed]
  have hm := h.linked.place t
  have hp := hok.progress
  generalize (c.loc t).pc = p at hm hloop htests
  generalize (d.loc t).pc = p' at hm hp
  cases hm with
  | allLoop hd =>
    cases hd with
    | popFront => simp [Pc.tests] at htests
    | @resume _ _ sp sps ha hl =>
      obtain ⟨-, hall⟩ := hp
      have hlen := congrArg List.length hall
      simp only [WaitQueue.DoResumeAll.view, List.length_append, List.length_cons] at hlen
      omega
  | nLoop hd =>
    cases hd with
    | popFront => simp [Pc.tests] at htests
    | @resume _ _ sp sps ha hl =>
      obtain ⟨n, -, hall, -⟩ := hp
      have hlen := congrArg List.length hall
      have htake := List.length_take_le n (d.loc t).queued
      simp only [WaitQueue.DoResumeAll.view, List.length_append, List.length_cons] at hlen
      have := List.length_take_le' n (d.loc t).queued
      omega
  | _ => exact absurd hloop Bool.false_ne_true

/-- **Every step of a resumer is possible**, once the lock is free if it takes the lock. -/
theorem Simulates.resumer_isSome (h : Simulates c d)
    (hL : Ledger d.shared fun u => (d.loc u).pc.view) (hresumer : (c.loc t).pc.resumer = true)
    (hfree : (c.loc t).pc.locks = true → c.shared.waitersMutex = none) (pred : Bool) (address : α) :
    (c.step next t (.step pred address)).isSome := by
  have hm := h.linked.place t
  have hacquire : c.shared.waitersMutex = none → (c.shared.acquire t).isSome := fun hnone => by
    simp [Queue.acquire, hnone]
  have hpop : c.shared.popFront.isSome := by
    obtain ⟨xs, hq, -⟩ := h.linked.waiters
    obtain ⟨heap', l', hpop, -⟩ := Holds.popFront hq
    simp [Queue.popFront, hpop]
  have hstep : ((c.loc t).pc.step t pred address c.shared).isSome := by
    generalize hp : (c.loc t).pc = p at hm hresumer hfree ⊢
    generalize hp' : (d.loc t).pc = p' at hm
    cases hm with
    | oneLock => simpa [Pc.step, ResumeOne.step] using hacquire (hfree rfl)
    | onePopFront => simpa [Pc.step, ResumeOne.step] using hpop
    | oneUnlockNone | oneUnlock => rfl
    | oneResume ha => simp [Pc.step, ResumeOne.step, ha.1]
    | allLock => simpa [Pc.step, ResumeAll.step] using hacquire (hfree rfl)
    | allSwap =>
      obtain ⟨hswap, -⟩ := h.linked.swap hL hp
      simp [Pc.step, hswap]
    | allUnlock | nUnlock | nEnter => rfl
    | allLoop hd =>
      obtain ⟨s, o, hs, -⟩ := h.linked.doResumeAll hL .resumeAll hp hp'
      simp [Pc.step, ResumeAll.step, hs]
    | nLock => simpa [Pc.step, ResumeN.step] using hacquire (hfree rfl)
    | @nPopFront n k =>
      by_cases hk : k < n
      · simpa [Pc.step, ResumeN.step, hk] using hpop
      · simp [Pc.step, ResumeN.step, hk]
    | nPushBack hl ha hn =>
      obtain ⟨heap, l', hpush, -⟩ := h.linked.pushLocal hL hp hp' hl ha hn
      simp [Pc.step, ResumeN.step, hpush]
    | @nLoop k _ _ hd =>
      obtain ⟨s, o, hs, -⟩ := h.linked.doResumeAll hL (.resumeN k) hp hp'
      simp [Pc.step, ResumeN.step, hs]
    | _ => exact absurd hresumer Bool.false_ne_true
  simpa [Config.step, next] using hstep

omit [Fintype τ] in
/-- A step of the loop ends it, or leaves less to do. -/
theorem Simulates.loop_step (h : Simulates c d) (hok : Noted.Ok d.shared (d.loc t))
    (hloop : (c.loc t).pc.inLoop = true) {a : Act τ α} {s : Queue τ α} {l : Noted τ (Pc τ α)}
    (hn : next t a c.shared (c.loc t) = some (s, l)) :
    (c.loc t).finished.length < l.finished.length ∨
      l.pc.inLoop = true ∧ l.finished = (c.loc t).finished ∧ left l < left (c.loc t) := by
  have hlt := h.resumed_lt hok hloop
  generalize c.loc t = l₀ at hloop hn hlt ⊢
  obtain ⟨pc, op, queued, resumed, finished⟩ := l₀
  dsimp only at hloop hlt
  cases a with
  | call op =>
    simp only [next] at hn
    split at hn
    · obtain rfl : pc = .idle := ‹_›
      exact absurd hloop Bool.false_ne_true
    · simp at hn
  | reuse address content =>
    simp only [next] at hn
    split at hn
    · obtain rfl : pc = .idle := (‹_ ∧ _›).1
      exact absurd hloop Bool.false_ne_true
    · simp at hn
  | step pred address =>
    obtain ⟨⟨s₁, o⟩, hs₁, he⟩ := Option.map_eq_some_iff.1 hn
    obtain ⟨rfl, rfl⟩ := by simpa using he
    rcases Pc.step_inLoop hloop hs₁ with ⟨value, rfl⟩ | ⟨pc', rfl, hloop', hsnap, hleft⟩
    · exact .inl (Nat.lt_succ_self _)
    · refine .inr ⟨hloop', rfl, ?_⟩
      simp only [left, Noted.goOn, Noted.note, hsnap, Option.getD_none]
      rcases hleft with ⟨htests, htests', hres⟩ | ⟨htests, htests', waiter, sp, hres, hsp⟩
      · simp only [hres, Option.bind_none, Option.toList_none, List.append_nil]
        omega
      · have hlt := hlt htests
        simp only [hres, Option.bind_some, hsp, Option.toList_some, List.length_append,
          List.length_singleton]
        omega

end Loop

section Runs

variable [DecidableEq τ] [Fintype τ] [DecidableEq α]
  {c c' : Config τ (Queue τ α) (Noted τ (Pc τ α))} {heap : Heap α (Option (SuspendPoint τ))} {t : τ}

omit [Fintype τ] in
/-- Calls that have returned stay so. -/
theorem finished_le {a : Act τ α} {s s' : Queue τ α} {l l' : Noted τ (Pc τ α)}
    (hn : next t a s l = some (s', l')) : l.finished.length ≤ l'.finished.length := by
  cases a with
  | call op =>
    simp only [next] at hn
    split at hn
    · obtain ⟨-, rfl⟩ := by simpa using hn
      exact le_rfl
    · simp at hn
  | reuse address content =>
    simp only [next] at hn
    split at hn
    · obtain ⟨-, rfl⟩ := by simpa using hn
      exact le_rfl
    · simp at hn
  | step pred address =>
    obtain ⟨⟨s₁, o⟩, -, he⟩ := Option.map_eq_some_iff.1 hn
    obtain ⟨-, rfl⟩ := by simpa using he
    cases o with
    | inl pc => exact le_rfl
    | inr value => exact Nat.le_succ _

omit [Fintype τ] in
/-- No finished call is forgotten. -/
theorem finished_le_of_exec {l : List (τ × Act τ α)} (he : c.exec next l = some c') :
    (c.loc t).finished.length ≤ (c'.loc t).finished.length := by
  induction l generalizing c with
  | nil =>
    obtain rfl := Option.some.inj he
    exact le_rfl
  | cons ua rest ih =>
    obtain ⟨u, a⟩ := ua
    simp only [Config.exec] at he
    split at he
    · rename_i c₁ hc₁
      refine le_trans ?_ (ih he)
      obtain ⟨s, l', hn, rfl⟩ := Config.step_eq_some.1 hc₁
      change _ ≤ (Function.update c.loc u l' t).finished.length
      rcases eq_or_ne t u with rfl | hne
      · rw [Function.update_self]
        exact finished_le hn
      · rw [Function.update_of_ne hne]
    · simp at he

/-- **The loop ends after so many steps of its own**, by induction on the run. -/
theorem finished_of_steps {l : List (τ × Act τ α)} (h : Reachable next (start heap) c)
    (hloop : (c.loc t).pc.inLoop = true) (he : c.exec next l = some c')
    (hl : left (c.loc t) ≤ l.countP fun r => r.1 = t) :
    (c.loc t).finished.length < (c'.loc t).finished.length := by
  obtain ⟨d, hd, hsim⟩ := exists_simulates h
  have hok := noted_ok hd t
  induction l generalizing c d with
  | nil =>
    -- something is left to do in the loop
    have hlt := hsim.resumed_lt hok hloop
    have htests : (c.loc t).pc.tests ≠ 0 := fun h0 => by
      have := hlt h0
      simp only [left, List.countP_nil] at hl
      omega
    simp only [left, List.countP_nil] at hl
    omega
  | cons ua rest ih =>
    obtain ⟨u, a⟩ := ua
    simp only [Config.exec] at he
    split at he
    · rename_i c₁ hc₁
      have hr₁ := h.step trivial hc₁
      obtain ⟨d₁, hd₁, hsim₁⟩ := exists_simulates hr₁
      have hok₁ := noted_ok hd₁ t
      obtain ⟨s, l', hn, rfl⟩ := Config.step_eq_some.1 hc₁
      rcases eq_or_ne t u with rfl | hne
      · have hloc : (Function.update c.loc t l') t = l' := Function.update_self ..
        rcases hsim.loop_step hok hloop hn with hfin | ⟨hloop', hfin, hleft⟩
        · have hmono := finished_le_of_exec (t := t) he
          dsimp only at hmono
          rw [hloc] at hmono
          omega
        · have := ih hr₁ (by dsimp only; rw [hloc]; exact hloop') he
            (by
              dsimp only
              rw [hloc]
              rw [List.countP_cons_of_pos (by simp)] at hl
              omega) d₁ hd₁ hsim₁ hok₁
          dsimp only at this
          rwa [hloc, hfin] at this
      · have hloc : (Function.update c.loc u l') t = c.loc t := Function.update_of_ne hne ..
        have := ih hr₁ (by dsimp only; rw [hloc]; exact hloop) he
          (by
            dsimp only
            rw [hloc]
            rwa [List.countP_cons_of_neg (by simpa using hne.symm)] at hl) d₁ hd₁ hsim₁ hok₁
        dsimp only at this
        rwa [hloc] at this
    · simp at he

omit [DecidableEq τ] [Fintype τ] [DecidableEq α] in
/-- The nodes of the list have the queued suspensions as their values. -/
theorem Linked.content {s : Queue τ α} {pcs : τ → Pc τ α} {q : WaitQueue.Queue τ}
    {pcs' : τ → WaitQueue.Pc τ} (h : Linked s pcs q pcs') :
    ∃ xs, Links s.heap.next s.waiters.head xs ∧
      xs.map (fun a => (s.heap a).value) = s.queued.map some := by
  obtain ⟨xs, hq, hat⟩ := h.waiters
  refine ⟨xs, hq.links, ?_⟩
  rw [h.queued]
  clear hq
  generalize q.waiters = sps at hat
  induction hat with
  | nil => rfl
  | cons hfirst hrest ih => rw [List.map_cons, List.map_cons, hfirst.1, ih]

/-- **The resumers take a first-in first-out snapshot and keep off resumed nodes.**  In every
run: the calls that have returned are first-in first-out; the list is what has been pushed
and not taken, in the order of the pushes; no step of a resumer fails, but for a lock that
is held, and none reads or writes the storage of a task that has been resumed; and the loop
of `do_resume_all` has ended after so many steps of its own. -/
theorem resumes_snapshot (h : Reachable next (start heap) c) (t : τ) :
    (∀ f ∈ (c.loc t).finished, f.Fifo) ∧
    (∃ xs, Links c.shared.heap.next c.shared.waiters.head xs ∧
      xs.map (fun a => (c.shared.heap a).value) = c.shared.queued.map some) ∧
    ((c.loc t).pc.resumer = true →
      (((c.loc t).pc.locks = true → c.shared.waitersMutex = none) →
        ∀ pred address, (c.step next t (.step pred address)).isSome) ∧
      ∀ a, Resumed c a → (c.loc t).pc.Spares c.shared t a) ∧
    ((c.loc t).pc.inLoop = true → ∀ l c', c.exec next l = some c' →
      2 * (c.loc t).queued.length + 1 ≤ l.countP (fun r => r.1 = t) →
        (c.loc t).finished.length < (c'.loc t).finished.length) := by
  obtain ⟨d, hd, hsim⟩ := exists_simulates h
  have hL := ledger_of_noted hd
  refine ⟨fun f hf => ?_, hsim.linked.content, fun hresumer => ⟨fun hfree pred address =>
    hsim.resumer_isSome hL hresumer hfree pred address, fun a ha => hsim.spares hL ?_ ha⟩,
    fun hloop l c' he hl => finished_of_steps h hloop he ?_⟩
  · obtain ⟨-, -, -, hfinished⟩ := hsim.note t
    exact (noted_ok hd t).fifo f (hfinished ▸ hf)
  · intro hpc
    rw [hpc] at hresumer
    nomatch hresumer
  · have htests : (c.loc t).pc.tests ≤ 1 := by
      unfold Pc.tests
      split <;> omega
    unfold left
    omega

/-- Storage with a next pointer left in it. -/
def dirty : Heap (Fin 2) (Option (SuspendPoint (Fin 3))) := fun _ => ⟨none, some 1⟩

/-- Tasks `0` and `1` wait, and task `2` resumes the first of them. -/
def resumesFirst : List (Fin 3 × Act (Fin 3) (Fin 2)) :=
  turns [(0, 1, .call .waitIf), (0, 8, .step true 0), (1, 1, .call .waitIf), (1, 8, .step true 1),
    (2, 1, .call (.resumeN 2)), (2, 10, .step true 0)]

/-- Task `0` waits again with a node at the same address, before task `2` goes on. -/
def waitsAgain : List (Fin 3 × Act (Fin 3) (Fin 2)) :=
  turns [(0, 1, .step true 0), (0, 1, .call .waitIf), (0, 8, .step true 0), (2, 3, .step true 0),
    (2, 1, .call .resumeOne), (2, 1, .step true 0)]

/-- A task that waits again with its node at the same address is left alone. -/
theorem resumes_snapshot_again : ∃ c c', Reachable next (start dirty) c ∧
    c.exec next waitsAgain = some c' ∧ (c.loc 2).pc.Spares c.shared 2 0 ∧
    (c'.loc 0).pc = .waitIf (.queued 0 ⟨0, 1⟩) ∧
    (c'.loc 2).finished = [⟨.resumeN 2, [⟨0, 0⟩, ⟨1, 0⟩], [⟨0, 0⟩, ⟨1, 0⟩], .count 2⟩] ∧
    (c.loc 2).finished.length < (c'.loc 2).finished.length := by
  refine ⟨_, _, reachable_of_exec (l := resumesFirst) rfl, rfl, ?_, rfl, rfl, ?_⟩
  · have hreach : Reachable next (start dirty) _ :=
      reachable_of_exec (l := resumesFirst) rfl
    exact ((resumes_snapshot hreach 2).2.2.1 rfl).2 0 (.inr ⟨0, ⟨0, 0⟩, rfl, by decide⟩)
  · have hreach : Reachable next (start dirty) _ :=
      reachable_of_exec (l := resumesFirst) rfl
    exact (resumes_snapshot hreach 2).2.2.2 rfl waitsAgain _ rfl (by decide)

end Runs

end Nodes
end WaitQueue
end CoopSync
