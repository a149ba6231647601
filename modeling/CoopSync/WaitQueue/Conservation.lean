/-
# The wait queue conserves suspensions

The machine of `WaitQueue.Model` with a record of what each task has done
(`Record`): which of its suspensions its callbacks pushed and which they resumed
themselves, which waiters its `resume_one` and `resume_n` calls have resumed, and
what these calls returned.  No step reads the record, and without it the runs are
those of the model (`next_of_recorded`), so the ledger holds of them.

The ledger says where each suspension is; the record says how it got there
(`Record.Ok`), and that the calls which counted waiters counted different ones
(`credits`).
-/

import CoopSync.WaitQueue.Ledger

namespace CoopSync
namespace WaitQueue

/-- What a task has done on the queue. -/
structure Record (τ : Type*) where
  /-- its suspensions that its callbacks pushed -/
  pushed : List (SuspendPoint τ)
  /-- its suspensions that its callbacks resumed -/
  selfResumed : List (SuspendPoint τ)
  /-- the waiters its running `resume_one` or `resume_n` has resumed -/
  running : List (SuspendPoint τ)
  /-- the waiters each returned `resume_one` and `resume_n` resumed, and the value
  returned, with `true` as one -/
  finished : List (List (SuspendPoint τ) × ℕ)

/-- A task with its record. -/
structure Recorded (τ : Type*) where
  record : Record τ
  pc : Pc τ

variable {τ : Type*}

/-- A step of `wait_if` that pushes, or that resumes its own task. -/
def Record.wait (r : Record τ) : WaitIf τ → Record τ
  | .pushBack sp => { r with pushed := sp :: r.pushed }
  | .resume sp => { r with selfResumed := sp :: r.selfResumed }
  | _ => r

/-- A step that resumes `waiter`, if it does. -/
def Record.resume (r : Record τ) (waiter : Option (SuspendPoint τ)) : Record τ :=
  { r with running := r.running ++ waiter.toList }

/-- A call that returns `n`. -/
def Record.finish (r : Record τ) (n : ℕ) : Record τ :=
  { r with running := [], finished := (r.running, n) :: r.finished }

/-- The waiter the next step resumes. -/
def ResumeOne.resumes : ResumeOne τ → Option (SuspendPoint τ)
  | .resume waiter => some waiter
  | _ => none

/-- The waiter the next step resumes. -/
def ResumeN.resumes : ResumeN τ → Option (SuspendPoint τ)
  | .doResumeAll _ (.resume waiter _) => some waiter
  | _ => none

variable [DecidableEq τ]

/-- One step of one task on the queue, recorded. -/
def nextRecorded : Next τ Act (Queue τ) (Recorded τ)
  | _, .call op, q, ⟨rc, .idle⟩ => some (q, ⟨rc, op.enter⟩)
  | t, .step pred, q, ⟨rc, .waitIf w⟩ =>
    (w.step t pred q).map fun r => (r.1, ⟨rc.wait w, r.2.elim .idle .waitIf⟩)
  | t, .step _, q, ⟨rc, .resumeOne r⟩ =>
    (r.step t q).map fun o => (o.1, match o.2 with
      | .inl r' => ⟨rc.resume r.resumes, .resumeOne r'⟩
      | .inr resumed => ⟨(rc.resume r.resumes).finish resumed.toNat, .idle⟩)
  | t, .step _, q, ⟨rc, .resumeAll r⟩ =>
    (r.step t q).map fun r => (r.1, ⟨rc, r.2.elim .idle .resumeAll⟩)
  | t, .step _, q, ⟨rc, .resumeN r⟩ =>
    (r.step t q).map fun o => (o.1, match o.2 with
      | .inl r' => ⟨rc.resume r.resumes, .resumeN r'⟩
      | .inr n => ⟨(rc.resume r.resumes).finish n, .idle⟩)
  | t, .step _, q, ⟨rc, .empty e⟩ =>
    (e.step t q).map fun r => (r.1, ⟨rc, r.2.elim .empty fun _ => .idle⟩)
  | _, _, _, _ => none

/-- Every task outside the code of a new queue, with nothing recorded. -/
def startRecorded (τ : Type*) : Config τ (Queue τ) (Recorded τ) :=
  ⟨Queue.init τ, fun _ => ⟨⟨[], [], [], []⟩, .idle⟩⟩

/-- The steps of `nextRecorded`. -/
inductive RecordedStep (t : τ) : Queue τ → Recorded τ → Queue τ → Recorded τ → Prop
  | call {q r} (op : Op) : RecordedStep t q ⟨r, .idle⟩ q ⟨r, op.enter⟩
  | waitIf {q q' r pred w o} (h : WaitIf.step t pred q w = some (q', o)) :
      RecordedStep t q ⟨r, .waitIf w⟩ q' ⟨r.wait w, o.elim .idle .waitIf⟩
  | resumeOne {q q' r w w'} (h : ResumeOne.step t q w = some (q', .inl w')) :
      RecordedStep t q ⟨r, .resumeOne w⟩ q' ⟨r.resume w.resumes, .resumeOne w'⟩
  | resumedOne {q q' r w resumed} (h : ResumeOne.step t q w = some (q', .inr resumed)) :
      RecordedStep t q ⟨r, .resumeOne w⟩ q' ⟨(r.resume w.resumes).finish resumed.toNat, .idle⟩
  | resumeAll {q q' r w o} (h : ResumeAll.step t q w = some (q', o)) :
      RecordedStep t q ⟨r, .resumeAll w⟩ q' ⟨r, o.elim .idle .resumeAll⟩
  | resumeN {q q' r w w'} (h : ResumeN.step t q w = some (q', .inl w')) :
      RecordedStep t q ⟨r, .resumeN w⟩ q' ⟨r.resume w.resumes, .resumeN w'⟩
  | resumedN {q q' r w n} (h : ResumeN.step t q w = some (q', .inr n)) :
      RecordedStep t q ⟨r, .resumeN w⟩ q' ⟨(r.resume w.resumes).finish n, .idle⟩
  | empty {q q' r w o} (h : Empty.step t q w = some (q', o)) :
      RecordedStep t q ⟨r, .empty w⟩ q' ⟨r, o.elim .empty fun _ => .idle⟩

/-- Every recorded step is one of these. -/
theorem RecordedStep.of_next {t : τ} {a : Act} {q q' : Queue τ} {l l' : Recorded τ}
    (h : nextRecorded t a q l = some (q', l')) : RecordedStep t q l q' l' := by
  obtain ⟨r, pc⟩ := l
  cases a with
  | call op =>
    cases pc with
    | idle =>
      obtain ⟨rfl, rfl⟩ := by simpa [nextRecorded] using h
      exact .call op
    | _ => simp [nextRecorded] at h
  | step pred =>
    cases pc with
    | idle => simp [nextRecorded] at h
    | waitIf w | resumeAll w | empty w =>
      obtain ⟨⟨q₁, o⟩, hw, he⟩ := Option.map_eq_some_iff.1 h
      obtain ⟨rfl, rfl⟩ := by simpa using he
      constructor
      exact hw
    | resumeOne w | resumeN w =>
      obtain ⟨⟨q₁, o⟩, hw, he⟩ := Option.map_eq_some_iff.1 h
      cases o <;>
      · obtain ⟨rfl, rfl⟩ := by simpa using he
        constructor
        exact hw

/-- **Without the record a recorded step is a step of the queue.** -/
theorem next_of_recorded {t : τ} {a : Act} {q q' : Queue τ} {l l' : Recorded τ}
    (h : nextRecorded t a q l = some (q', l')) : ∃ a', next t a' q l.pc = some (q', l'.pc) := by
  cases RecordedStep.of_next h with
  | call op => exact ⟨.call op, rfl⟩
  | @waitIf q' r pred w o hw => exact ⟨.step pred, by simp [next, hw]⟩
  | resumeOne hw | resumedOne hw | resumeAll hw | resumeN hw | resumedN hw | empty hw =>
    exact ⟨.step false, by simp [next, hw]⟩

variable [Fintype τ]

/-- The records leave the ledger as it is. -/
theorem ledger_of_recorded {ok : Config τ (Queue τ) (Recorded τ) → τ → Act → Prop}
    {c : Config τ (Queue τ) (Recorded τ)} (h : Reach nextRecorded ok (startRecorded τ) c) :
    Ledger c.shared fun t => (c.loc t).pc.view := by
  refine Ledger.of_reach id (fun l : Recorded τ => l.pc.view) rfl (fun _ => rfl) ?_ h
  intro t a q l q' l' hn
  obtain ⟨a', ha⟩ := next_of_recorded hn
  exact effect_of_next ha

/-! ### What the record says -/

/-- The waiters a running call has resumed and those in its hands are the ones it
has counted. -/
def Pc.Counts (running : List (SuspendPoint τ)) : Pc τ → Prop
  | .resumeN (.loop _ resumed w) | .resumeN (.unlock resumed w) =>
    running = [] ∧ w.length = resumed
  | .resumeN (.doResumeAll resumed d) => running.length + d.view.hands.length = resumed
  | _ => running = []

omit [DecidableEq τ] [Fintype τ] in
/-- `resume_one` returns true if it has resumed a waiter, and one waiter then. -/
theorem ResumeOne.step_counts {t : τ} {q q' : Queue τ} {r : ResumeOne τ} {o : ResumeOne τ ⊕ Bool}
    (h : r.step t q = some (q', o)) :
    o.elim (fun _ => r.resumes = none) fun resumed => r.resumes.toList.length = resumed.toNat := by
  cases r with
  | lock =>
    obtain ⟨q₁, hq, he⟩ := Option.map_eq_some_iff.1 h
    obtain ⟨rfl, rfl⟩ := by simpa using he
    rfl
  | popFront =>
    obtain ⟨rfl, rfl⟩ := by simpa [ResumeOne.step] using h
    rfl
  | unlock waiter =>
    cases waiter <;>
    · obtain ⟨rfl, rfl⟩ := by simpa [ResumeOne.step] using h
      rfl
  | resume waiter =>
    obtain ⟨rfl, rfl⟩ := by simpa [ResumeOne.step] using h
    rfl

omit [DecidableEq τ] [Fintype τ] in
/-- `resume_n` counts the waiters it takes, and has resumed them when it returns. -/
theorem ResumeN.step_counts {t : τ} {q q' : Queue τ} {r : ResumeN τ} {o : ResumeN τ ⊕ ℕ}
    {running : List (SuspendPoint τ)} (h : r.step t q = some (q', o))
    (hc : (Pc.resumeN r).Counts running) :
    o.elim (fun r' => (Pc.resumeN r').Counts (running ++ r.resumes.toList))
      fun n => (running ++ r.resumes.toList).length = n := by
  cases r with
  | enter n =>
    obtain rfl : running = [] := hc
    obtain ⟨rfl, rfl⟩ := by simpa [ResumeN.step] using h
    split_ifs <;> rfl
  | lock n =>
    obtain rfl : running = [] := hc
    obtain ⟨q₁, hq, he⟩ := Option.map_eq_some_iff.1 h
    obtain ⟨rfl, rfl⟩ := by simpa using he
    exact ⟨rfl, rfl⟩
  | loop n resumed l =>
    obtain ⟨rfl, hl⟩ : running = [] ∧ l.length = resumed := hc
    simp only [ResumeN.step] at h
    split at h
    · split at h <;> obtain ⟨rfl, rfl⟩ := by simpa using h
      · exact ⟨rfl, hl⟩
      · exact ⟨rfl, by simp [hl]⟩
    · obtain ⟨rfl, rfl⟩ := by simpa using h
      exact ⟨rfl, hl⟩
  | unlock resumed l =>
    obtain ⟨rfl, hl⟩ : running = [] ∧ l.length = resumed := hc
    obtain ⟨rfl, rfl⟩ := by simpa [ResumeN.step] using h
    simpa [Pc.Counts, DoResumeAll.view, ResumeN.resumes] using hl
  | doResumeAll resumed d =>
    have hc : running.length + d.view.hands.length = resumed := hc
    obtain ⟨rfl, rfl⟩ := by simpa [ResumeN.step] using h
    cases d with
    | popFront l =>
      cases l <;> simpa [DoResumeAll.step, DoResumeAll.view, ResumeN.resumes, Pc.Counts] using hc
    | resume waiter rest =>
      simp only [DoResumeAll.view, List.length_cons] at hc
      simp [DoResumeAll.step, DoResumeAll.view, ResumeN.resumes, Pc.Counts]
      omega

/-- What holds of the record of task `t`, which has called `tbb::task::suspend`
`calls` times. -/
structure Recorded.Ok (t : τ) (calls : ℕ) (l : Recorded τ) : Prop where
  own : ∀ sp, sp ∈ l.record.pushed ∨ sp ∈ l.record.selfResumed → sp.task = t ∧ sp.call < calls
  /-- A suspension with its callback has been neither pushed nor resumed by it. -/
  fresh : ∀ sp, l.pc.view.stage = .callback sp →
    sp ∉ l.record.pushed ∧ sp ∉ l.record.selfResumed
  apart : ∀ sp ∈ l.record.selfResumed, sp ∉ l.record.pushed
  counts : l.pc.Counts l.record.running
  finished : ∀ e ∈ l.record.finished, e.1.length = e.2

omit [Fintype τ] in
/-- A step of the callback leaves its suspension with it, or is recorded. -/
theorem WaitIf.step_record {t : τ} {pred : Bool} {q q' : Queue τ} {w : WaitIf τ}
    {o : Option (WaitIf τ)} (r : Record τ) (h : w.step t pred q = some (q', o)) :
    r.wait w = r ∨ ∃ sp, w.view.stage = .callback sp ∧
      (r.wait w = { r with pushed := sp :: r.pushed } ∨
        r.wait w = { r with selfResumed := sp :: r.selfResumed }) ∧
      ∀ sp', (o.elim (Pc.idle : Pc τ) .waitIf).view.stage ≠ .callback sp' := by
  cases w with
  | pushBack sp =>
    obtain ⟨rfl, rfl⟩ := by simpa [WaitIf.step] using h
    exact .inr ⟨sp, rfl, .inl rfl, fun _ => by simp [Pc.view, WaitIf.view]⟩
  | resume sp =>
    obtain ⟨rfl, rfl⟩ := by simpa [WaitIf.step] using h
    exact .inr ⟨sp, rfl, .inr rfl, fun _ => by simp [Pc.view, WaitIf.view]⟩
  | _ => exact .inl rfl

namespace Recorded.Ok

variable {t : τ} {q q' : Queue τ}

omit [Fintype τ] in
/-- A step of `wait_if` keeps its task's record. -/
theorem wait {pred : Bool} {r : Record τ} {w : WaitIf τ} {o : Option (WaitIf τ)}
    (hown : ∀ sp, w.view.stage.suspendPoint = some sp → sp.task = t ∧ sp.call + 1 = q.suspends t)
    (h : Recorded.Ok t (q.suspends t) ⟨r, .waitIf w⟩) (hw : w.step t pred q = some (q', o)) :
    Recorded.Ok t (q'.suspends t) ⟨r.wait w, o.elim .idle .waitIf⟩ := by
  have he : Effect t q w.view q' (o.elim (Pc.idle : Pc τ) .waitIf).view := by
    cases o <;> exact w.effect hw
  have hle := he.suspends_le t
  have hrun : r.running = [] := h.counts
  have hcounts : ∀ r' : Record τ, r'.running = r.running →
      (o.elim (Pc.idle : Pc τ) .waitIf).Counts r'.running := by
    intro r' hr'
    cases o <;> exact hr'.trans hrun
  rcases w.step_record r hw with hr | ⟨sp, hsp, hr, hout⟩
  · rw [hr]
    refine ⟨fun sp hsp => ?_, fun sp hsp => ?_, h.apart, hcounts r rfl, h.finished⟩
    · obtain ⟨ht, hc⟩ := h.own sp hsp
      exact ⟨ht, by omega⟩
    · rcases he.callback hsp with hc | rfl
      · exact h.fresh sp hc
      · -- a new suspension has a number that no recorded one has
        have hnew : ∀ sp ∈ r.pushed ++ r.selfResumed, sp ≠ ⟨t, q.suspends t⟩ := by
          rintro _ hsp rfl
          have := (h.own _ (List.mem_append.1 hsp)).2
          simp at this
        exact ⟨fun hm => hnew _ (List.mem_append_left _ hm) rfl,
          fun hm => hnew _ (List.mem_append_right _ hm) rfl⟩
  · obtain ⟨htask, hcall⟩ := hown sp (by rw [hsp]; rfl)
    obtain ⟨hnp, hns⟩ := h.fresh sp hsp
    have hown' : ∀ sp', sp' = sp ∨ (sp' ∈ r.pushed ∨ sp' ∈ r.selfResumed) →
        sp'.task = t ∧ sp'.call < q'.suspends t := by
      rintro sp' (rfl | hsp')
      · exact ⟨htask, by omega⟩
      · obtain ⟨ht, hc⟩ := h.own sp' hsp'
        exact ⟨ht, by omega⟩
    rcases hr with hr | hr <;> rw [hr]
    · refine ⟨fun sp' hsp' => hown' sp' ?_, fun sp' hsp' => absurd hsp' (hout sp'), ?_,
        hcounts _ rfl, h.finished⟩
      · simpa [or_assoc] using hsp'
      · intro sp' hsp' hmem
        rcases List.mem_cons.1 hmem with rfl | hmem
        · exact hns hsp'
        · exact h.apart sp' hsp' hmem
    · refine ⟨fun sp' hsp' => hown' sp' ?_, fun sp' hsp' => absurd hsp' (hout sp'), ?_,
        hcounts _ rfl, h.finished⟩
      · simpa [or_left_comm] using hsp'
      · intro sp' hsp'
        rcases List.mem_cons.1 hsp' with rfl | hsp'
        · exact hnp
        · exact h.apart sp' hsp'

omit [DecidableEq τ] [Fintype τ] in
/-- A step that neither pushes nor resumes its own task. -/
theorem other {calls calls' : ℕ} {l l' : Recorded τ} (h : Recorded.Ok t calls l)
    (hle : calls ≤ calls') (hp : l'.record.pushed = l.record.pushed)
    (hs : l'.record.selfResumed = l.record.selfResumed) (hout : l'.pc.view.stage = .out)
    (hc : l'.pc.Counts l'.record.running)
    (hf : ∀ e ∈ l'.record.finished, e ∈ l.record.finished ∨ e.1.length = e.2) :
    Recorded.Ok t calls' l' where
  own sp hsp := by
    obtain ⟨ht, hc⟩ := h.own sp (by simpa only [hp, hs] using hsp)
    exact ⟨ht, by omega⟩
  fresh sp hsp := by simp [hout] at hsp
  apart := by simpa only [hp, hs] using h.apart
  counts := hc
  finished e he := (hf e he).elim (h.finished e) id

omit [Fintype τ] in
/-- **Every step keeps the record right.** -/
theorem step {l l' : Recorded τ}
    (hown : ∀ sp, l.pc.view.stage.suspendPoint = some sp →
      sp.task = t ∧ sp.call + 1 = q.suspends t)
    (h : Recorded.Ok t (q.suspends t) l) (hs : RecordedStep t q l q' l') :
    Recorded.Ok t (q'.suspends t) l' := by
  cases hs with
  | call op =>
    have hrun := h.counts
    cases op <;> exact h.other le_rfl rfl rfl rfl hrun fun e he => .inl he
  | waitIf hw => exact h.wait hown hw
  | @resumeOne _ r w w' hw =>
    have hrun : r.running = [] := h.counts
    have hc : w.resumes = none := w.step_counts hw
    refine h.other ((w.effect hw).suspends_le t) rfl rfl w'.view_stage ?_ fun e he => .inl he
    exact show r.running ++ w.resumes.toList = [] by simp [hc, hrun]
  | @resumedOne _ r w resumed hw =>
    have hrun : r.running = [] := h.counts
    refine h.other ((w.effect hw).suspends_le t) rfl rfl rfl rfl fun e he => ?_
    rcases List.mem_cons.1 he with rfl | he
    · exact .inr (by simpa [Record.resume, hrun] using w.step_counts hw)
    · exact .inl he
  | @resumeAll _ r w o hw =>
    have hrun := h.counts
    refine h.other ((w.effect hw).suspends_le t) rfl rfl ?_ ?_ fun e he => .inl he
    · cases o
      exacts [rfl, ResumeAll.view_stage _]
    · cases o <;> exact hrun
  | @resumeN _ r w w' hw =>
    exact h.other ((w.effect hw).suspends_le t) rfl rfl w'.view_stage (w.step_counts hw h.counts)
      fun e he => .inl he
  | @resumedN _ r w n hw =>
    refine h.other ((w.effect hw).suspends_le t) rfl rfl rfl rfl fun e he => ?_
    rcases List.mem_cons.1 he with rfl | he
    · exact .inr (w.step_counts hw h.counts)
    · exact .inl he
  | @empty _ r w o hw =>
    have hrun := h.counts
    refine h.other ((w.effect hw).suspends_le t) rfl rfl ?_ ?_ fun e he => .inl he
    · cases o with
      | inl e => cases e <;> rfl
      | inr result => rfl
    · cases o <;> exact hrun

end Recorded.Ok

/-! ### Who resumed what -/

/-- How often the record says that the task has resumed `sp`, as a waiter one of
its calls counted or as its own. -/
def Record.credited (sp : SuspendPoint τ) (r : Record τ) : ℕ :=
  r.running.count sp + (r.finished.flatMap Prod.fst).count sp + r.selfResumed.count sp

omit [Fintype τ] in
/-- A resume credits its waiter once. -/
@[simp] theorem Record.credited_resume (sp : SuspendPoint τ) (r : Record τ)
    (waiter : Option (SuspendPoint τ)) :
    (r.resume waiter).credited sp = r.credited sp + waiter.toList.count sp := by
  simp only [Record.credited, Record.resume, List.count_append]
  omega

omit [Fintype τ] in
/-- The end of a call credits nobody. -/
@[simp] theorem Record.credited_finish (sp : SuspendPoint τ) (r : Record τ) (n : ℕ) :
    (r.finish n).credited sp = r.credited sp := by
  simp [Record.credited, Record.finish]

omit [Fintype τ] in
/-- What a step of `wait_if` credits, it has resumed. -/
theorem WaitIf.step_credited {t : τ} {pred : Bool} {q q' : Queue τ} {w : WaitIf τ}
    {o : Option (WaitIf τ)} (r : Record τ) (h : w.step t pred q = some (q', o))
    (sp : SuspendPoint τ) :
    (r.wait w).credited sp + q.resumed.count sp ≤ r.credited sp + q'.resumed.count sp := by
  cases w with
  | resume waiter =>
    obtain ⟨rfl, rfl⟩ := by simpa [WaitIf.step] using h
    simp only [Record.credited, Record.wait, Queue.resume, List.count_cons]
    omega
  | _ => exact Nat.add_le_add_left ((WaitIf.effect h).resumed_le sp) _

omit [Fintype τ] in
/-- What `resume_one` is recorded to resume, it resumes. -/
theorem ResumeOne.step_resumed {t : τ} {q q' : Queue τ} {r : ResumeOne τ} {o : ResumeOne τ ⊕ Bool}
    (h : r.step t q = some (q', o)) (sp : SuspendPoint τ) :
    r.resumes.toList.count sp + q.resumed.count sp ≤ q'.resumed.count sp := by
  cases r with
  | resume waiter =>
    obtain ⟨rfl, rfl⟩ := by simpa [ResumeOne.step] using h
    simp [ResumeOne.resumes, Queue.resume, List.count_cons, Nat.add_comm]
  | _ => simpa [ResumeOne.resumes] using (ResumeOne.effect h).resumed_le sp

omit [Fintype τ] in
/-- So is what `resume_n` is recorded to resume. -/
theorem ResumeN.step_resumed {t : τ} {q q' : Queue τ} {r : ResumeN τ} {o : ResumeN τ ⊕ ℕ}
    (h : r.step t q = some (q', o)) (sp : SuspendPoint τ) :
    r.resumes.toList.count sp + q.resumed.count sp ≤ q'.resumed.count sp := by
  have hle := (ResumeN.effect h).resumed_le sp
  cases r with
  | doResumeAll resumed d =>
    obtain ⟨rfl, rfl⟩ := by simpa [ResumeN.step] using h
    cases d with
    | popFront l => simpa [ResumeN.resumes] using hle
    | resume waiter rest =>
      simp [ResumeN.resumes, DoResumeAll.step, Queue.resume, List.count_cons, Nat.add_comm]
  | _ => simpa [ResumeN.resumes] using hle

omit [Fintype τ] in
/-- **Credit is given for what was resumed.** -/
theorem RecordedStep.credited {t : τ} {q q' : Queue τ} {l l' : Recorded τ}
    (h : RecordedStep t q l q' l') (sp : SuspendPoint τ) :
    l'.record.credited sp + q.resumed.count sp ≤ l.record.credited sp + q'.resumed.count sp := by
  cases h with
  | call op => exact Nat.le_refl _
  | waitIf hw => exact WaitIf.step_credited _ hw sp
  | resumeOne hw | resumedOne hw =>
    have := ResumeOne.step_resumed hw sp
    simp only [Record.credited_finish, Record.credited_resume]
    omega
  | resumeN hw | resumedN hw =>
    have := ResumeN.step_resumed hw sp
    simp only [Record.credited_finish, Record.credited_resume]
    omega
  | resumeAll hw => exact Nat.add_le_add_left ((ResumeAll.effect hw).resumed_le sp) _
  | empty hw => exact Nat.add_le_add_left ((Empty.effect hw).resumed_le sp) _

/-! ### The places of a suspension -/

/-- How often `sp` is with a callback that has not evaluated the predicate yet, or
is about to push because it holds. -/
def Pc.unchecked (sp : SuspendPoint τ) : Pc τ → ℕ
  | .waitIf (.lock sp') | .waitIf (.recheck sp') | .waitIf (.pushBack sp') =>
    if sp' = sp then 1 else 0
  | _ => 0

/-- How often `sp` is held by a resumer: a popped pointer, a local list, or the
callback after a re-check that came out false. -/
def Pc.held (sp : SuspendPoint τ) : Pc τ → ℕ
  | .waitIf (.unlockResume sp') | .waitIf (.resume sp') => if sp' = sp then 1 else 0
  | pc => pc.view.hands.count sp

omit [Fintype τ] in
/-- A task carries a suspension that it has not checked yet, or one that it is to resume. -/
theorem Pc.carries_view (sp : SuspendPoint τ) (pc : Pc τ) :
    View.carries sp pc.view = pc.unchecked sp + pc.held sp := by
  cases pc with
  | waitIf w => cases w <;> simp [View.carries, Pc.view, WaitIf.view, Pc.unchecked, Pc.held]
  | idle => rfl
  | resumeOne r | resumeAll r | resumeN r => simp [View.carries, Pc.view, Pc.unchecked, Pc.held]
  | empty e => cases e <;> simp [View.carries, Pc.view, Empty.view, Pc.unchecked, Pc.held]

/-- The records of all tasks are right. -/
structure Inv (c : Config τ (Queue τ) (Recorded τ)) : Prop where
  records : ∀ t, (c.loc t).Ok t (c.shared.suspends t)
  credits : ∀ sp, total (fun l : Recorded τ => l.record.credited sp) c.loc ≤
    c.shared.resumed.count sp

/-- The invariant of the records holds in every run. -/
theorem inv_of_reach {ok : Config τ (Queue τ) (Recorded τ) → τ → Act → Prop}
    {c : Config τ (Queue τ) (Recorded τ)} (h : Reach nextRecorded ok (startRecorded τ) c) :
    Inv c := by
  refine h.invariant ⟨fun t => ?_, fun sp => ?_⟩ ?_
  · exact ⟨by simp [startRecorded], by simp [startRecorded, Pc.view], by simp [startRecorded],
      rfl, by simp [startRecorded]⟩
  · rw [startRecorded, total_const_zero (by rfl)]
    exact Nat.zero_le _
  · intro c t a q l hr hc _ hn
    have hL := ledger_of_recorded hr
    have hs := RecordedStep.of_next hn
    obtain ⟨a', ha'⟩ := next_of_recorded hn
    refine ⟨fun u => ?_, fun sp => ?_⟩
    · change Recorded.Ok u (q.suspends u) (Function.update c.loc t l u)
      rcases eq_or_ne u t with rfl | hne
      · rw [Function.update_self]
        exact (hc.records u).step (hL.own u) hs
      · rw [Function.update_of_ne hne]
        have hu := hc.records u
        exact { hu with own := fun sp hsp =>
          (hu.own sp hsp).imp_right fun hlt => hlt.trans_le ((effect_of_next ha').suspends_le u) }
    · have := hs.credited sp
      have := hc.credits sp
      have := total_update (fun l : Recorded τ => l.record.credited sp) c.loc t l
      simp only at this ⊢
      omega

/-- **The queue conserves suspensions.**  In every state that any tasks reach,
whatever the predicates evaluate to,

* no suspend point was resumed twice;
* a suspension that has been made is in one place: not re-checked yet, in
  `m_waiters`, held by one resumer, or resumed (and one that has not been made is
  nowhere);
* a pushed task that waits is in the list, held, or resumed;
* what a callback resumed itself was never pushed;
* a returned `resume_one` or `resume_n` has resumed as many waiters as it returned,
  with `true` as one, and the waiters of all returned calls are distinct. -/
theorem suspensions_conserved {c : Config τ (Queue τ) (Recorded τ)}
    (h : Reachable nextRecorded (startRecorded τ) c) :
    c.shared.resumed.Nodup ∧
    (∀ sp, total (fun l : Recorded τ => l.pc.unchecked sp) c.loc + c.shared.waiters.count sp +
      total (fun l : Recorded τ => l.pc.held sp) c.loc + c.shared.resumed.count sp =
        if sp.call < c.shared.suspends sp.task then 1 else 0) ∧
    (∀ t sp, (c.loc t).pc = .waitIf (.queued sp) →
      sp ∈ c.shared.waiters ∨ (∃ u, 0 < (c.loc u).pc.held sp) ∨ sp ∈ c.shared.resumed) ∧
    (∀ t u, ∀ sp ∈ (c.loc t).record.selfResumed, sp ∉ (c.loc u).record.pushed) ∧
    (∀ t, ∀ e ∈ (c.loc t).record.finished, e.1.length = e.2) ∧
    ∀ sp, total (fun l : Recorded τ => (l.record.finished.flatMap Prod.fst).count sp) c.loc ≤ 1 := by
  have hL := ledger_of_recorded h
  have hI := inv_of_reach h
  refine ⟨hL.resumed_nodup, fun sp => ?_, fun t sp hpc => ?_, fun t u sp hs hp => ?_,
    fun t => (hI.records t).finished, fun sp => ?_⟩
  · have honce := hL.once sp
    have hsplit : total (View.carries sp) (fun t => (c.loc t).pc.view) =
        total (fun l : Recorded τ => l.pc.unchecked sp) c.loc +
          total (fun l : Recorded τ => l.pc.held sp) c.loc := by
      rw [← total_add]
      exact Finset.sum_congr rfl fun t _ => (c.loc t).pc.carries_view sp
    simp only [made] at honce
    omega
  · have hst : (c.loc t).pc.view.stage = .pushed sp := by rw [hpc]; rfl
    rcases hL.pushed_cases hst with hw | ⟨u, hu⟩ | hr
    · exact .inl hw
    · refine .inr (.inl ⟨u, ?_⟩)
      have hcount := List.count_pos_iff.2 hu
      cases hpc' : (c.loc u).pc with
      | waitIf w => cases w <;> simp [hpc', Pc.view, WaitIf.view] at hu
      | _ => simpa [Pc.held, hpc'] using hcount
    · exact .inr (.inr hr)
  · have ht := (hI.records t).own sp (.inr hs)
    obtain rfl : t = u := ht.1.symm.trans ((hI.records u).own sp (.inl hp)).1
    exact (hI.records t).apart sp hs hp
  · calc total (fun l : Recorded τ => (l.record.finished.flatMap Prod.fst).count sp) c.loc
        ≤ total (fun l : Recorded τ => l.record.credited sp) c.loc :=
          total_mono (fun l => by simp only [Record.credited]; omega) c.loc
      _ ≤ c.shared.resumed.count sp := hI.credits sp
      _ ≤ 1 := List.nodup_iff_count_le_one.1 hL.resumed_nodup sp

/-- Tasks 0 and 1 are pushed; task 2 resumes one of them with `resume_one`, and
`resume_n(2)` finds the other. -/
def oneAndOne : List (Fin 3 × Act) :=
  turns [(0, 1, .call .waitIf), (0, 6, .step true), (1, 1, .call .waitIf), (1, 6, .step true),
    (2, 1, .call .resumeOne), (2, 4, .step true), (2, 1, .call (.resumeN 2)), (2, 8, .step true)]

/-- The two calls have counted two waiters. -/
theorem suspensions_conserved_distinct : ∃ c : Config (Fin 3) (Queue (Fin 3)) (Recorded (Fin 3)),
    (startRecorded (Fin 3)).exec nextRecorded oneAndOne = some c ∧
    (c.loc 2).record.finished = [([⟨1, 0⟩], 1), ([⟨0, 0⟩], 1)] ∧ c.shared.resumed.Nodup ∧
    ∀ sp, total (fun l : Recorded (Fin 3) => (l.record.finished.flatMap Prod.fst).count sp)
      c.loc ≤ 1 := by
  refine ⟨_, rfl, rfl, ?_⟩
  have hreach : Reachable nextRecorded (startRecorded (Fin 3)) _ :=
    reachable_of_exec (l := oneAndOne) rfl
  have hconserved := suspensions_conserved hreach
  exact ⟨hconserved.1, hconserved.2.2.2.2.2⟩

end WaitQueue
end CoopSync
