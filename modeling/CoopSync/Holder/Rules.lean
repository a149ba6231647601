/-
# What a holder owns

A precondition for the code of a member function (`wp`): what the holder owns before it,
as far as the locks are concerned, and its fields, such that no line calls through a null
pointer, every line unlocks in the mode that is held, and the function ends in its
postcondition.  A third argument says that nothing has been changed so far.

If every member function keeps the fields in agreement with what is owned (`Code.Lawful`),
then in every run of any number of holders and locks they agree for each holder of which
no function runs, and each function that runs has its precondition for what is left of it
(`ok_of_reach`).
-/

import CoopSync.Holder.Code

namespace CoopSync
namespace Holder

variable {κ μ χ α σ ℓ M ω : Type*}

/-! ### Assertions about the code -/

/-- The fields say what the holder owns. -/
inductive Means : Option (M × μ) → Fields M μ → Prop
  | free {w : μ} : Means none ⟨none, w⟩
  | held {m : M} {w : μ} : Means (some (m, w)) ⟨some m, w⟩

/-- An assertion: what is owned, whether nothing has been changed, and the fields. -/
abbrev Assn (M μ : Type*) := Option (M × μ) → Prop → Fields M μ → Prop

/-- What a call of `m` asks of what is owned. -/
def LockCall.Pre (own : Option (M × μ)) (m : M) : LockCall μ → Prop
  | .lock _ | .tryLock _ => own = none
  | .unlock w => own = some (m, w)

/-- What holds after a call of `m`, where `Q` is to hold if the function ends here, and `R`
if it goes on. -/
def LockCall.Post (Q : Outcome → Assn M μ) (R : Assn M μ) (m : M) (clean : Prop)
    (f : Fields M μ) : LockCall μ → Prop
  | .lock w => R (some (m, w)) False f
  | .tryLock w => Q (.returned (some false)) none clean f ∧ R (some (m, w)) False f
  | .unlock _ => R none False f

/-- A precondition of the code for the postcondition `Q`. -/
def wp [DecidableEq μ] (Q : Outcome → Assn M μ) : List (Instr M μ) → Assn M μ
  | [] => Q (.returned none)
  | i :: rest => fun own clean f =>
    match i.does f with
    | .goesOn f' => wp Q rest own (clean ∧ f' = f) f'
    | .returns o => Q o own clean f
    | .calls m c => c.Pre own m ∧ c.Post Q (wp Q rest) m clean f
    | .fails => False

/-- The function throws, or returns that it has not got the lock. -/
def Code.Failed (C : Code ω M μ) (op : ω) (o : Outcome) : Prop :=
  o = .threw ∨ C.tries op = true ∧ o = .returned (some false)

/-- What every member function is to do: leave the fields in agreement with what is owned,
change nothing if it fails, and own nothing if it destroys the holder. -/
def Code.Post (C : Code ω M μ) (op : ω) (o : Outcome) : Assn M μ := fun own clean f =>
  Means own f ∧ (C.Failed op o → clean) ∧ (C.destroys op = true → own = none)

section Post

variable {C : Code ω M μ} {op : ω} {own : Option (M × μ)} {clean : Prop} {f : Fields M μ}

/-- The postcondition of a member function that returns nothing. -/
theorem Code.post_void (hm : Means own f) (hd : C.destroys op = true → own = none) :
    C.Post op (.returned none) own clean f :=
  ⟨hm, fun h => by rcases h with h | ⟨-, h⟩ <;> simp at h, hd⟩

/-- That of a member function that returns `true`. -/
theorem Code.post_true (hm : Means own f) (hd : C.destroys op = true → own = none) :
    C.Post op (.returned (some true)) own clean f :=
  ⟨hm, fun h => by rcases h with h | ⟨-, h⟩ <;> simp at h, hd⟩

/-- That of a member function that returns `false`; one that tries has changed nothing. -/
theorem Code.post_false (hm : Means own f) (hd : C.destroys op = true → own = none)
    (hc : C.tries op = true → clean) : C.Post op (.returned (some false)) own clean f := by
  refine ⟨hm, ?_, hd⟩
  rintro (h | ⟨ht, -⟩)
  · nomatch h
  · exact hc ht

/-- That of a member function that throws. -/
theorem Code.post_threw (hm : Means own f) (hd : C.destroys op = true → own = none)
    (hc : clean) : C.Post op .threw own clean f :=
  ⟨hm, fun _ => hc, hd⟩

end Post

/-- Every member function does so. -/
structure Code.Lawful [DecidableEq μ] (C : Code ω M μ) : Prop where
  init {op : ω} {f : Fields M μ} : C.init op = some f → wp (C.Post op) (C.body op) none True f
  body {op : ω} {own : Option (M × μ)} {f : Fields M μ} :
    C.init op = none → Means own f → wp (C.Post op) (C.body op) own True f

/-! ### What a lock is to do -/

section Lawful

variable [DecidableEq μ]

/-- What the caller owns no longer when it makes the call. -/
def LockCall.gives (v : μ) : LockCall μ → ℕ
  | .unlock w => if v = w then 1 else 0
  | _ => 0

def LockCall.phase : LockCall μ → Phase μ
  | .lock w => .locking w
  | .tryLock w => .trying w
  | .unlock _ => .unlocking

/-- What the caller owns when the call has succeeded. -/
def Phase.gains (v : μ) : Phase μ → ℕ
  | .locking w | .trying w => if v = w then 1 else 0
  | .unlocking => 0

def Phase.tries : Phase μ → Bool
  | .trying _ => true
  | _ => false

/-- The steps of a lock are those of its calls, and an attempt that fails changes nothing. -/
structure Lockable.Lawful (L : Lockable κ μ χ α σ ℓ) : Prop where
  start_during (k : κ) : L.during (L.start.loc k) = none
  start_owns (k : κ) (w : μ) : L.owns (L.start.loc k) w = 0
  call_isSome {k : κ} {c : LockCall μ} {s : σ} {l : ℓ} : L.during l = none →
    (∀ w, c = .unlock w → 0 < L.owns l w) → (L.next k (L.call c) s l).isSome
  call {k : κ} {c : LockCall μ} {s s' : σ} {l l' : ℓ} :
    L.next k (L.call c) s l = some (s', l') → s' = s ∧ L.during l' = some c.phase ∧
      ∀ v, L.owns l v = L.owns l' v + c.gives v
  step {k : κ} {x : χ} {p : Phase μ} {s s' : σ} {l l' : ℓ} :
    L.next k (L.step x) s l = some (s', l') → L.during l = some p →
      L.during l' = some p ∧ L.owns l' = L.owns l ∧ (p.tries = true → s' = s) ∨
      L.during l' = none ∧ ((∀ v, L.owns l' v = L.owns l v + p.gains v) ∨
        p.tries = true ∧ L.owns l' = L.owns l ∧ s' = s)

end Lawful

/-! ### Holders in a run -/

variable [DecidableEq κ] [DecidableEq M] [DecidableEq μ]

section Place

variable (L : Lockable κ μ χ α σ ℓ) (C : Code ω M μ) (k : κ) (s : M → Config κ σ ℓ)

/-- The holder is in no call of a lock. -/
def Outside : Prop := ∀ m, L.during ((s m).loc k) = none

/-- The holder owns `own`, once, and nothing else. -/
def Owns (own : Option (M × μ)) : Prop :=
  ∀ m w, L.owns ((s m).loc k) w = if own = some (m, w) then 1 else 0

/-- Where a holder stands, and what it owns there. -/
inductive Place : Option (Fields M μ) → Option (Run ω M μ) → Prop
  | gone (hout : Outside L k s) (hown : Owns L k s none) : Place none none
  | rests {f : Fields M μ} {own : Option (M × μ)} (hout : Outside L k s) (hown : Owns L k s own)
      (hm : Means own f) : Place (some f) none
  | runs {f : Fields M μ} {r : Run ω M μ} {own : Option (M × μ)} {clean : Prop}
      (hinside : r.inside = false) (hclean : clean → f = r.entry ∧ r.kept)
      (hout : Outside L k s) (hown : Owns L k s own) (hwp : wp (C.Post r.op) r.code own clean f) :
      Place (some f) (some r)
  | calls {f : Fields M μ} {r : Run ω M μ} {clean : Prop} {i : Instr M μ}
      {rest : List (Instr M μ)} {m : M} {c : LockCall μ} (hinside : r.inside = true)
      (hcode : r.code = i :: rest) (hdoes : i.does f = .calls m c)
      (hclean : clean → f = r.entry ∧ r.kept) (hduring : L.during ((s m).loc k) = some c.phase)
      (hout : ∀ m', m' ≠ m → L.during ((s m').loc k) = none) (hown : Owns L k s none)
      (hpost : c.Post (C.Post r.op) (wp (C.Post r.op) rest) m clean f) : Place (some f) (some r)

/-- A holder where it stands, and what its record says of the functions that failed. -/
structure Local.Ok (l : Local ω M μ) : Prop where
  place : Place L C k s l.fields l.run
  failed : ∀ d ∈ l.finished, C.Failed d.op d.outcome → d.exit = d.entry ∧ d.kept

end Place

variable {L : Lockable κ μ χ α σ ℓ} {C : Code ω M μ} {k : κ} {s s' : M → Config κ σ ℓ}

omit [DecidableEq κ] in
/-- Where a holder stands depends on its own places in the locks. -/
theorem Place.congr {f : Option (Fields M μ)} {r : Option (Run ω M μ)}
    (hs : ∀ m, (s' m).loc k = (s m).loc k) (h : Place L C k s f r) : Place L C k s' f r := by
  have hout : Outside L k s → Outside L k s' := fun h m => (hs m).symm ▸ h m
  have hown : ∀ {own}, Owns L k s own → Owns L k s' own := fun h m w => (hs m).symm ▸ h m w
  cases h with
  | gone ho hw => exact .gone (hout ho) (hown hw)
  | rests ho hw hm => exact .rests (hout ho) (hown hw) hm
  | runs hi hc ho hw hwp => exact .runs hi hc (hout ho) (hown hw) hwp
  | @calls _ _ _ _ _ m _ hi hcode hdoes hc hd ho hw hpost =>
    exact .calls hi hcode hdoes hc ((hs m).symm ▸ hd) (fun m' hm' => (hs m').symm ▸ ho m' hm')
      (hown hw) hpost

omit [DecidableEq κ] in
/-- A function ends in its postcondition. -/
theorem Local.Ok.finish {l : Local ω M μ} {f : Fields M μ} {r : Run ω M μ} {o : Outcome}
    {own : Option (M × μ)} {clean : Prop}
    (hfailed : ∀ d ∈ l.finished, C.Failed d.op d.outcome → d.exit = d.entry ∧ d.kept)
    (hclean : clean → f = r.entry ∧ r.kept) (hout : Outside L k s) (hown : Owns L k s own)
    (hpost : C.Post r.op o own clean f) : Local.Ok L C k s (l.finish C r f o) := by
  obtain ⟨hmeans, hfail, hdestroys⟩ := hpost
  refine ⟨?_, fun d hd hf => ?_⟩
  · simp only [Local.finish]
    split
    · rename_i hd
      obtain rfl := hdestroys hd
      exact .gone hout hown
    · exact .rests hout hown hmeans
  · rcases List.mem_cons.1 hd with rfl | hd
    · exact hclean (hfail hf)
    · exact hfailed d hd hf

omit [DecidableEq κ] in
/-- A member function is called. -/
theorem Local.Ok.call (hC : C.Lawful) {op : ω} {l l' : Local ω M μ} (h : Local.Ok L C k s l)
    (hl : l.call C op = some l') : Local.Ok L C k s l' := by
  obtain ⟨fields, run, finished⟩ := l
  obtain ⟨hplace, hfailed⟩ := h
  cases hplace with
  | gone hout hown =>
    cases hi : C.init op with
    | none => simp [Local.call, hi] at hl
    | some f =>
      obtain rfl := by simpa [Local.call, hi] using hl
      exact ⟨.runs rfl (fun _ => ⟨rfl, trivial⟩) hout hown (hC.init hi), hfailed⟩
  | rests hout hown hm =>
    cases hi : C.init op with
    | some f => simp [Local.call, hi] at hl
    | none =>
      obtain rfl := by simpa [Local.call, hi] using hl
      exact ⟨.runs rfl (fun _ => ⟨rfl, trivial⟩) hout hown (hC.body hi hm), hfailed⟩
  | runs | calls => simp [Local.call] at hl

/-! ### Calls of a lock -/

section Calls

variable {m : M} {sh : σ} {l₁ : ℓ} {own own' : Option (M × μ)}

/-- The locks after a step of the holder in `m`. -/
abbrev stepped (s : M → Config κ σ ℓ) (k : κ) (m : M) (sh : σ) (l₁ : ℓ) : M → Config κ σ ℓ :=
  Function.update s m ⟨sh, Function.update (s m).loc k l₁⟩

/-- After a step of the mutex `m` its task stands at `l₁` there. -/
theorem stepped_self : ((stepped s k m sh l₁) m).loc k = l₁ := by
  rw [stepped, Function.update_self]
  exact Function.update_self ..

/-- The other mutexes stay as they are. -/
theorem stepped_other {m' : M} (hm : m' ≠ m) : (stepped s k m sh l₁) m' = s m' :=
  Function.update_of_ne hm ..

/-- The other holders stay where they are. -/
theorem stepped_loc {k' : κ} (hk : k' ≠ k) (m' : M) :
    ((stepped s k m sh l₁) m').loc k' = (s m').loc k' := by
  rcases eq_or_ne m' m with rfl | hm
  · rw [stepped, Function.update_self]
    exact Function.update_of_ne hk ..
  · rw [stepped_other hm]

/-- A step changes what the holder owns of the mutex it steps on. -/
theorem Owns.stepped (h : Owns L k s own)
    (hm : ∀ w, L.owns l₁ w = if own' = some (m, w) then 1 else 0)
    (hother : ∀ m' w, m' ≠ m → (own' = some (m', w) ↔ own = some (m', w))) :
    Owns L k (stepped s k m sh l₁) own' := by
  intro m' w
  rcases eq_or_ne m' m with rfl | hne
  · rw [stepped_self]
    exact hm w
  · rw [stepped_other hne, h m' w]
    exact if_congr (hother m' w hne).symm rfl rfl

/-- The holder owns nothing, as before. -/
theorem Owns.same (h : Owns L k s none) (hsame : ∀ v, L.owns l₁ v = L.owns ((s m).loc k) v) :
    Owns L k (Holder.stepped s k m sh l₁) none :=
  h.stepped (fun v => by rw [hsame v, h m v]) fun _ _ _ => Iff.rfl

/-- The holder owns the lock that it was calling. -/
theorem Owns.gained (h : Owns L k s none) {w : μ}
    (hgains : ∀ v, L.owns l₁ v = L.owns ((s m).loc k) v + if v = w then 1 else 0) :
    Owns L k (Holder.stepped s k m sh l₁) (some (m, w)) := by
  refine h.stepped (fun v => ?_) fun m' v hm' => ?_
  · simp [hgains v, h m v, eq_comm]
  · simp [hm'.symm]

/-- A call leaves the holder with nothing. -/
theorem Owns.call (hL : L.Lawful) {c : LockCall μ} (h : Owns L k s own) (hpre : c.Pre own m)
    (hn : L.next k (L.call c) (s m).shared ((s m).loc k) = some (sh, l₁)) :
    Owns L k (Holder.stepped s k m sh l₁) none := by
  obtain ⟨-, -, hgives⟩ := hL.call hn
  refine h.stepped (fun w => ?_) fun m' w hne => ?_
  · have hw := hgives w
    rw [h m w] at hw
    cases c with
    | lock v | tryLock v =>
      obtain rfl : own = none := hpre
      simpa [LockCall.gives] using hw.symm
    | unlock v =>
      obtain rfl : own = some (m, v) := hpre
      by_cases hv : w = v
      · subst hv
        simpa [LockCall.gives] using hw
      · simpa [LockCall.gives, hv, Ne.symm hv] using hw.symm
  · cases c with
    | lock v | tryLock v =>
      obtain rfl : own = none := hpre
      rfl
    | unlock v =>
      obtain rfl : own = some (m, v) := hpre
      simp [hne.symm]

/-- The call of a lock is made. -/
theorem Local.Ok.enters (hL : L.Lawful) {l : Local ω M μ} {f : Fields M μ} {r : Run ω M μ}
    {i : Instr M μ} {rest : List (Instr M μ)} {c : LockCall μ} {clean : Prop} {x : χ}
    {l' : Local ω M μ}
    (hfailed : ∀ d ∈ l.finished, C.Failed d.op d.outcome → d.exit = d.entry ∧ d.kept)
    (hfields : l.fields = some f) (hinside : r.inside = false)
    (hcode : r.code = i :: rest) (hdoes : i.does f = .calls m c)
    (hclean : clean → f = r.entry ∧ r.kept) (hout : Outside L k s) (hown : Owns L k s own)
    (hpre : c.Pre own m) (hpost : c.Post (C.Post r.op) (wp (C.Post r.op) rest) m clean f)
    (hs : r.stepCall L C k x s l f m c rest = some (s', l')) : Local.Ok L C k s' l' := by
  obtain ⟨d, hd, he⟩ := Option.map_eq_some_iff.1 hs
  obtain ⟨sh, l₁, hn, rfl⟩ := Config.step_eq_some.1 hd
  simp only [hinside, Bool.not_false, Bool.true_or, if_true, Prod.mk.injEq] at he
  simp only [hinside, Bool.false_eq_true, if_false] at hn
  obtain ⟨rfl, rfl⟩ := he
  obtain ⟨rfl, hduring, -⟩ := hL.call hn
  refine ⟨?_, hfailed⟩
  rw [hfields]
  refine .calls rfl hcode hdoes (fun hc => ⟨(hclean hc).1, (hclean hc).2, rfl⟩) (m := m) ?_ ?_
    (hown.call hL hpre hn) hpost
  · change L.during ((stepped s k m (s m).shared l₁ m).loc k) = _
    rw [stepped_self]
    exact hduring
  · intro m' hm'
    change L.during ((stepped s k m (s m).shared l₁ m').loc k) = none
    rw [stepped_other hm']
    exact hout m'

/-- The call of a lock goes on, or returns. -/
theorem Local.Ok.inside (hL : L.Lawful) {l : Local ω M μ} {f : Fields M μ} {r : Run ω M μ}
    {i : Instr M μ} {rest : List (Instr M μ)} {c : LockCall μ} {clean : Prop} {x : χ}
    {l' : Local ω M μ}
    (hfailed : ∀ d ∈ l.finished, C.Failed d.op d.outcome → d.exit = d.entry ∧ d.kept)
    (hfields : l.fields = some f) (hinside : r.inside = true)
    (hcode : r.code = i :: rest) (hdoes : i.does f = .calls m c)
    (hclean : clean → f = r.entry ∧ r.kept) (hduring : L.during ((s m).loc k) = some c.phase)
    (hout : ∀ m', m' ≠ m → L.during ((s m').loc k) = none) (hown : Owns L k s none)
    (hpost : c.Post (C.Post r.op) (wp (C.Post r.op) rest) m clean f)
    (hs : r.stepCall L C k x s l f m c rest = some (s', l')) : Local.Ok L C k s' l' := by
  obtain ⟨d, hd, he⟩ := Option.map_eq_some_iff.1 hs
  obtain ⟨sh, l₁, hn, rfl⟩ := Config.step_eq_some.1 hd
  simp only [hinside, Bool.not_true, Bool.false_or, Function.update_self, Prod.mk.injEq] at he
  simp only [hinside, if_true] at hn
  have hother : ∀ m', m' ≠ m → L.during ((stepped s k m sh l₁ m').loc k) = none := by
    intro m' hm'
    rw [stepped_other hm']
    exact hout m' hm'
  obtain ⟨rfl, rfl⟩ := he
  rcases hL.step hn hduring with ⟨hgoes, howns, hsame⟩ | ⟨hends, hgot⟩
  · -- an attempt has changed nothing yet; for another call this is no matter
    simp only [hgoes, Option.isSome_some, if_true]
    refine ⟨?_, hfailed⟩
    dsimp only
    rw [hfields]
    refine .calls rfl hcode hdoes (fun hc : clean ∧ c.phase.tries = true =>
      ⟨(hclean hc.1).1, (hclean hc.1).2, hsame hc.2⟩) (m := m) ?_ hother ?_ ?_
    · exact (congrArg L.during stepped_self).trans hgoes
    · exact hown.same (congrFun howns)
    · cases c with
      | lock w | unlock w => exact hpost
      | tryLock w => simpa [LockCall.phase, Phase.tries, LockCall.Post] using hpost
  · have hout' : Outside L k (stepped s k m sh l₁) := fun m' => by
      rcases eq_or_ne m' m with rfl | hm'
      · exact (congrArg L.during stepped_self).trans hends
      · exact hother m' hm'
    simp only [hends, Option.isSome_none, Bool.false_eq_true, if_false]
    rcases hgot with hgains | ⟨htries, howns, rfl⟩
    · have hl : L.refuses ((s m).loc k) l₁ c = false := by
        cases c with
        | lock w | unlock w => rfl
        | tryLock w => simp [Lockable.refuses, hgains w, LockCall.phase, Phase.gains]
      simp only [hl, Bool.false_eq_true, if_false]
      refine ⟨?_, hfailed⟩
      dsimp only
      rw [hfields]
      cases c with
      | lock w => exact .runs rfl False.elim hout' (hown.gained hgains) hpost
      | tryLock w => exact .runs rfl False.elim hout' (hown.gained hgains) hpost.2
      | unlock w => exact .runs rfl False.elim hout' (hown.same hgains) hpost
    · cases c with
      | lock w | unlock w => nomatch htries
      | tryLock w =>
        have hl : L.refuses ((s m).loc k) l₁ (.tryLock w) = true := by
          simp [Lockable.refuses, howns]
        simp only [hl, if_true]
        exact .finish hfailed (fun hc => ⟨(hclean hc).1, (hclean hc).2, trivial⟩) hout'
          (hown.same (congrFun howns)) hpost.1

end Calls

/-- **A step of a holder.** -/
theorem Local.Ok.step (hL : L.Lawful) (hC : C.Lawful) {l l' : Local ω M μ} {a : Act ω χ}
    (h : Local.Ok L C k s l) (hn : next L C k a s l = some (s', l')) : Local.Ok L C k s' l' := by
  cases a with
  | call op =>
    obtain ⟨l₁, hl, he⟩ := Option.map_eq_some_iff.1 hn
    obtain ⟨rfl, rfl⟩ := by simpa using he
    exact h.call hC hl
  | step x =>
    obtain ⟨hplace, hfailed⟩ := h
    cases hf : l.fields with
    | none => simp [next, hf] at hn
    | some f =>
      cases hr : l.run with
      | none => simp [next, hf, hr] at hn
      | some r =>
        simp only [next, hf, hr, Run.step] at hn
        rw [hf, hr] at hplace
        cases hplace with
        | runs hinside hclean hout hown hwp =>
          cases hcode : r.code with
          | nil =>
            simp only [hcode] at hn hwp
            obtain ⟨rfl, rfl⟩ := by simpa using hn
            exact .finish hfailed hclean hout hown hwp
          | cons i rest =>
            simp only [hcode, wp] at hn hwp
            cases hdoes : i.does f with
            | goesOn f' =>
              simp only [hdoes] at hn hwp
              obtain ⟨rfl, rfl⟩ := by simpa using hn
              refine ⟨.runs hinside (fun hc => ?_) hout hown hwp, hfailed⟩
              obtain ⟨hc, rfl⟩ := hc
              exact hclean hc
            | returns o =>
              simp only [hdoes] at hn hwp
              obtain ⟨rfl, rfl⟩ := by simpa using hn
              exact .finish hfailed hclean hout hown hwp
            | calls m c =>
              simp only [hdoes] at hn hwp
              exact .enters hL hfailed hf hinside hcode hdoes hclean hout hown hwp.1 hwp.2 hn
            | fails =>
              simp only [hdoes] at hwp
        | calls hinside hcode hdoes hclean hduring hout hown hpost =>
          simp only [hcode, hdoes] at hn
          exact .inside hL hfailed hf hinside hcode hdoes hclean hduring hout hown hpost hn

/-! ### Runs -/

/-- A step of a holder is at most one step of it in one lock. -/
theorem frame_of_next {l l' : Local ω M μ} {a : Act ω χ}
    (hn : next L C k a s l = some (s', l')) :
    s' = s ∨ ∃ m b d, (s m).step L.next k b = some d ∧ s' = Function.update s m d := by
  cases a with
  | call op =>
    obtain ⟨l₁, hl, he⟩ := Option.map_eq_some_iff.1 hn
    obtain ⟨rfl, rfl⟩ := by simpa using he
    exact .inl rfl
  | step x =>
    simp only [next] at hn
    split at hn
    · simp only [Run.step] at hn
      split at hn
      · exact .inl (congrArg Prod.fst (Option.some.inj hn)).symm
      · split at hn
        · exact .inl (congrArg Prod.fst (Option.some.inj hn)).symm
        · exact .inl (congrArg Prod.fst (Option.some.inj hn)).symm
        · rename_i m c _
          obtain ⟨d, hd, he⟩ := Option.map_eq_some_iff.1 hn
          exact .inr ⟨m, _, d, hd, (congrArg Prod.fst he).symm⟩
        · nomatch hn
    · nomatch hn

section Runs

variable {ok : Config κ (M → Config κ σ ℓ) (Local ω M μ) → κ → Act ω χ → Prop}
  {c : Config κ (M → Config κ σ ℓ) (Local ω M μ)}

/-- **Each lock is in a run of its own.** -/
theorem lock_reachable (h : Reach (next L C) ok (start L ω M) c) (m : M) :
    Reachable L.next L.start (c.shared m) := by
  refine h.invariant (I := fun c : Config κ (M → Config κ σ ℓ) (Local ω M μ) =>
    Reachable L.next L.start (c.shared m)) .start fun c k a s l _ ih _ hn => ?_
  rcases frame_of_next hn with rfl | ⟨m', b, d, hd, rfl⟩
  · exact ih
  · change Reachable L.next L.start (Function.update c.shared m' d m)
    rcases eq_or_ne m m' with rfl | hne
    · rw [Function.update_self]
      exact ih.step trivial hd
    · rwa [Function.update_of_ne hne]

/-- **Every holder owns what it is to own where it stands.** -/
theorem ok_of_reach (hL : L.Lawful) (hC : C.Lawful) (h : Reach (next L C) ok (start L ω M) c)
    (k : κ) : Local.Ok L C k c.shared (c.loc k) := by
  revert k
  refine h.invariant (I := fun c : Config κ (M → Config κ σ ℓ) (Local ω M μ) =>
    ∀ k, Local.Ok L C k c.shared (c.loc k))
    (fun k => ⟨.gone (fun _ => hL.start_during k) fun _ w => hL.start_owns k w, nofun⟩)
    fun c k a s l _ ih _ hn k' => ?_
  change Local.Ok L C k' s (Function.update c.loc k l k')
  rcases eq_or_ne k' k with rfl | hne
  · rw [Function.update_self]
    exact (ih k').step hL hC hn
  · rw [Function.update_of_ne hne]
    refine ⟨(ih k').place.congr fun m => ?_, (ih k').failed⟩
    rcases frame_of_next hn with rfl | ⟨m', b, d, hd, rfl⟩
    · rfl
    · obtain ⟨sh, l₁, -, rfl⟩ := Config.step_eq_some.1 hd
      exact stepped_loc hne m

/-- The next line unlocks `m` in the mode `w`. -/
def Local.Unlocks (l : Local ω M μ) (m : M) (w : μ) : Prop :=
  ∃ f r i rest, l.fields = some f ∧ l.run = some r ∧ r.inside = false ∧ r.code = i :: rest ∧
    i.does f = .calls m (.unlock w)

/-- The fields of the holders and what they own in the locks, in a configuration. -/
structure Accounted (L : Lockable κ μ χ α σ ℓ) (C : Code ω M μ)
    (c : Config κ (M → Config κ σ ℓ) (Local ω M μ)) : Prop where
  /-- A holder of which no function runs owns what its fields say, and nothing else. -/
  owns {k : κ} {f : Fields M μ} : (c.loc k).fields = some f → (c.loc k).run = none → ∀ m w,
    L.owns ((c.shared m).loc k) w = if f.mutex = some m ∧ f.mode = w then 1 else 0
  /-- A function that failed has changed neither the fields nor a lock. -/
  failed (k : κ) : ∀ d ∈ (c.loc k).finished, C.Failed d.op d.outcome → d.exit = d.entry ∧ d.kept
  /-- What is unlocked is held in that mode. -/
  unlocks {k : κ} {m : M} {w : μ} : (c.loc k).Unlocks m w → L.owns ((c.shared m).loc k) w = 1
  /-- A function goes on, except perhaps within a call of a lock. -/
  goesOn {k : κ} {r : Run ω M μ} : (c.loc k).run = some r → r.inside = false → ∀ x,
    (c.step (next L C) k (.step x)).isSome
  /-- A holder that does not exist is in no call, and owns nothing. -/
  gone {k : κ} : (c.loc k).fields = none → ∀ m,
    L.during ((c.shared m).loc k) = none ∧ ∀ w, L.owns ((c.shared m).loc k) w = 0

omit [DecidableEq κ] in
/-- What a holder's fields say it owns, it owns of each mutex. -/
theorem Owns.of_means {own : Option (M × μ)} {f : Fields M μ} (h : Owns L k s own)
    (hm : Means own f) (m : M) (w : μ) :
    L.owns ((s m).loc k) w = if f.mutex = some m ∧ f.mode = w then 1 else 0 := by
  rw [h m w]
  refine if_congr ?_ rfl rfl
  cases hm with
  | free => simp
  | held => simp

/-- **The fields agree with what is owned**, in every run. -/
theorem accounted_of_reach (hL : L.Lawful) (hC : C.Lawful)
    (h : Reach (next L C) ok (start L ω M) c) : Accounted L C c where
  owns {k f} hf hr := by
    have hplace := (ok_of_reach hL hC h k).place
    rw [hf, hr] at hplace
    cases hplace with
    | rests hout hown hm => exact hown.of_means hm
  failed k := (ok_of_reach hL hC h k).failed
  unlocks {k m w} := by
    rintro ⟨f, r, i, rest, hf, hr, hinside, hcode, hdoes⟩
    have hplace := (ok_of_reach hL hC h k).place
    rw [hf, hr] at hplace
    cases hplace with
    | runs _ hclean hout hown hwp =>
      simp only [hcode, wp, hdoes] at hwp
      obtain rfl := hwp.1
      rw [hown m w, if_pos rfl]
    | calls hin => simp [hinside] at hin
  goesOn {k r} hr hinside x := by
    have hplace := (ok_of_reach hL hC h k).place
    cases hf : (c.loc k).fields with
    | none =>
      rw [hf, hr] at hplace
      nomatch hplace
    | some f =>
      rw [hf, hr] at hplace
      cases hplace with
      | calls hin => simp [hinside] at hin
      | runs _ hclean hout hown hwp =>
        cases hcode : r.code with
        | nil => simp [Config.step, next, hf, hr, Run.step, hcode]
        | cons i rest =>
          simp only [hcode, wp] at hwp
          cases hdoes : i.does f with
          | goesOn f' => simp [Config.step, next, hf, hr, Run.step, hcode, hdoes]
          | returns o => simp [Config.step, next, hf, hr, Run.step, hcode, hdoes]
          | fails => simp only [hdoes] at hwp
          | calls m d =>
            simp only [hdoes] at hwp
            have hcall : (L.next k (L.call d) (c.shared m).shared ((c.shared m).loc k)).isSome := by
              refine hL.call_isSome (hout m) ?_
              rintro w rfl
              obtain rfl := hwp.1
              rw [hown m w, if_pos rfl]
              exact Nat.one_pos
            simpa [Config.step, next, hf, hr, Run.step, Run.stepCall, hcode, hdoes, hinside]
              using hcall
  gone {k} hf m := by
    have hplace := (ok_of_reach hL hC h k).place
    rw [hf] at hplace
    generalize (c.loc k).run = r at hplace
    cases hplace with
    | gone hout hown => exact ⟨hout m, fun w => hown m w⟩

end Runs

end Holder
end CoopSync
