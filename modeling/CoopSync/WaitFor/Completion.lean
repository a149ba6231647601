/-
# The task is resumed once, after the last result

An item is dealt with by the registration loop where its registration fails and by its
host callback otherwise (`Call.stage`).  How far either has got decides whether the slot
of the item has been written and whether the item has been taken off `pending`
(`Notified`), so an item is taken once, `pending` is the number of items not taken, and
exactly one decrement takes the last (`Inv.resumed`).  Every step uses up some of the
work left (`work_step`), so that every run ends, and it ends with the task resumed.
-/

import CoopSync.WaitFor.Model

namespace CoopSync
namespace WaitFor

variable {n : ℕ} {σ ε : Type*}

/-! ### One notification -/

/-- How far the notification of item `i` with `status` has got: before a step of `m`, or
over. -/
def Notified (s : Shared n ε) (i : Fin n) (status : ε) : Option (Notify ε) → Prop
  | some (.write e) => e = status ∧ i ∉ s.written ∧ i ∉ s.taken
  | some .fetchSub => i ∈ s.written ∧ i ∉ s.taken
  | some .resume | none => i ∈ s.written ∧ i ∈ s.taken

/-- The steps of `notify` for an item whose pointers are set. -/
inductive NotifyStep (i : Fin n) (s : Shared n ε) :
    Notify ε → Shared n ε → Option (Notify ε) → Prop
  | write {status} :
      NotifyStep i s (.write status)
        { s with errs := Function.update s.errs i status, written := insert i s.written }
        (some .fetchSub)
  | last (hs : s.pending = 1) :
      NotifyStep i s .fetchSub { s with pending := s.pending - 1, taken := insert i s.taken }
        (some .resume)
  | takes (hs : s.pending ≠ 1) :
      NotifyStep i s .fetchSub { s with pending := s.pending - 1, taken := insert i s.taken } none
  | resume : NotifyStep i s .resume { s with resumes := s.resumes + 1 } none

/-- A step of `notify` on its own item is one of these. -/
theorem Notify.step_eq {i : Fin n} {s s' : Shared n ε} {m : Notify ε} {o : Option (Notify ε)}
    (hi : s.items i = some i) (hm : m.step i s = some (s', o)) : NotifyStep i s m s' o := by
  cases m with
  | write status =>
    obtain ⟨rfl, rfl⟩ := by simpa [Notify.step, hi] using hm
    exact .write
  | fetchSub =>
    obtain ⟨rfl, rfl⟩ := by simpa [Notify.step] using hm
    split_ifs with hs
    · exact .last hs
    · exact .takes hs
  | resume =>
    obtain ⟨-, rfl, rfl⟩ := by simpa [Notify.step] using hm
    exact .resume

/-- `notify` is never stuck. -/
theorem Notify.step_isSome {i : Fin n} {s : Shared n ε} (hi : s.items i = some i)
    (ht : s.suspendPoint = true) (m : Notify ε) : (m.step i s).isSome := by
  cases m <;> simp [Notify.step, hi, ht]

/-- Whether the next step of a notification is the call of `tbb::task::resume`. -/
def Notify.resuming : Option (Notify ε) → ℕ
  | some .resume => 1
  | _ => 0

/-- The steps left of a notification. -/
def Notify.work : Option (Notify ε) → ℕ
  | some (.write _) => 3
  | some .fetchSub => 2
  | some .resume => 1
  | none => 0

/-- Every step of `notify` leaves less to do. -/
theorem Notify.work_step {i : Fin n} {s s' : Shared n ε} {m : Notify ε} {o : Option (Notify ε)}
    (hm : m.step i s = some (s', o)) : Notify.work o < Notify.work (some m) := by
  cases m with
  | write status =>
    obtain ⟨out, -, he⟩ := Option.map_eq_some_iff.1 hm
    obtain ⟨-, rfl⟩ := by simpa using he
    exact Nat.lt_succ_self _
  | fetchSub =>
    obtain ⟨-, rfl⟩ := by simpa [Notify.step] using hm
    split_ifs <;> simp [Notify.work]
  | resume =>
    obtain ⟨-, -, rfl⟩ := by simpa [Notify.step] using hm
    exact Nat.zero_lt_one

section NotifyStep

variable {i j : Fin n} {s s' : Shared n ε} {m : Notify ε} {o : Option (Notify ε)} {v : ε}

/-- What a step of `notify` does not touch. -/
theorem NotifyStep.frame (h : NotifyStep i s m s' o) :
    s'.suspendPoint = s.suspendPoint ∧ s'.items = s.items ∧ s'.enqueued = s.enqueued ∧
      s'.calls = s.calls := by
  cases h <;> exact ⟨rfl, rfl, rfl, rfl⟩

/-- A step of `notify` keeps what holds of its item. -/
theorem NotifyStep.notified (h : NotifyStep i s m s' o) (hi : Notified s i v (some m)) :
    Notified s' i v o := by
  cases h <;> simp_all [Notified]

/-- The other items stay as they are. -/
theorem NotifyStep.notified_of_ne (h : NotifyStep i s m s' o) (hj : j ≠ i)
    (p : Option (Notify ε)) (u : ε) : Notified s' j u p ↔ Notified s j u p := by
  have hw : j ∈ s'.written ↔ j ∈ s.written := by cases h <;> simp [hj]
  have ht : j ∈ s'.taken ↔ j ∈ s.taken := by cases h <;> simp [hj]
  rcases p with - | - | - | - <;> simp only [Notified, hw, ht]

/-- **One notification takes one item off the count**, and the one that takes the last
goes on to resume. -/
theorem NotifyStep.account (h : NotifyStep i s m s' o) (hi : Notified s i v (some m))
    (hp : s.pending + s.taken.card = n) {k : ℕ}
    (hr : s.resumes + k = if s.pending = 0 then 1 else 0) (hk : Notify.resuming (some m) ≤ k) :
    s'.pending + s'.taken.card = n ∧
      s'.resumes + (k + Notify.resuming o - Notify.resuming (some m)) =
        if s'.pending = 0 then 1 else 0 := by
  cases h with
  | write => exact ⟨hp, by simpa [Notify.resuming] using hr⟩
  | last hs | takes hs =>
    obtain ⟨-, ht⟩ := hi
    have hc := Finset.card_insert_of_notMem ht
    have hle := (insert i s.taken).card_le_univ
    rw [Fintype.card_fin] at hle
    simp only [Notify.resuming] at hr hk ⊢
    refine ⟨by rw [hc]; push_cast; omega, ?_⟩
    split_ifs at hr ⊢ <;> omega
  | resume =>
    simp only [Notify.resuming] at hr hk ⊢
    exact ⟨hp, by omega⟩

/-- A slot is written once, with the status of its item. -/
theorem NotifyStep.errs {w : Fin n → ε} (h : NotifyStep i s m s' o)
    (hi : Notified s i (w i) (some m)) (he : ∀ j ∈ s.written, s.errs j = w j) :
    ∀ j ∈ s'.written, s'.errs j = w j := by
  cases h with
  | write =>
    obtain ⟨rfl, -, -⟩ := hi
    intro j hj
    by_cases hij : j = i
    · rw [hij]
      exact Function.update_self ..
    · exact (Function.update_of_ne hij ..).trans (he j (by simpa [hij] using hj))
  | last | takes | resume => exact he

end NotifyStep

/-! ### Where the parties stand -/

/-- The registration calls the loop has made. -/
def Pc.calls : Pc n ε → ℕ
  | .test i => i
  | .setItem i | .register i => i
  | .check i _ | .failed i _ => i + 1
  | .left => n
  | _ => 0

/-- The items whose pointers the loop has set. -/
def Pc.itemsSet : Pc n ε → ℕ
  | .register i => i + 1
  | pc => pc.calls

/-- Whether the next step of the party is the call of `tbb::task::resume`. -/
def Pc.resuming : Pc n ε → ℕ
  | .failed _ m | .callback m => Notify.resuming (some m)
  | _ => 0

/-- The steps the party can still take. -/
def Pc.work : Pc n ε → ℕ
  | .setTag => 9 * n + 2
  | .test i => 9 * (n - i) + 1
  | .setItem i => 9 * (n - i)
  | .register i => 9 * (n - i) - 1
  | .check i _ => 9 * (n - i) - 2
  | .failed i m => 9 * (n - i) - 7 + Notify.work (some m)
  | .idle => 4
  | .callback m => Notify.work (some m)
  | .suspended => n + 2
  | .copy out => n - out.length + 1
  | .left | .ended | .returned _ => 0

variable [DecidableEq ε]

/-- The result for stream `i`: the error of its registration, or the status its callback
delivers. -/
def Call.result (w : Call n σ ε) (i : Fin n) : ε :=
  if w.launch i = w.runtime.success then w.delivered i else w.launch i

/-- The party that notifies item `i`. -/
def Call.owner (w : Call n σ ε) (i : Fin n) : Party n :=
  if w.launch i = w.runtime.success then .callback i else .loop

omit [DecidableEq ε] in
/-- How far a party at `pc` has got in the notification of item `i`. -/
def Call.stage (w : Call n σ ε) (i : Fin n) : Pc n ε → Option (Notify ε)
  | .idle => some (.write (w.delivered i))
  | .callback m => some m
  | .check j err => if j = i then some (.write err) else none
  | .failed j m => if j = i then some m else none
  | _ => none

/-- What holds of a party where it stands. -/
def Call.Fits (w : Call n σ ε) (s : Shared n ε) : Party n → Pc n ε → Prop
  | .loop, .setTag | .loop, .test _ | .loop, .setItem _ | .loop, .register _ | .loop, .left => True
  | .loop, .check i err => err = w.launch i
  | .loop, .failed i _ => w.launch i ≠ w.runtime.success
  | .callback _, .idle => True
  | .callback i, .callback _ | .callback i, .ended => i ∈ s.enqueued
  | .task, .suspended => True
  | .task, .copy out => 0 < s.resumes ∧ out <+: List.ofFn w.result
  | .task, .returned out => 0 < s.resumes ∧ out = List.ofFn w.result
  | _, _ => False

/-- The steps of a party. -/
inductive Step (w : Call n σ ε) (s : Shared n ε) : Party n → Pc n ε → Shared n ε → Pc n ε → Prop
  | setTag : Step w s .loop .setTag { s with suspendPoint := true } (.test 0)
  | more {i : ℕ} (hi : i < n) : Step w s .loop (.test i) s (.setItem ⟨i, hi⟩)
  | left {i : ℕ} (hi : w.more i = false) : Step w s .loop (.test i) s .left
  | setItem {i} :
      Step w s .loop (.setItem i) { s with items := Function.update s.items i (some i) }
        (.register i)
  | register {i} :
      Step w s .loop (.register i)
        { s with
          calls := s.calls + 1
          enqueued := if w.launch i = w.runtime.success then insert i s.enqueued else s.enqueued }
        (.check i (w.launch i))
  | fails {i err} (he : err ≠ w.runtime.success) :
      Step w s .loop (.check i err) s (.failed i (.write err))
  | succeeds {i} : Step w s .loop (.check i w.runtime.success) s (.test (i + 1))
  | failed {i m s' o} (hm : m.step i s = some (s', o)) :
      Step w s .loop (.failed i m) s' (o.elim (.test (i + 1)) (.failed i))
  | run {i} (hi : i ∈ s.enqueued) :
      Step w s (.callback i) .idle s (.callback (.write (w.delivered i)))
  | callback {i m s' o} (hm : m.step i s = some (s', o)) :
      Step w s (.callback i) (.callback m) s' (o.elim .ended .callback)
  | resumed (hs : 0 < s.resumes) : Step w s .task .suspended s (.copy [])
  | copy {out} (ho : out.length < n) :
      Step w s .task (.copy out) s (.copy (out ++ [s.errs ⟨out.length, ho⟩]))
  | returns {out} (ho : n ≤ out.length) : Step w s .task (.copy out) s (.returned out)

/-- Every step is one of these. -/
theorem step_of_next {w : Call n σ ε} {p : Party n} {a : Unit} {s s' : Shared n ε} {l l' : Pc n ε}
    (hn : next w p a s l = some (s', l')) : Step w s p l s' l' := by
  rcases p with - | - | i
  · cases l with
    | suspended =>
      obtain ⟨hs, rfl, rfl⟩ := by simpa [next] using hn
      exact .resumed hs
    | copy out =>
      obtain ⟨rfl, rfl⟩ := by simpa [next] using hn
      split_ifs with ho
      · exact .copy ho
      · exact .returns (not_lt.1 ho)
    | _ => simp [next] at hn
  · cases l with
    | test i =>
      simp only [next] at hn
      split_ifs at hn with hm hi
      · obtain ⟨rfl, rfl⟩ := by simpa using hn
        exact .more hi
      · obtain ⟨rfl, rfl⟩ := by simpa using hn
        exact .left (by simpa using hm)
    | check i err =>
      obtain ⟨rfl, rfl⟩ := by simpa [next] using hn
      split_ifs with he
      · obtain rfl := he
        exact .succeeds
      · exact .fails he
    | failed i m =>
      obtain ⟨⟨s₁, o⟩, hm, he⟩ := Option.map_eq_some_iff.1 hn
      obtain ⟨rfl, rfl⟩ := by simpa using he
      exact .failed hm
    | setTag | setItem i | register i =>
      obtain ⟨rfl, rfl⟩ := by simpa [next] using hn
      constructor
    | _ => simp [next] at hn
  · cases l with
    | idle =>
      obtain ⟨hi, rfl, rfl⟩ := by simpa [next] using hn
      exact .run hi
    | callback m =>
      obtain ⟨⟨s₁, o⟩, hm, he⟩ := Option.map_eq_some_iff.1 hn
      obtain ⟨rfl, rfl⟩ := by simpa using he
      exact .callback hm
    | _ => simp [next] at hn

/-! ### The invariant -/

/-- What the registration loop has set up. -/
structure Registered (w : Call n σ ε) (s : Shared n ε) (l : Pc n ε) : Prop where
  calls : s.calls = l.calls
  le : l.calls ≤ n
  tag : l = .setTag ∨ s.suspendPoint = true
  items : ∀ i : Fin n, i < l.itemsSet → s.items i = some i
  enqueued : ∀ i : Fin n, i ∈ s.enqueued ↔ i < s.calls ∧ w.launch i = w.runtime.success

structure Inv (w : Call n σ ε) (c : Config (Party n) (Shared n ε) (Pc n ε)) : Prop where
  registered : Registered w c.shared (c.loc .loop)
  fits : ∀ p, w.Fits c.shared p (c.loc p)
  notified : ∀ i : Fin n, i < c.shared.calls →
    Notified c.shared i (w.result i) (w.stage i (c.loc (w.owner i)))
  fresh : ∀ i : Fin n, c.shared.calls ≤ i → i ∉ c.shared.written ∧ i ∉ c.shared.taken
  account : c.shared.pending + c.shared.taken.card = n
  resumed : c.shared.resumes + total Pc.resuming c.loc = if c.shared.pending = 0 then 1 else 0
  errs : ∀ i ∈ c.shared.written, c.shared.errs i = w.result i

variable {w : Call n σ ε} {s s' : Shared n ε}

/-- A party keeps its place while more is enqueued and resumed. -/
theorem Call.Fits.mono {p : Party n} {l : Pc n ε} (h : w.Fits s p l)
    (he : s.enqueued ⊆ s'.enqueued) (hr : s.resumes ≤ s'.resumes) : w.Fits s' p l := by
  cases p <;> cases l <;>
    first
      | exact h
      | exact he h
      | exact ⟨lt_of_lt_of_le h.1 hr, h.2⟩

omit [DecidableEq ε] in
/-- What goes on after a step of `notify` is about to resume if `notify` is. -/
@[simp] theorem resuming_elim (l : Pc n ε) (f : Notify ε → Pc n ε) (hl : l.resuming = 0)
    (hf : ∀ m, (f m).resuming = Notify.resuming (some m)) (o : Option (Notify ε)) :
    (o.elim l f).resuming = Notify.resuming o := by
  cases o
  · exact hl
  · exact hf _

variable {c : Config (Party n) (Shared n ε) (Pc n ε)} {p : Party n} {l : Pc n ε}

omit [DecidableEq ε] in
/-- The loop moves on, with nothing else touched, or another party moves. -/
theorem Registered.moved (h : Registered w c.shared (c.loc .loop))
    (hf : s'.suspendPoint = c.shared.suspendPoint ∧ s'.items = c.shared.items ∧
      s'.enqueued = c.shared.enqueued ∧ s'.calls = c.shared.calls)
    (hl : p = .loop → c.loc p ≠ .setTag ∧ l.calls = (c.loc p).calls ∧
      l.itemsSet = (c.loc p).itemsSet) :
    Registered w s' (Function.update c.loc p l .loop) := by
  obtain ⟨ht, hi, he, hc⟩ := hf
  by_cases hp : Party.loop = p
  · obtain rfl := hp
    obtain ⟨hn, hlc, hls⟩ := hl rfl
    rw [Function.update_self]
    exact ⟨hc.trans (h.calls.trans hlc.symm), hlc ▸ h.le, .inr (ht.trans (h.tag.resolve_left hn)),
      by rw [hls, hi]; exact h.items, by rw [he, hc]; exact h.enqueued⟩
  · rw [Function.update_of_ne hp]
    exact ⟨hc.trans h.calls, h.le, h.tag.imp_right ht.trans, by rw [hi]; exact h.items,
      by rw [he, hc]; exact h.enqueued⟩

/-- A party moves on without touching anything shared. -/
theorem Inv.moved (h : Inv w c)
    (hl : p = .loop → c.loc p ≠ .setTag ∧ l.calls = (c.loc p).calls ∧
      l.itemsSet = (c.loc p).itemsSet)
    (hfit : w.Fits c.shared p l) (hr : (c.loc p).resuming = 0) (hr' : l.resuming = 0)
    (hs : ∀ i, w.owner i = p → w.stage i l = w.stage i (c.loc p)) :
    Inv w ⟨c.shared, Function.update c.loc p l⟩ where
  registered := h.registered.moved ⟨rfl, rfl, rfl, rfl⟩ hl
  fits := by
    intro q
    by_cases hq : q = p
    · obtain rfl := hq
      simpa using hfit
    · simpa [Function.update_of_ne hq] using h.fits q
  notified := by
    intro i hi
    by_cases hp : w.owner i = p
    · have := h.notified i hi
      simp only [hp, Function.update_self, hs i hp] at this ⊢
      exact this
    · simpa [Function.update_of_ne hp] using h.notified i hi
  fresh := h.fresh
  account := h.account
  resumed := by
    have := total_update Pc.resuming c.loc p l
    have := h.resumed
    simp only
    omega
  errs := h.errs

/-- The party that owns item `i` takes a step of its notification. -/
theorem Inv.notify (h : Inv w c) {i : Fin n} {m : Notify ε} {o : Option (Notify ε)}
    (hm : NotifyStep i c.shared m s' o) (hi : i < c.shared.calls) (hp : w.owner i = p)
    (hl : p = .loop → c.loc p ≠ .setTag ∧ l.calls = (c.loc p).calls ∧
      l.itemsSet = (c.loc p).itemsSet)
    (hfit : w.Fits s' p l) (hr : (c.loc p).resuming = Notify.resuming (some m))
    (hr' : l.resuming = Notify.resuming o) (hm' : w.stage i (c.loc p) = some m)
    (ho : w.stage i l = o)
    (hs : ∀ j, j ≠ i → w.owner j = p → w.stage j l = w.stage j (c.loc p)) :
    Inv w ⟨s', Function.update c.loc p l⟩ := by
  have hf := hm.frame
  have hni : Notified c.shared i (w.result i) (some m) := by
    have := h.notified i hi
    rwa [hp, hm'] at this
  have hacc := hm.account hni h.account h.resumed (hr ▸ le_total Pc.resuming c.loc p)
  have hmono : c.shared.resumes ≤ s'.resumes := by cases hm <;> simp
  refine ⟨h.registered.moved hf hl, ?_, ?_, ?_, hacc.1, ?_, hm.errs hni h.errs⟩
  · intro q
    by_cases hq : q = p
    · obtain rfl := hq
      simpa using hfit
    · simpa [Function.update_of_ne hq] using
        (h.fits q).mono (by rw [hf.2.2.1]) hmono
  · intro j hj
    by_cases hji : j = i
    · obtain rfl := hji
      simpa [hp, ho] using hm.notified hni
    · rw [hm.notified_of_ne hji]
      have hj := h.notified j (hf.2.2.2 ▸ hj)
      by_cases hjp : w.owner j = p
      · simp only [hjp, Function.update_self, hs j hji hjp] at hj ⊢
        exact hj
      · simpa [Function.update_of_ne hjp] using hj
  · intro j hj
    have hji : j ≠ i := by
      rintro rfl
      have := hf.2.2.2
      simp only at hj
      omega
    have := h.fresh j (hf.2.2.2 ▸ hj)
    cases hm <;> simpa [hji] using this
  · have := total_update Pc.resuming c.loc p l
    have := hacc.2
    have := hr ▸ le_total Pc.resuming c.loc p
    simp only
    omega

/-- The loop notifies for the items whose registration fails. -/
theorem owner_loop {i : Fin n} : w.owner i = .loop ↔ w.launch i ≠ w.runtime.success := by
  by_cases h : w.launch i = w.runtime.success <;> simp [Call.owner, h]

/-- A callback notifies for its own item, if it was registered. -/
theorem owner_callback {i j : Fin n} :
    w.owner j = .callback i ↔ j = i ∧ w.launch j = w.runtime.success := by
  by_cases h : w.launch j = w.runtime.success <;> simp [Call.owner, h]

/-- The suspended task notifies for none. -/
theorem owner_task {j : Fin n} : w.owner j ≠ .task := by
  by_cases h : w.launch j = w.runtime.success <;> simp [Call.owner, h]

/-- The result of a registered item is what its callback delivers. -/
theorem result_of_success {i : Fin n} (h : w.launch i = w.runtime.success) :
    w.result i = w.delivered i := if_pos h

/-- That of any other is the error of its registration. -/
theorem result_of_failure {i : Fin n} (h : w.launch i ≠ w.runtime.success) :
    w.result i = w.launch i := if_neg h

/-- The loop sets up the suspend point, an item or a callback; `calls` and `enqueued` may
grow by the item it is at. -/
theorem Inv.setUp (h : Inv w c) {s : Shared n ε} (hreg : Registered w s l)
    (hfit : w.Fits s .loop l) (henq : c.shared.enqueued ⊆ s.enqueued)
    (hs : s.written = c.shared.written ∧ s.taken = c.shared.taken ∧
      s.pending = c.shared.pending ∧ s.resumes = c.shared.resumes ∧ s.errs = c.shared.errs)
    (hr : (c.loc .loop).resuming = 0) (hr' : l.resuming = 0)
    (hcalls : c.shared.calls ≤ s.calls)
    (hn : ∀ i : Fin n, i < s.calls →
      Notified s i (w.result i) (w.stage i (Function.update c.loc .loop l (w.owner i)))) :
    Inv w ⟨s, Function.update c.loc .loop l⟩ := by
  obtain ⟨hw, ht, hp, hres, herr⟩ := hs
  refine ⟨by simpa using hreg, ?_, hn, ?_, ?_, ?_, ?_⟩
  · intro q
    by_cases hq : q = .loop
    · obtain rfl := hq
      simpa using hfit
    · simpa [Function.update_of_ne hq] using (h.fits q).mono henq hres.ge
  · intro i hi
    rw [hw, ht]
    exact h.fresh i (hcalls.trans hi)
  · rw [hp, ht]
    exact h.account
  · have := total_update Pc.resuming c.loc .loop l
    have := h.resumed
    simp only [hp, hres]
    omega
  · rw [hw, herr]
    exact h.errs

omit [DecidableEq ε] in
/-- The pointers of a callback in a stream have been set. -/
theorem Registered.pointers (h : Registered w s l) {i : Fin n} (hi : i ∈ s.enqueued) :
    s.items i = some i ∧ s.suspendPoint = true := by
  have hlt := ((h.enqueued i).1 hi).1
  rw [h.calls] at hlt
  have hle : l.calls ≤ l.itemsSet := by cases l <;> simp [Pc.itemsSet, Pc.calls]
  refine ⟨h.items i (hlt.trans_le hle), h.tag.resolve_left ?_⟩
  rintro rfl
  exact Nat.not_lt_zero _ hlt

/-- A callback that is not in a stream has not been run. -/
theorem Inv.idle (h : Inv w c) {i : Fin n} (hi : i ∉ c.shared.enqueued) :
    c.loc (.callback i) = .idle := by
  have hfit := h.fits (.callback i)
  generalize c.loc (.callback i) = l at hfit
  cases l with
  | idle => rfl
  | callback | ended => exact absurd hfit hi
  | _ => exact hfit.elim

omit [DecidableEq ε] in
/-- The loop ends behind the last item. -/
theorem Call.more_eq_false {i : ℕ} (hi : w.more i = false) : n ≤ i := by
  unfold Call.more at hi
  cases hb : w.bound <;> simp [hb] at hi
  · exact hi.ge
  · exact hi

/-- Once the task has been resumed, or is about to be, every item has been taken. -/
theorem Inv.taken_of_resumed (h : Inv w c)
    (hs : 0 < c.shared.resumes + total Pc.resuming c.loc) (i : Fin n) : i ∈ c.shared.taken := by
  have hp : c.shared.pending = 0 := by
    have := h.resumed
    split_ifs at this with hp
    · exact hp
    · omega
  have : c.shared.taken.card = Fintype.card (Fin n) := by
    have := h.account
    rw [Fintype.card_fin]
    omega
  exact (Finset.card_eq_iff_eq_univ _).1 this ▸ Finset.mem_univ i

/-- Then every registration call has been made and every slot has been written. -/
theorem Inv.all_of_resumed (h : Inv w c) (hs : 0 < c.shared.resumes + total Pc.resuming c.loc) :
    c.shared.calls = n ∧ ∀ i, i ∈ c.shared.written := by
  have hlt : ∀ i : Fin n, i < c.shared.calls := fun i =>
    lt_of_not_ge fun hi => (h.fresh i hi).2 (h.taken_of_resumed hs i)
  refine ⟨le_antisymm (h.registered.calls ▸ h.registered.le) ?_, fun i => ?_⟩
  · by_contra hn
    exact (hlt ⟨c.shared.calls, not_le.1 hn⟩).ne rfl
  · have := h.notified i (hlt i)
    have ht := h.taken_of_resumed hs i
    match w.stage i (c.loc (w.owner i)), this with
    | some (.write _), this => exact absurd ht this.2.2
    | some .fetchSub, this | some .resume, this | none, this => exact this.1

/-- Every step keeps the invariant. -/
theorem inv_step {a : Unit} {s' : Shared n ε} {l' : Pc n ε} (h : Inv w c)
    (hn : next w p a c.shared (c.loc p) = some (s', l')) :
    Inv w ⟨s', Function.update c.loc p l'⟩ := by
  have hs := step_of_next hn
  have hfit := h.fits p
  have hreg := h.registered
  generalize hl : c.loc p = l at hs hfit
  cases hs with
  | setTag =>
    rw [hl] at hreg
    refine h.setUp ⟨hreg.calls, Nat.zero_le _, .inr rfl, by simp [Pc.itemsSet, Pc.calls],
      hreg.enqueued⟩ trivial subset_rfl ⟨rfl, rfl, rfl, rfl, rfl⟩ (hl ▸ rfl) rfl le_rfl ?_
    intro i hi
    have := hreg.calls
    simp only [Pc.calls] at this hi
    omega
  | more hi =>
    exact h.moved (by simp [hl, Pc.calls, Pc.itemsSet]) trivial (hl ▸ rfl) rfl fun j _ => hl ▸ rfl
  | @left i hi =>
    rw [hl] at hreg
    have hin : i = n := le_antisymm hreg.le (Call.more_eq_false hi)
    exact h.moved (by simp [hl, hin, Pc.calls, Pc.itemsSet]) trivial (hl ▸ rfl) rfl
      fun j _ => hl ▸ rfl
  | @setItem i =>
    rw [hl] at hreg
    refine h.setUp ⟨hreg.calls, hreg.le, .inr (hreg.tag.resolve_left nofun), ?_, hreg.enqueued⟩
      trivial subset_rfl ⟨rfl, rfl, rfl, rfl, rfl⟩ (hl ▸ rfl) rfl le_rfl ?_
    · intro j hj
      by_cases hji : j = i
      · simp [hji]
      · have : (j : ℕ) < i := by
          have := Fin.val_ne_of_ne hji
          simp only [Pc.itemsSet] at hj
          omega
        simpa [hji] using hreg.items j this
    · intro j hj
      have := h.notified j hj
      by_cases ho : w.owner j = .loop
      · rw [ho, hl] at this
        rw [ho, Function.update_self]
        exact this
      · rw [Function.update_of_ne ho]
        exact this
  | @register i =>
    rw [hl] at hreg
    have hci : c.shared.calls = i := hreg.calls
    have hfresh := h.fresh i hci.le
    have hidle := h.idle (i := i) fun hi => by
      have := ((hreg.enqueued i).1 hi).1
      omega
    refine h.setUp ⟨congrArg (· + 1) hreg.calls, i.isLt, .inr (hreg.tag.resolve_left nofun),
      hreg.items, ?_⟩ rfl ?_ ⟨rfl, rfl, rfl, rfl, rfl⟩ (hl ▸ rfl) rfl (Nat.le_succ _) ?_
    · intro j
      have hj := hreg.enqueued j
      by_cases hji : j = i
      · obtain rfl := hji
        split_ifs with hs
        · simp [hs, hci]
        · simp [hs, hj]
      · have : (j : ℕ) ≠ i := Fin.val_ne_of_ne hji
        have hlt : (j : ℕ) < c.shared.calls + 1 ↔ (j : ℕ) < c.shared.calls := by omega
        split_ifs <;> simp [hji, hj, hlt]
    · split_ifs
      · exact Finset.subset_insert ..
      · exact subset_rfl
    · intro j hj
      by_cases hji : j = i
      · obtain rfl := hji
        by_cases hs : w.launch j = w.runtime.success
        · rw [owner_callback.2 ⟨rfl, hs⟩, Function.update_of_ne (by simp), hidle]
          exact ⟨(result_of_success hs).symm, hfresh⟩
        · rw [owner_loop.2 hs, Function.update_self]
          simpa [Call.stage, result_of_failure hs, Notified] using hfresh
      · have hne : (j : ℕ) ≠ i := Fin.val_ne_of_ne hji
        have := h.notified j (by simp only at hj; omega)
        by_cases ho : w.owner j = .loop
        · rw [ho, hl] at this
          rw [ho, Function.update_self]
          simp only [Call.stage, if_neg (Ne.symm hji)]
          exact this
        · rw [Function.update_of_ne ho]
          exact this
  | @fails i err he =>
    obtain rfl : err = w.launch i := hfit
    refine h.moved (by simp [hl, Pc.calls, Pc.itemsSet]) he (hl ▸ rfl) rfl ?_
    intro j _
    rw [hl]
    rfl
  | @succeeds i =>
    refine h.moved (by simp [hl, Pc.calls, Pc.itemsSet]) trivial (hl ▸ rfl) rfl ?_
    intro j hj
    have hji : i ≠ j := by
      rintro rfl
      exact owner_loop.1 hj (Eq.symm hfit)
    simp [hl, Call.stage, hji]
  | @failed i m s' o hm =>
    rw [hl] at hreg
    have hi : (i : ℕ) < i + 1 := Nat.lt_succ_self _
    have hstep := Notify.step_eq (hreg.items i hi) hm
    refine h.notify hstep (by rw [hreg.calls]; exact hi) (owner_loop.2 hfit) ?_ ?_ (hl ▸ rfl) ?_
      (by simp [hl, Call.stage]) ?_ ?_
    · intro _
      cases o <;> simp [hl, Pc.calls, Pc.itemsSet]
    · cases o
      · trivial
      · exact hfit
    · cases o <;> rfl
    · cases o <;> simp [Call.stage]
    · intro j hj _
      cases o <;> simp [hl, Call.stage, Ne.symm hj]
  | run hi =>
    refine h.moved nofun hi (hl ▸ rfl) rfl fun j hj => ?_
    obtain ⟨rfl, -⟩ := owner_callback.1 hj
    rw [hl]
    rfl
  | @callback i m s' o hm =>
    have hi := (hreg.enqueued i).1 hfit
    have hstep := Notify.step_eq (hreg.pointers hfit).1 hm
    refine h.notify hstep hi.1 (owner_callback.2 ⟨rfl, hi.2⟩) nofun ?_ (hl ▸ rfl) ?_
      (by simp [hl, Call.stage]) ?_ ?_
    · have := hstep.frame.2.2.1
      cases o <;> simpa [Call.Fits, this] using hfit
    · cases o <;> rfl
    · cases o <;> rfl
    · intro j hj ho
      exact absurd (owner_callback.1 ho).1 hj
  | resumed hs =>
    exact h.moved nofun ⟨hs, List.nil_prefix⟩ (hl ▸ rfl) rfl fun j hj => absurd hj owner_task
  | @copy out ho =>
    obtain ⟨hs, hpre⟩ := hfit
    refine h.moved nofun ⟨hs, ?_⟩ (hl ▸ rfl) rfl fun j hj => absurd hj owner_task
    have := List.concat_get_prefix hpre (by simpa using ho)
    rw [h.errs _ ((h.all_of_resumed (by omega)).2 _)]
    simpa using this
  | returns ho =>
    obtain ⟨hs, hpre⟩ := hfit
    exact h.moved nofun ⟨hs, hpre.eq_of_length_le (by simpa using ho)⟩ (hl ▸ rfl) rfl
      fun j hj => absurd hj owner_task

/-- The invariant holds where the task has been suspended. -/
theorem inv_start (hn : 0 < n) : Inv w (start w) where
  registered := ⟨rfl, Nat.zero_le _, .inl rfl, by simp [start, Party.entry, Pc.itemsSet, Pc.calls],
    by simp [start]⟩
  fits p := by cases p <;> trivial
  notified i hi := absurd hi (Nat.not_lt_zero _)
  fresh i _ := by simp [start]
  account := by simp [start]
  resumed := by
    have : total Pc.resuming (Party.entry (n := n) (ε := ε)) = 0 :=
      total_eq_zero.2 fun p => by cases p <;> rfl
    simp [start, this, hn.ne']
  errs := by simp [start]

/-- The invariant holds in every run. -/
theorem inv_of_reachable (hn : 0 < n) (h : Reachable (next w) (start w) c) : Inv w c :=
  h.invariant (inv_start hn) fun _ _ _ _ _ _ hI _ hs => inv_step hI hs

/-! ### Every run ends -/

/-- The steps all parties can still take. -/
def work (c : Config (Party n) (Shared n ε) (Pc n ε)) : ℕ := total Pc.work c.loc

/-- Every step uses up some of the work left. -/
theorem work_step {a : Unit} {c' : Config (Party n) (Shared n ε) (Pc n ε)}
    (hs : c.step (next w) p a = some c') : work c' < work c := by
  obtain ⟨s, l, hn, rfl⟩ := Config.step_eq_some.1 hs
  have hlt : l.work < (c.loc p).work := by
    generalize c.loc p = l₀ at hn
    cases step_of_next hn with
    | setTag | left | run | resumed | returns => simp [Pc.work, Notify.work]
    | more | copy =>
      simp only [Pc.work, List.length_append, List.length_singleton]
      omega
    | @setItem i | @register i | @fails i | @succeeds i =>
      have := i.isLt
      simp only [Pc.work, Notify.work]
      omega
    | @failed i _ _ o hm =>
      have := i.isLt
      have := Notify.work_step hm
      cases o <;> simp only [Option.elim, Pc.work] at * <;> omega
    | @callback _ _ _ o hm =>
      have := Notify.work_step hm
      cases o <;> simp only [Option.elim, Pc.work, Notify.work] at * <;> omega
  have := total_update Pc.work c.loc p l
  simp only [work]
  omega

/-- The loop is stuck only at its end. -/
theorem Inv.left_of_stuck (h : Inv w c) (hs : next w .loop () c.shared (c.loc .loop) = none) :
    c.loc .loop = .left := by
  have hreg := h.registered
  have hle := hreg.le
  have hfit := h.fits .loop
  generalize c.loc .loop = l at hs hfit hreg hle
  cases l with
  | left => rfl
  | test i =>
    simp only [next] at hs
    split_ifs at hs with hm hi
    have hin : i = n := le_antisymm hle (not_lt.1 hi)
    simp only [hin, Call.more] at hm
    cases hb : w.bound <;> simp [hb] at hm
  | failed i m =>
    have hi : (i : ℕ) < i + 1 := Nat.lt_succ_self _
    have := Notify.step_isSome (hreg.items i hi) (hreg.tag.resolve_left nofun) m
    simp only [next, Option.map_eq_none_iff] at hs
    simp [hs] at this
  | setTag | setItem | register | check => simp [next] at hs
  | idle | callback | ended | suspended | copy | returned => exact hfit.elim

/-- A callback in a stream is stuck only when it has ended. -/
theorem Inv.ended_of_stuck (h : Inv w c) {i : Fin n} (hi : i ∈ c.shared.enqueued)
    (hs : next w (.callback i) () c.shared (c.loc (.callback i)) = none) :
    c.loc (.callback i) = .ended := by
  have hfit := h.fits (.callback i)
  obtain ⟨hset, htag⟩ := h.registered.pointers hi
  generalize c.loc (.callback i) = l at hs hfit
  cases l with
  | ended => rfl
  | idle => simp [next, hi] at hs
  | callback m =>
    have := Notify.step_isSome hset htag m
    simp only [next, Option.map_eq_none_iff] at hs
    simp [hs] at this
  | _ => exact hfit.elim

/-- Where the loop has dealt with all items and every callback in a stream has ended, the
task has been resumed. -/
theorem Inv.resumes_of_ended (h : Inv w c) (hcalls : c.shared.calls = n)
    (hstage : ∀ i, w.stage i (c.loc .loop) = none) (hloop : (c.loc .loop).resuming = 0)
    (hcb : ∀ i ∈ c.shared.enqueued, c.loc (.callback i) = .ended) : c.shared.resumes = 1 := by
  -- every item has been dealt with by its owner, who has ended
  have htaken : c.shared.taken.card = n := by
    have hall : ∀ i, i ∈ c.shared.taken := by
      intro i
      have hi := h.notified i (hcalls.symm ▸ i.isLt)
      by_cases hs : w.launch i = w.runtime.success
      · rw [owner_callback.2 ⟨rfl, hs⟩,
          hcb i ((h.registered.enqueued i).2 ⟨hcalls.symm ▸ i.isLt, hs⟩)] at hi
        exact hi.2
      · rw [owner_loop.2 hs, hstage] at hi
        exact hi.2
    simp [Finset.eq_univ_of_forall hall]
  have hquiet : total Pc.resuming c.loc = 0 := by
    refine total_eq_zero.2 fun p => ?_
    rcases p with - | - | i
    · have hfit := h.fits .task
      generalize c.loc .task = l at hfit
      cases l <;> first | rfl | exact hfit.elim
    · exact hloop
    · by_cases hi : i ∈ c.shared.enqueued
      · rw [hcb i hi]
        rfl
      · rw [h.idle hi]
        rfl
  have := h.resumed
  rwa [hquiet, if_pos (by have := h.account; omega)] at this

/-- Where no party can step, everybody has ended and the task has been resumed. -/
theorem Inv.resumed_of_stuck (h : Inv w c) (hs : ∀ p a, c.step (next w) p a = none) :
    c.shared.resumes = 1 ∧ c.loc .task = .returned (List.ofFn w.result) := by
  have hnone : ∀ p, next w p () c.shared (c.loc p) = none := fun p => by
    simpa [Config.step] using hs p ()
  have hloop := h.left_of_stuck (hnone .loop)
  have hresumes : c.shared.resumes = 1 := by
    refine h.resumes_of_ended ?_ (fun i => ?_) ?_ fun i hi => h.ended_of_stuck hi (hnone _)
    · rw [h.registered.calls, hloop]
      rfl
    · rw [hloop]
      rfl
    · rw [hloop]
      rfl
  refine ⟨hresumes, ?_⟩
  have hfit := h.fits .task
  have htask := hnone .task
  generalize c.loc .task = l at hfit htask
  cases l with
  | returned out => rw [hfit.2]
  | suspended => simp [next, hresumes] at htask
  | copy => simp [next] at htask
  | _ => exact hfit.elim

/-- **The task is resumed exactly once, after the last result.**  Whatever the
registrations return and in whatever order the callbacks run, `pending` does not fall
below zero, and the task is resumed at most once, when all `n` registration calls have
been made and every slot holds the result of its stream; that is what the task returns.
Every step uses up some of the work left, and where nobody can step any more the task has
been resumed and has returned. -/
theorem resumed_once (hn : 0 < n) (h : Reachable (next w) (start w) c) :
    0 ≤ c.shared.pending ∧ c.shared.resumes ≤ 1 ∧
      ((0 < c.shared.resumes ∨ ∃ p, 0 < (c.loc p).resuming) →
        c.shared.calls = n ∧ ∀ i, i ∈ c.shared.written ∧ c.shared.errs i = w.result i) ∧
      (∀ out, c.loc .task = .returned out → c.shared.resumes = 1 ∧ out = List.ofFn w.result) ∧
      (∀ p a c', c.step (next w) p a = some c' → work c' < work c) ∧
      ((∀ p a, c.step (next w) p a = none) →
        c.shared.resumes = 1 ∧ c.loc .task = .returned (List.ofFn w.result)) := by
  have hI := inv_of_reachable hn h
  have hle : c.shared.resumes ≤ 1 := by
    have := hI.resumed
    split_ifs at this <;> omega
  refine ⟨?_, hle, fun hs => ?_, fun out hout => ?_, fun _ _ _ => work_step,
    hI.resumed_of_stuck⟩
  · have := hI.account
    have := c.shared.taken.card_le_univ
    rw [Fintype.card_fin] at this
    omega
  · have hpos : 0 < c.shared.resumes + total Pc.resuming c.loc := by
      rcases hs with hs | hs
      · omega
      · have := total_pos.2 hs
        omega
    obtain ⟨hcalls, hwritten⟩ := hI.all_of_resumed hpos
    exact ⟨hcalls, fun i => ⟨hwritten i, hI.errs i (hwritten i)⟩⟩
  · have hfit := hI.fits .task
    rw [hout] at hfit
    obtain ⟨hpos, ho⟩ := hfit
    exact ⟨le_antisymm hle hpos, ho⟩

/-- A call with one stream given twice, whose second registration fails with error 3 and
whose first callback is called with status 7. -/
def twice : Call 2 ℕ ℕ :=
  hipWaitForRange 0 ⟨0, fun _ _ _ => 0, fun _ _ => 0, fun i _ => if i = 1 then 3 else 0,
    fun _ _ => 7⟩ fun _ => 5

/-- The first callback runs before its registration has returned, and the loop takes the
last item off. -/
def earlyCallback : List (Party 2 × Unit) :=
  turns [(.loop, 4, ()), (.callback 0, 3, ()), (.loop, 9, ()), (.task, 4, ())]

/-- Both results arrive, and the task is resumed by the loop. -/
theorem resumed_once_twice : ∃ c, Reachable (next twice) (start twice) c ∧
    0 ≤ c.shared.pending ∧ c.shared.resumes = 1 ∧ c.loc .task = .returned [7, 3] := by
  refine ⟨_, reachable_of_exec (l := earlyCallback) rfl, ?_⟩
  have hreach : Reachable (next twice) (start twice) _ :=
    reachable_of_exec (l := earlyCallback) rfl
  have h := resumed_once (by decide : 0 < 2) hreach
  exact ⟨h.1, (h.2.2.2.1 [7, 3] rfl).1, rfl⟩

end WaitFor
end CoopSync
