/-
# The ledger of a wait queue

Four facts about a queue and all the tasks on it (`Ledger`): one task is in the
critical section, a suspension belongs to the task that made it, a waiter in the
list or in somebody's hands is a task that has pushed itself and not continued,
and every suspension made so far is in exactly one place.  They hold of a new
queue, and every effect of the code keeps them (`Ledger.effect`).

The primitives use the queue through the consequences at the end: where a pushed
task can be (`Ledger.pushed_cases`), and how the number of pushed tasks compares
with the length of the list (`Ledger.length_le_pushed`,
`Ledger.exists_pushed_notMem`).
-/

import CoopSync.WaitQueue.Effect

namespace CoopSync
namespace WaitQueue

variable {τ : Type*} [DecidableEq τ] [Fintype τ]

/-- How often `sp` is with its callback or in the hands of its task. -/
def View.carries (sp : SuspendPoint τ) (v : View τ) : ℕ :=
  (if v.stage = .callback sp then 1 else 0) + v.hands.count sp

/-- One if suspension `sp` has been made, by the count of suspensions. -/
def made (suspends : τ → ℕ) (sp : SuspendPoint τ) : ℕ :=
  if sp.call < suspends sp.task then 1 else 0

omit [Fintype τ] in
/-- The next suspension of `t` adds one to what has been made. -/
theorem made_update (suspends : τ → ℕ) (t : τ) (sp : SuspendPoint τ) :
    made (Function.update suspends t (suspends t + 1)) sp =
      made suspends sp + if (⟨t, suspends t⟩ : SuspendPoint τ) = sp then 1 else 0 := by
  obtain ⟨u, k⟩ := sp
  simp only [made, SuspendPoint.mk.injEq]
  rcases eq_or_ne u t with rfl | hu
  · simp only [Function.update_self, true_and]
    split_ifs <;> omega
  · simp [Function.update_of_ne hu, hu.symm]

/-- What holds of a queue and of all its tasks. -/
structure Ledger (q : Queue τ) (v : τ → View τ) : Prop where
  /-- The critical section has one task, the one the lock names. -/
  mutex : ∀ t, (v t).critical = true ↔ q.waitersMutex = some t
  /-- A task is in its own latest suspension. -/
  own : ∀ t sp, (v t).stage.suspendPoint = some sp → sp.task = t ∧ sp.call + 1 = q.suspends t
  /-- A waiter is a task that pushed itself and did not continue. -/
  placed : ∀ sp, (sp ∈ q.waiters ∨ ∃ u, sp ∈ (v u).hands) → (v sp.task).stage = .pushed sp
  /-- Every suspension made is in one place, and no other suspension is in any. -/
  once : ∀ sp, total (View.carries sp) v + q.waiters.count sp + q.resumed.count sp =
    made q.suspends sp

namespace Ledger

/-- The ledger of an empty queue. -/
theorem init : Ledger (Queue.init τ) fun _ => View.idle where
  mutex t := by simp [View.idle, Queue.init]
  own t sp h := by simp [View.idle, Stage.suspendPoint] at h
  placed sp h := by simp [View.idle, Queue.init] at h
  once sp := by
    rw [total_const_zero (by simp [View.carries, View.idle])]
    simp [Queue.init, made]

variable {q q' : Queue τ} {v : τ → View τ} {t : τ} {v' : View τ}

/-- After an effect the lock is still held by whoever is in the critical section. -/
theorem mutex_effect (h : Ledger q v) (e : Effect t q (v t) q' v') (u : τ) :
    (Function.update v t v' u).critical = true ↔ q'.waitersMutex = some u := by
  have hu := h.mutex u
  have ht := h.mutex t
  generalize hv : v t = vt at e ht
  rcases eq_or_ne u t with rfl | hne
  · rw [hv] at hu
    rw [Function.update_self]
    cases e <;> simp_all [Queue.release, Queue.resume]
  · rw [Function.update_of_ne hne]
    have hne' : t ≠ u := hne.symm
    cases e <;> simp_all [Queue.release, Queue.resume]

/-- After an effect a suspend point is still that of its task's last suspension. -/
theorem own_effect (h : Ledger q v) (e : Effect t q (v t) q' v') (u : τ) (sp : SuspendPoint τ)
    (hs : (Function.update v t v' u).stage.suspendPoint = some sp) :
    sp.task = u ∧ sp.call + 1 = q'.suspends u := by
  have hu := h.own u sp
  generalize hv : v t = vt at e
  rcases eq_or_ne u t with rfl | hne
  · rw [hv] at hu
    rw [Function.update_self] at hs
    cases e with
    | suspend =>
      obtain rfl := Option.some.inj hs
      simp
    | «continue» => simp [Stage.suspendPoint] at hs
    | _ => exact hu hs
  · rw [Function.update_of_ne hne] at hs
    cases e with
    | suspend => simpa [Function.update_of_ne hne] using hu hs
    | _ => exact hu hs

/-- A suspension is at most once in the list, and not in the list, in hands or
with its callback once it was resumed. -/
theorem count_le (h : Ledger q v) (sp : SuspendPoint τ) :
    total (View.carries sp) v + q.waiters.count sp + q.resumed.count sp ≤ 1 := by
  have := h.once sp
  unfold made at this
  split_ifs at this <;> omega

/-- An effect leaves every suspend point in one place: at its task, in the list, in a hand or
resumed. -/
theorem once_effect (h : Ledger q v) (e : Effect t q (v t) q' v') (sp : SuspendPoint τ) :
    total (View.carries sp) (Function.update v t v') + q'.waiters.count sp +
      q'.resumed.count sp = made q'.suspends sp := by
  have hsp := h.once sp
  have hup := total_update (View.carries sp) v t v'
  generalize hv : v t = vt at e hup
  cases e with
  | stay => omega
  | acquire | release =>
    simp only [View.carries, Queue.release] at hup ⊢
    omega
  | suspend =>
    simp only [View.carries, Stage.callback.injEq, reduceCtorEq, if_false] at hup
    simp only [made_update]
    omega
  | push =>
    simp only [View.carries, Stage.callback.injEq, reduceCtorEq, if_false] at hup
    simp only [List.count_append, List.count_singleton, beq_iff_eq]
    omega
  | take k =>
    have : (q.waiters.take k).count sp + (q.waiters.drop k).count sp = q.waiters.count sp := by
      rw [← List.count_append, List.take_append_drop]
    simp only [View.carries, List.count_append] at hup
    simp only
    omega
  | resume =>
    simp only [View.carries, List.count_cons, beq_iff_eq] at hup
    simp only [Queue.resume, List.count_cons, beq_iff_eq]
    omega
  | resumeSelf =>
    simp only [View.carries, Stage.callback.injEq, reduceCtorEq, if_false] at hup
    simp only [Queue.resume, List.count_cons, beq_iff_eq]
    omega
  | «continue» hs hr =>
    rcases hs with rfl | rfl <;>
    · simp only [View.carries, reduceCtorEq, if_false] at hup
      omega

/-- A suspension that was resumed is not in the list and in nobody's hands. -/
theorem not_placed_of_resumed (h : Ledger q v) {sp : SuspendPoint τ} (hr : sp ∈ q.resumed) :
    ¬(sp ∈ q.waiters ∨ ∃ u, sp ∈ (v u).hands) := by
  have hle := h.count_le sp
  have hr := List.count_pos_iff.2 hr
  rintro (hw | ⟨u, hu⟩)
  · have := List.count_pos_iff.2 hw
    omega
  · have hu := List.count_pos_iff.2 hu
    have := le_total (View.carries sp) v u
    simp only [View.carries] at this
    omega

/-- A suspension that its callback still has was not resumed. -/
theorem not_resumed_of_callback (h : Ledger q v) {sp : SuspendPoint τ}
    (hs : (v t).stage = .callback sp) : sp ∉ q.resumed := by
  intro hr
  have hle := h.count_le sp
  have hr := List.count_pos_iff.2 hr
  have := le_total (View.carries sp) v t
  simp only [View.carries, hs, if_true] at this
  omega

/-- A waiter is in one pair of hands. -/
theorem hands_unique (h : Ledger q v) {sp : SuspendPoint τ} {t u : τ} (ht : sp ∈ (v t).hands)
    (hu : sp ∈ (v u).hands) : t = u := by
  by_contra hne
  have hle := h.count_le sp
  have ht := List.count_pos_iff.2 ht
  have hu := List.count_pos_iff.2 hu
  have := add_le_total (View.carries sp) v hne
  simp only [View.carries] at this
  omega

/-- A waiter that has been taken off the list is not in it. -/
theorem notMem_waiters_of_hands (h : Ledger q v) {sp : SuspendPoint τ} {t : τ}
    (ht : sp ∈ (v t).hands) : sp ∉ q.waiters := by
  intro hw
  have hle := h.count_le sp
  have ht := List.count_pos_iff.2 ht
  have hw := List.count_pos_iff.2 hw
  have := le_total (View.carries sp) v t
  simp only [View.carries] at this
  omega

/-- Nobody holds a waiter twice. -/
theorem hands_nodup (h : Ledger q v) (t : τ) : (v t).hands.Nodup :=
  List.nodup_iff_count_le_one.2 fun sp => by
    have hle := h.count_le sp
    have := le_total (View.carries sp) v t
    simp only [View.carries] at this
    omega

/-- After an effect a waiter in the list or in a hand has still been pushed by its task. -/
theorem placed_effect (h : Ledger q v) (e : Effect t q (v t) q' v') (sp : SuspendPoint τ)
    (hsp : sp ∈ q'.waiters ∨ ∃ u, sp ∈ (Function.update v t v' u).hands) :
    (Function.update v t v' sp.task).stage = .pushed sp := by
  have hsplit : sp ∈ q'.waiters ∨ sp ∈ v'.hands ∨ ∃ u, u ≠ t ∧ sp ∈ (v u).hands := by
    rcases hsp with hw | ⟨u, hu⟩
    · exact .inl hw
    · rcases eq_or_ne u t with rfl | hne
      · exact .inr (.inl (by simpa using hu))
      · exact .inr (.inr ⟨u, hne, by simpa [Function.update_of_ne hne] using hu⟩)
  -- a waiter after the step was one before it, but for the one pushed
  have hold : (sp ∈ q.waiters ∨ ∃ u, sp ∈ (v u).hands) ∨
      (v t).stage = .callback sp ∧ v'.stage = .pushed sp := by
    rcases hsplit with hw | hh | ⟨u, -, hu⟩
    · rcases e.placed (.inl hw) with hw | hh | hp
      exacts [.inl (.inl hw), .inl (.inr ⟨t, hh⟩), .inr hp]
    · rcases e.placed (.inr hh) with hw | hh | hp
      exacts [.inl (.inl hw), .inl (.inr ⟨t, hh⟩), .inr hp]
    · exact .inl (.inr ⟨u, hu⟩)
  rcases hold with hold | ⟨hc, hp⟩
  · have hst := h.placed sp hold
    rcases eq_or_ne sp.task t with ht | hne
    · rw [ht] at hst ⊢
      rw [Function.update_self]
      exact (e.stage_pushed hst).resolve_right fun hr => h.not_placed_of_resumed hr hold
    · rwa [Function.update_of_ne hne]
  · obtain ⟨ht, -⟩ := h.own t sp (by simp [hc, Stage.suspendPoint])
    rw [ht, Function.update_self, hp]

/-- **The ledger balances after every effect.** -/
theorem effect (h : Ledger q v) (e : Effect t q (v t) q' v') :
    Ledger q' (Function.update v t v') :=
  ⟨h.mutex_effect e, h.own_effect e, h.placed_effect e, h.once_effect e⟩

/-- **The ledger of a program that uses a queue.**  A program whose every step is
an effect on its queue `f` and on what its tasks do there, `g`, keeps the ledger
of that queue. -/
theorem of_reach {α σ ℓ : Type*} {next : Next τ α σ ℓ} {ok : Config τ σ ℓ → τ → α → Prop}
    {c₀ c : Config τ σ ℓ} (f : σ → Queue τ) (g : ℓ → View τ) (hq : f c₀.shared = Queue.init τ)
    (hv : ∀ t, g (c₀.loc t) = View.idle)
    (hstep : ∀ t a s l s' l', next t a s l = some (s', l') → Effect t (f s) (g l) (f s') (g l'))
    (h : Reach next ok c₀ c) : Ledger (f c.shared) fun t => g (c.loc t) := by
  refine h.invariant (I := fun c => Ledger (f c.shared) fun t => g (c.loc t)) ?_ ?_
  · simpa only [hq, hv] using Ledger.init
  · intro c t a s l _ ih _ hn
    have := ih.effect (t := t) (hstep t a _ _ _ _ hn)
    have hg : (fun u => g (Function.update c.loc t l u)) =
        Function.update (fun u => g (c.loc u)) t (g l) :=
      funext fun u => Function.apply_update (fun _ => g) c.loc t l u
    simpa only [hg] using this

/-! ### What the primitives use -/

/-- Only one task is in the critical section. -/
theorem critical_unique (h : Ledger q v) {t u : τ} (ht : (v t).critical = true)
    (hu : (v u).critical = true) : t = u :=
  Option.some.inj (((h.mutex t).1 ht).symm.trans ((h.mutex u).1 hu))

/-- While one task is in the critical section and does not contribute to `w`, an
account of tasks in the critical section, nobody does. -/
theorem total_eq_zero_of_critical {ℓ : Type*} {g : ℓ → View τ} {w : ℓ → ℕ} {loc : τ → ℓ}
    (h : Ledger q fun t => g (loc t)) (hw : ∀ l, 0 < w l → (g l).critical = true)
    (hc : (g (loc t)).critical = true) (ht : w (loc t) = 0) : total w loc = 0 := by
  by_contra hne
  obtain ⟨u, hu⟩ := total_pos.1 (Nat.pos_of_ne_zero hne)
  obtain rfl := h.critical_unique hc (hw _ hu)
  omega

/-- Nobody is in the list twice. -/
theorem waiters_nodup (h : Ledger q v) : q.waiters.Nodup :=
  List.nodup_iff_count_le_one.2 fun sp => by have := h.count_le sp; omega

/-- Nothing has been resumed twice. -/
theorem resumed_nodup (h : Ledger q v) : q.resumed.Nodup :=
  List.nodup_iff_count_le_one.2 fun sp => by have := h.count_le sp; omega

/-- A suspension a task is in has been made. -/
theorem made_eq_one (h : Ledger q v) {sp : SuspendPoint τ}
    (hs : (v t).stage.suspendPoint = some sp) : made q.suspends sp = 1 := by
  obtain ⟨rfl, hc⟩ := h.own t sp hs
  exact if_pos (by omega)

/-- **Where a pushed task is**: still in the list, in the hands of a resumer, or
resumed. -/
theorem pushed_cases (h : Ledger q v) {sp : SuspendPoint τ} (hs : (v t).stage = .pushed sp) :
    sp ∈ q.waiters ∨ (∃ u, sp ∈ (v u).hands) ∨ sp ∈ q.resumed := by
  have hsp : (v t).stage.suspendPoint = some sp := by rw [hs]; rfl
  have honce := h.once sp
  rw [h.made_eq_one hsp] at honce
  rcases Nat.eq_zero_or_pos (total (View.carries sp) v) with h0 | hpos
  · rcases Nat.eq_zero_or_pos (q.waiters.count sp) with hw | hw
    · exact .inr (.inr (List.count_pos_iff.1 (by omega)))
    · exact .inl (List.count_pos_iff.1 hw)
  · obtain ⟨u, hu⟩ := total_pos.1 hpos
    refine .inr (.inl ⟨u, List.count_pos_iff.1 ?_⟩)
    -- a callback that still carries `sp` would be that of task `t`, which has pushed
    have hne : (v u).stage ≠ .callback sp := fun hc => by
      obtain ⟨hu, -⟩ := h.own u sp (by rw [hc]; rfl)
      obtain ⟨ht, -⟩ := h.own t sp hsp
      rw [← hu, ht, hs] at hc
      simp at hc
    simpa [View.carries, hne] using hu

omit [DecidableEq τ] in
/-- The total of `pushed` is the number of tasks that have pushed. -/
theorem total_pushed (v : τ → View τ) :
    total View.pushed v = (Finset.univ.filter fun t => 0 < (v t).pushed).card := by
  rw [total, Finset.card_filter]
  refine Finset.sum_congr rfl fun t _ => ?_
  cases hs : (v t).stage <;> simp [View.pushed, hs]

/-- The tasks in the list are as many as it is long. -/
theorem card_waiting (h : Ledger q v) :
    (Finset.univ.filter fun t => (v t).waitingIn q = true).card = q.waiters.length := by
  have hinj : ∀ sp ∈ q.waiters, ∀ sp' ∈ q.waiters, sp.task = sp'.task → sp = sp' := by
    intro sp hsp sp' hsp' ht
    have h₁ := h.placed sp (.inl hsp)
    rw [ht, h.placed sp' (.inl hsp')] at h₁
    exact (Stage.pushed.inj h₁).symm
  have hnd : (q.waiters.map SuspendPoint.task).Nodup := h.waiters_nodup.map_on hinj
  rw [← List.length_map (f := SuspendPoint.task), ← List.toFinset_card_of_nodup hnd]
  congr 1
  ext t
  simp only [Finset.mem_filter, Finset.mem_univ, true_and, View.waitingIn_iff, List.mem_toFinset,
    List.mem_map]
  constructor
  · rintro ⟨sp, hst, hsp⟩
    exact ⟨sp, hsp, (h.own t sp (by rw [hst]; rfl)).1⟩
  · rintro ⟨sp, hsp, rfl⟩
    exact ⟨sp, h.placed sp (.inl hsp), hsp⟩

/-- Every waiter in the list is a pushed task. -/
theorem length_le_pushed (h : Ledger q v) : q.waiters.length ≤ total View.pushed v := by
  rw [← h.card_waiting, total_pushed]
  refine Finset.card_le_card fun t ht => ?_
  obtain ⟨sp, hst, -⟩ := View.waitingIn_iff.1 (Finset.mem_filter.1 ht).2
  exact Finset.mem_filter.2 ⟨Finset.mem_univ _, View.pushed_pos.2 ⟨sp, hst⟩⟩

/-- Tasks whose suspensions are in a list are no more than the list is long. -/
theorem card_le_length (h : Ledger q v) (s : Finset τ) (l : List (SuspendPoint τ))
    (hs : ∀ t ∈ s, ∃ sp ∈ l, (v t).stage = .pushed sp) : s.card ≤ l.length := by
  calc s.card ≤ (l.map SuspendPoint.task).toFinset.card := by
        refine Finset.card_le_card fun t ht => ?_
        obtain ⟨sp, hsp, hst⟩ := hs t ht
        obtain ⟨htask, -⟩ := h.own t sp (by rw [hst]; rfl)
        exact List.mem_toFinset.2 (List.mem_map.2 ⟨sp, hsp, htask⟩)
    _ ≤ (l.map SuspendPoint.task).length := List.toFinset_card_le _
    _ = l.length := List.length_map _

/-- If more tasks are pushed than the list is long, one of them was taken off the
list. -/
theorem exists_pushed_notMem (h : Ledger q v) (hlt : q.waiters.length < total View.pushed v) :
    ∃ t sp, (v t).stage = .pushed sp ∧ sp ∉ q.waiters := by
  by_contra hall
  push Not at hall
  refine (h.card_le_length (Finset.univ.filter fun t => 0 < (v t).pushed)
    q.waiters fun t ht => ?_).not_gt (total_pushed v ▸ hlt)
  obtain ⟨sp, hsp⟩ := View.pushed_pos.1 (Finset.mem_filter.1 ht).2
  exact ⟨sp, hall t sp hsp, hsp⟩

/-- **How many tasks are pushed**: no more than are in the list, in hands, or
resumed. -/
theorem pushed_le (h : Ledger q v) :
    total View.pushed v ≤ q.waiters.length + total (fun v => v.hands.length) v +
      (Finset.univ.filter fun t => (v t).wokenIn q = true).card := by
  set s := Finset.univ.filter fun t => 0 < (v t).pushed with hs
  set woken := Finset.univ.filter fun t => (v t).wokenIn q = true
  let l := q.waiters ++ Finset.univ.toList.flatMap fun u => (v u).hands
  have hsub : (s \ woken).card ≤ l.length := by
    refine h.card_le_length _ _ fun t ht => ?_
    obtain ⟨hts, htw⟩ := Finset.mem_sdiff.1 ht
    obtain ⟨sp, hsp⟩ := View.pushed_pos.1 (Finset.mem_filter.1 hts).2
    refine ⟨sp, List.mem_append.2 ?_, hsp⟩
    rcases h.pushed_cases hsp with hw | ⟨u, hu⟩ | hr
    · exact .inl hw
    · exact .inr (List.mem_flatMap.2 ⟨u, by simp, hu⟩)
    · exact absurd (Finset.mem_filter.2 ⟨Finset.mem_univ t, by simp [View.wokenIn, hsp, hr]⟩) htw
  have hl : l.length = q.waiters.length + total (fun v => v.hands.length) v := by
    simp only [l, List.length_append, List.length_flatMap, total]
    rw [Finset.sum_map_toList]
  calc total View.pushed v = s.card := total_pushed v
    _ ≤ (s \ woken).card + woken.card := Finset.card_le_card_sdiff_add_card
    _ ≤ l.length + woken.card := Nat.add_le_add_right hsub _
    _ = _ := by rw [hl]

end Ledger

end WaitQueue
end CoopSync
