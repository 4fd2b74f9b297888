import GzOS.SchedulerInvariant

/-!
# What an operation does to run levels

A level rises by one when the quantum of the current thread runs out, falls by one when
a suspended thread is resumed, and becomes `-1` when the thread is removed. Nothing but
a removal moves the level of a pinned thread.
-/
namespace GzOS.Scheduling
open Runs State Except

inductive LevelMove (s : State) (op : Op) (t : ℕ) (d : PolicyData) : ℤ → Prop
  | same : LevelMove s op t d d.runLevel
  | expired (hop : op = .schedule) (hc : s.currentThread = some t)
      (hy : d.yieldRequested = false) (hq : d.quantum ≤ 1) (hp : d.isPinned = false) :
      LevelMove s op t d (d.runLevel + 1)
  | resumed (hop : op = .resume t) (hst : s.state t = .suspended) (hp : d.isPinned = false)
      (hl : 0 < d.runLevel) :
      LevelMove s op t d (d.runLevel - 1)
  | removed (hop : op = .removeThread t) : LevelMove s op t d (-1)

lemma bumpedLevel_cases (d : PolicyData) :
    bumpedLevel d = d.runLevel ∨ (d.isPinned = false ∧ bumpedLevel d = d.runLevel + 1) := by
  unfold bumpedLevel
  simp only
  split_ifs with h1 h2 h3
  · exact absurd rfl h2.2
  · exact .inl rfl
  · exact .inr ⟨h3.1, rfl⟩
  · exact .inl rfl

lemma resumedLevel_cases (d : PolicyData) :
    resumedLevel d = d.runLevel ∨
      (d.isPinned = false ∧ 0 < d.runLevel ∧ resumedLevel d = d.runLevel - 1) := by
  unfold resumedLevel
  split_ifs with h
  · exact .inr ⟨h.1, h.2, rfl⟩
  · exact .inl rfl

variable {s s' : State} {t : ℕ} {d : PolicyData} {op : Op}

lemma data_prepared {s0 : State} (hp : Prepared s s0) (hd : s.data t = some d) :
    ∃ d', s0.data t = some d' ∧ d'.isPinned = d.isPinned ∧
      LevelMove s .schedule t d d'.runLevel := by
  have hother : ∀ c e i, t ≠ c → (s.requeue c e i).data t = some d := by
    intro c e i hne
    simpa [requeue, hne] using hd
  cases hp with
  | vacant _ => exact ⟨d, hd, rfl, .same⟩
  | @yielded c i e hc _ he hy _ _ =>
    by_cases htc : t = c
    · subst htc
      obtain rfl : d = e := by simpa [hd] using he
      exact ⟨yieldedData d, by simp [requeue], rfl, .same⟩
    · exact ⟨d, hother c _ i htc, rfl, .same⟩
  | @expired c i e hc _ he hy hq _ _ =>
    by_cases htc : t = c
    · subst htc
      obtain rfl : d = e := by simpa [hd] using he
      refine ⟨expiredData d i, by simp [requeue], rfl, ?_⟩
      change LevelMove s .schedule t d (bumpedLevel d)
      rcases bumpedLevel_cases d with hb | ⟨hpin, hb⟩
      · exact hb ▸ .same
      · exact hb ▸ .expired rfl hc hy hq hpin
    · exact ⟨d, hother c _ i htc, rfl, .same⟩

lemma data_schedule (hs : schedule s = .ok s') (hd : s.data t = some d) :
    ∃ d', s'.data t = some d' ∧ d'.isPinned = d.isPinned ∧
      LevelMove s .schedule t d d'.runLevel := by
  rcases schedule_cases hs with ⟨s0, u, i, rest, hp, _, _, rfl⟩ | ⟨c, e, hc, rfl⟩
  · simpa using data_prepared hp hd
  by_cases htc : t = c
  · subst htc
    obtain rfl : d = e := by simpa [hd] using hc.data
    exact ⟨{ d with quantum := d.quantum - 1 }, by simp, rfl, .same⟩
  · exact ⟨d, by simpa [htc] using hd, rfl, .same⟩

lemma data_schedule_vacant {s s' : State} (hs : schedule s = .ok s')
    (hv : ∀ c, s.currentThread = some c → s.state c = .terminated ∨ s.state c = .suspended)
    (t : ℕ) : s'.data t = s.data t := by
  rcases schedule_cases hs with ⟨s0, u, i, rest, hp, _, _, rfl⟩ | ⟨c, e, hc, rfl⟩
  · cases hp with
    | vacant _ => simp
    | yielded hc ha _ _ _ _ => exact absurd (hv _ hc) ha
    | expired hc ha _ _ _ _ _ => exact absurd (hv _ hc) ha
  · exact absurd (hv c hc.current) hc.active

lemma suspendOnly_data (hs : suspendOnly s t = .ok s') (u : ℕ) : s'.data u = s.data u := by
  rcases suspendOnly_ok hs with ⟨_, rfl⟩ | ⟨_, i, _, _, rfl⟩
  · rfl
  · simp

lemma suspendOnly_inactive (hs : suspendOnly s t = .ok s') :
    s'.state t = .terminated ∨ s'.state t = .suspended := by
  rcases suspendOnly_ok hs with ⟨hst, rfl⟩ | ⟨_, i, _, _, rfl⟩
  · exact hst.symm
  · simp

variable {ts : List ℕ} {l : ℤ} {d' : PolicyData}

lemma foldlM_suspendOnly_inactive {s1 : State}
    (h : ts.foldlM suspendOnly s = .ok s1) (ht : t ∈ ts) :
    s1.state t = .terminated ∨ s1.state t = .suspended := by
  induction ts generalizing s with
  | nil => cases ht
  | cons u ts ih =>
    obtain ⟨m, hm, hrest⟩ := bind_ok.1 h
    rcases List.mem_cons.1 ht with rfl | ht
    · refine foldlM_suspendOnly
        (P := fun v => v.state t = .terminated ∨ v.state t = .suspended)
        (fun u _ v v' hv hw => ?_) (suspendOnly_inactive hm) hrest
      by_cases htu : t = u
      · exact htu ▸ suspendOnly_inactive hw
      · rwa [suspendOnly_state_of_ne hw htu]
    · exact ih hrest ht

lemma Suspends.data (hs : Suspends s ts s') (u : ℕ) : s'.data u = s.data u := by
  have hfold : ∀ v, ts.foldlM suspendOnly s = .ok v → v.data u = s.data u := fun _ h1 =>
    foldlM_suspendOnly (P := fun v => v.data u = s.data u)
      (fun _ _ _ _ hv hw => (suspendOnly_data hw u).trans hv) rfl h1
  cases hs with
  | returns h1 _ => exact hfold s' h1
  | @schedules s1 c h1 hmem hcur hs =>
    rw [data_schedule_vacant hs, hfold s1 h1]
    intro c' hc'
    obtain rfl : c = c' := by simpa [suspended_currentThread h1, hcur] using hc'
    exact foldlM_suspendOnly_inactive h1 hmem

lemma Nudged.data_step (h : Nudged s s') (hd : s.data t = some d) :
    ∃ d', s'.data t = some d' ∧ d'.isPinned = d.isPinned ∧ d'.runLevel = d.runLevel := by
  rcases h.data t with he | ⟨e, hs, hs'⟩
  · exact ⟨d, he ▸ hd, rfl, rfl⟩
  · obtain rfl : d = e := by simpa [hd] using hs
    exact ⟨_, hs', rfl, rfl⟩

lemma added_data (ht : t ≠ s.nextThread) (hd : s.data t = some d) :
    ∃ d', s.added.data t = some d' ∧ d'.isPinned = d.isPinned ∧ d'.runLevel = d.runLevel := by
  have hd1 : (setData { s with nextThread := s.nextThread + 1 } s.nextThread
      addedData).data t = some d := by
    rw [data_setData, if_neg ht]
    exact hd
  simpa [added] using (nudged_yieldCurrent _).data_step hd1

lemma addThread_data (s : State) (t : ℕ) : (addThread s).data t = s.added.data t := by
  rw [addThread_eq]
  split_ifs
  · rfl
  · exact data_push _ _ _ _

lemma removed_data (s : State) (e : PolicyData) (i u t : ℕ) :
    ((((s.removeFrom i u).setData u { e with runLevel := -1 }).unregister u).releaseCurrent
      u).data t = if t = u then some { e with runLevel := -1 } else s.data t := by
  unfold releaseCurrent
  split_ifs <;> simp_all [unregister, data, setData, setCurrent, removeFrom]

lemma kill_data (s : State) (u t : ℕ) : (kill s u).data t = s.data t := by
  unfold kill
  split_ifs
  · rfl
  · simp

/-- How one operation can move the run level of a thread. -/
lemma data_step (h : Settled s) (hs : step s op = .ok s') (hd : s.data t = some d) :
    ∃ d', s'.data t = some d' ∧ d'.isPinned = d.isPinned ∧ LevelMove s op t d d'.runLevel := by
  cases op with
  | addThread =>
    cases hs
    have hlt := h.queued.lt_nextThread (level_of_data hd)
    obtain ⟨d', hd', hpin, hl⟩ := added_data hlt.ne hd
    exact ⟨d', (addThread_data s t).trans hd', hpin, hl ▸ .same⟩
  | removeThread u =>
    obtain ⟨e, he, ⟨_, rfl⟩ | ⟨i, _, _, rfl⟩⟩ := removeThread_ok hs
    · exact ⟨d, hd, rfl, .same⟩
    rw [removed_data]
    by_cases htu : t = u
    · subst htu
      obtain rfl : d = e := by simpa [hd] using he
      exact ⟨_, if_pos rfl, rfl, .removed rfl⟩
    · exact ⟨d, by rw [if_neg htu, hd], rfl, .same⟩
  | schedule => exact data_schedule hs hd
  | yield u =>
    cases hs
    obtain ⟨d', hd', hpin, hl⟩ := (nudged_threadYield s u).data_step hd
    exact ⟨d', hd', hpin, hl ▸ .same⟩
  | suspend u => exact ⟨d, ((suspend_suspends hs).data t).trans hd, rfl, .same⟩
  | suspendProcess ts => exact ⟨d, ((suspendProcess_suspends hs).data t).trans hd, rfl, .same⟩
  | resume u =>
    rcases resume_ok hs with ⟨_, rfl⟩ | ⟨hst, e, i, he, hl, _, rfl⟩
    · exact ⟨d, hd, rfl, .same⟩
    have hn := nudged_resumed s u e i
    by_cases htu : t = u
    · subst htu
      obtain rfl : d = e := by simpa [hd] using he
      obtain ⟨d', hd', hpin, hl'⟩ :=
        hn.data_step (t := t) (d := resumedData d i) (by simp)
      refine ⟨d', by simpa using hd', hpin, hl' ▸ ?_⟩
      change LevelMove s (.resume t) t d (resumedLevel d)
      rcases resumedLevel_cases d with hb | ⟨hpin, hpos, hb⟩
      · exact hb ▸ .same
      · exact hb ▸ .resumed rfl hst hpin hpos
    · obtain ⟨d', hd', hpin, hl'⟩ := hn.data_step (t := t) (by simpa [htu] using hd)
      exact ⟨d', by simpa using hd', hpin, hl' ▸ .same⟩
  | kill u =>
    cases hs
    exact ⟨d, (kill_data s u t).trans hd, rfl, .same⟩

lemma LevelMove.nonneg (h : LevelMove s op t d l) (hl : 0 ≤ d.runLevel)
    (hop : op ≠ .removeThread t) : 0 ≤ l := by
  cases h with
  | same => exact hl
  | expired => omega
  | resumed _ _ _ hpos => omega
  | removed he => exact absurd he hop

lemma LevelMove.of_pinned (h : LevelMove s op t d l) (hp : d.isPinned)
    (hop : op ≠ .removeThread t) : l = d.runLevel := by
  cases h with
  | same => rfl
  | expired _ _ _ _ hf => simp [hp] at hf
  | resumed _ _ hf => simp [hp] at hf
  | removed he => exact absurd he hop

lemma registered_schedule (hs : schedule s = .ok s') : s'.registered = s.registered := by
  rcases schedule_cases hs with ⟨s0, u, i, rest, hp, _, _, rfl⟩ | ⟨c, e, hc, rfl⟩
  · change s0.registered = s.registered
    cases hp with
    | vacant _ => rfl
    | yielded _ _ _ _ _ _ => simp [requeue]
    | expired _ _ _ _ _ _ _ => simp [requeue]
  · rfl

lemma registered_suspendOnly (hs : suspendOnly s t = .ok s') : s'.registered = s.registered := by
  rcases suspendOnly_ok hs with ⟨_, rfl⟩ | ⟨_, i, _, _, rfl⟩ <;> rfl

lemma Suspends.registered (hs : Suspends s ts s') : s'.registered = s.registered := by
  have hfold : ∀ v, ts.foldlM suspendOnly s = .ok v → v.registered = s.registered :=
    fun _ h1 => foldlM_suspendOnly (P := fun v => v.registered = s.registered)
      (fun _ _ _ _ hv hw => (registered_suspendOnly hw).trans hv) rfl h1
  cases hs with
  | returns h1 _ => exact hfold s' h1
  | schedules h1 _ _ hs => exact (registered_schedule hs).trans (hfold _ h1)

lemma registered_step (hs : step s op = .ok s') (ht : t ∈ s'.registered) : (t ∈ s.registered ∧
      (op = .removeThread t → ∃ l, s.level t = some l ∧ l < 0)) ∨
        (op = .addThread ∧ t = s.nextThread) := by
  cases op with
  | addThread =>
    cases hs
    have hreg : s.added.registered = s.registered := (nudged_yieldCurrent _).registered
    rw [addThread_eq] at ht
    split_ifs at ht
    · exact .inl ⟨hreg ▸ ht, by simp⟩
    · rcases List.mem_cons.1 ht with rfl | ht
      · exact .inr ⟨rfl, rfl⟩
      · exact .inl ⟨ht, by simp⟩
  | removeThread u =>
    obtain ⟨e, he, ⟨hneg, rfl⟩ | ⟨i, _, _, rfl⟩⟩ := removeThread_ok hs
    · refine .inl ⟨ht, fun hop => ?_⟩
      obtain rfl := Op.removeThread.inj hop
      exact ⟨e.runLevel, level_of_data he, hneg⟩
    · have hmem : t ∈ s.registered.filter (· ≠ u) := by
        unfold releaseCurrent at ht
        split_ifs at ht <;> exact ht
      simp only [decide_not, List.mem_filter, Bool.not_eq_eq_eq_not, Bool.not_true,
         decide_eq_false_iff_not] at hmem
      exact .inl ⟨hmem.1, fun hop => absurd (Op.removeThread.inj hop).symm hmem.2⟩
  | schedule => exact .inl ⟨registered_schedule hs ▸ ht, by simp⟩
  | yield u =>
    cases hs
    exact .inl ⟨(nudged_threadYield s u).registered ▸ ht, by simp⟩
  | suspend u => exact .inl ⟨(suspend_suspends hs).registered ▸ ht, by simp⟩
  | suspendProcess ts => exact .inl ⟨(suspendProcess_suspends hs).registered ▸ ht, by simp⟩
  | resume u =>
    rcases resume_ok hs with ⟨_, rfl⟩ | ⟨_, e, i, _, _, _, rfl⟩
    · exact .inl ⟨ht, by simp⟩
    · rw [registered_push, (nudged_resumed s u e i).registered] at ht
      exact .inl ⟨ht, by simp⟩
  | kill u =>
    cases hs
    refine .inl ⟨?_, by simp⟩
    unfold kill at ht
    split_ifs at ht <;> exact ht

lemma addThread_level_self (s : State) : (addThread s).level s.nextThread = some 0 := by
  rw [addThread_eq]
  split_ifs
  · simp [added_level]
  · change (s.added.push 0 s.nextThread).level s.nextThread = some 0
    simp [added_level]

/-- The idle thread is pinned to the last level. -/
def IdlePinned (s : State) : Prop :=
  ∃ d, s.data idleThread = some d ∧ d.isPinned = true ∧ d.runLevel = 4

lemma idlePinned_step (h : Settled s) (hp : IdlePinned s) (hop : op ≠ .removeThread idleThread)
    (hs : step s op = .ok s') : IdlePinned s' := by
  obtain ⟨d, hd, hpin, hl⟩ := hp
  obtain ⟨d', hd', hpin', hmove⟩ := data_step h hs hd
  exact ⟨d', hd', hpin'.trans hpin, (hmove.of_pinned hpin hop).trans hl⟩

lemma idlePinned_initial : IdlePinned initial := ⟨_, rfl, rfl, rfl⟩

lemma data_none_schedule (hs : schedule s = .ok s') (hd : s.data t = none) :
    s'.data t = none := by
  have hne : ∀ c d, s.data c = some d → t ≠ c := by
    rintro c d hc rfl
    simp [hd] at hc
  rcases schedule_cases hs with ⟨s0, u, i, rest, hp, _, _, rfl⟩ | ⟨c, d, hc, rfl⟩
  · cases hp with
    | vacant _ => simpa using hd
    | yielded _ _ he _ _ _ => simpa [requeue, hne _ _ he] using hd
    | expired _ _ he _ _ _ _ => simpa [requeue, hne _ _ he] using hd
  · simpa [hne _ _ hc.data] using hd

lemma pinned_of_schedule (hs : schedule s = .ok s') (hd' : s'.data t = some d')
    (hp : d'.isPinned) : ∃ d, s.data t = some d ∧ d.isPinned := by
  cases hd : s.data t with
  | none => simp [data_none_schedule hs hd] at hd'
  | some d =>
    obtain ⟨e, he, hpin, _⟩ := data_schedule hs hd
    obtain rfl : e = d' := by simpa [he] using hd'
    exact ⟨d, rfl, hpin ▸ hp⟩

lemma Nudged.data_none (h : Nudged s s') (hd : s.data t = none) : s'.data t = none := by
  rcases h.data t with he | ⟨e, he, _⟩
  · rw [he, hd]
  · simp [hd] at he

lemma added_data_self (hd : s.added.data s.nextThread = some d) : d.isPinned = false := by
  simp only [added] at hd
  obtain ⟨e, he, hpin, _⟩ := (nudged_yieldCurrent (setData
    { s with nextThread := s.nextThread + 1 } s.nextThread addedData)).data_step
      (t := s.nextThread) (d := addedData) (by simp)
  obtain rfl : e = d := by simpa [he] using hd
  exact hpin

lemma data_none_step (hs : step s op = .ok s') (hnew : op = .addThread → t ≠ s.nextThread)
    (hd : s.data t = none) : s'.data t = none := by
  have hne : ∀ {u d}, s.data u = some d → t ≠ u := by
    rintro u d hu rfl
    simp [hd] at hu
  cases op with
  | addThread =>
    cases hs
    refine (addThread_data s t).trans ?_
    simp only [added, data_setState]
    refine (nudged_yieldCurrent _).data_none ?_
    rw [data_setData, if_neg (hnew rfl)]
    exact hd
  | removeThread u =>
    obtain ⟨e, he, ⟨_, rfl⟩ | ⟨i, _, _, rfl⟩⟩ := removeThread_ok hs
    · exact hd
    · rw [removed_data, if_neg (hne he)]
      exact hd
  | schedule => exact data_none_schedule hs hd
  | yield u =>
    cases hs
    exact (nudged_threadYield s u).data_none hd
  | suspend u => exact ((suspend_suspends hs).data t).trans hd
  | suspendProcess ts => exact ((suspendProcess_suspends hs).data t).trans hd
  | resume u =>
    rcases resume_ok hs with ⟨_, rfl⟩ | ⟨_, e, i, he, _, _, rfl⟩
    · exact hd
    · have hnone := (nudged_resumed s u e i).data_none (t := t) (by simpa [hne he] using hd)
      simpa using hnone
  | kill u =>
    cases hs
    exact (kill_data s u t).trans hd

lemma pinned_of_step (h : Settled s) (hs : step s op = .ok s')
    (hd' : s'.data t = some d') (hp : d'.isPinned) :
    ∃ d, s.data t = some d ∧ d.isPinned := by
  cases hd : s.data t with
  | some d =>
    obtain ⟨e, he, hpin, _⟩ := data_step h hs hd
    obtain rfl : e = d' := by simpa [he] using hd'
    exact ⟨d, rfl, hpin ▸ hp⟩
  | none =>
    by_cases hnew : op = .addThread ∧ t = s.nextThread
    · obtain ⟨rfl, rfl⟩ := hnew
      cases hs
      rw [addThread_data] at hd'
      simp [added_data_self hd'] at hp
    · have hnone := data_none_step hs (fun hop ht => hnew ⟨hop, ht⟩) hd
      simp [hnone] at hd'

end GzOS.Scheduling
