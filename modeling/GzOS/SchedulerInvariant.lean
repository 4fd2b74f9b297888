import GzOS.Scheduler

/-!
# The queue invariant of the scheduler

A queued thread sits once, in the queue of its own run level, and neither the current
thread nor a suspended one is queued. The invariant is relative to the thread that owns
the processor, because `schedule` puts the current thread back before it dispatches.
-/
namespace GzOS.Scheduling
open Runs State List Except

def State.level (s : State) (t : ℕ) : Option ℤ := (s.data t).map (·.runLevel)

variable {s s' : State} {t i : ℕ} {d : PolicyData} {cur : Option ℕ}

lemma level_of_data (h : s.data t = some d) :
    s.level t = some d.runLevel := by simp [level, h]

@[simp] lemma level_setData (s : State) (t u : ℕ) (d : PolicyData) :
    (s.setData t d).level u = if u = t then some d.runLevel else s.level u := by
  unfold level
  rw [data_setData]
  split_ifs <;> rfl

@[simp] lemma level_setState (s : State) (t u : ℕ) (st : ThreadState) :
    (s.setState t st).level u = s.level u := by simp [level]

@[simp] lemma level_push (s : State) (i t u : ℕ) : (s.push i t).level u = s.level u := by
  simp [level]

@[simp] lemma level_pop (s : State) (i : ℕ) (rest : List ℕ) (u : ℕ) :
    (s.pop i rest).level u = s.level u := rfl

structure Queued (s : State) (cur : Option ℕ) : Prop where
  fresh : ∀ t, s.nextThread ≤ t → s.level t = none
  entry : ∀ i t, t ∈ s.queues i → i < runLevels ∧ s.level t = some (i : ℤ)
  nodup : ∀ i, (s.queues i).Nodup
  current : ∀ c, cur = some c → (∃ l, s.level c = some l ∧ 0 ≤ l) ∧ ∀ i, c ∉ s.queues i
  suspended : ∀ t, s.state t = .suspended → ∀ i, t ∉ s.queues i
  range : ∀ t l, s.level t = some l → -1 ≤ l ∧ l < runLevels
  depth : ∀ i, (s.queues i).length ≤ runLevelDepth

lemma Queued.vacate (h : Queued s cur) : Queued s none :=
  { h with current := by simp }

lemma Queued.frame (h : Queued s cur) (hq : s'.queues = s.queues)
    (hn : s.nextThread ≤ s'.nextThread) (hl : ∀ t, s'.level t = s.level t)
    (hs : ∀ t, s'.state t = .suspended → s.state t = .suspended) : Queued s' cur where
  fresh := fun t ht => by rw [hl]; exact h.fresh t (hn.trans ht)
  entry := fun i t ht => by rw [hq] at ht; rw [hl]; exact h.entry i t ht
  nodup := by rw [hq]; exact h.nodup
  current := fun c hc => by rw [hq, hl]; exact h.current c hc
  suspended := fun t ht => by rw [hq]; exact h.suspended t (hs t ht)
  range := fun t l ht => h.range t l (hl t ▸ ht)
  depth := by rw [hq]; exact h.depth

lemma Queued.relabel (h : Queued s cur) (hout : ∀ i, t ∉ s.queues i) (ht : t < s.nextThread)
    (hd : -1 ≤ d.runLevel ∧ d.runLevel < runLevels) (hcur : cur = some t → 0 ≤ d.runLevel) :
    Queued (s.setData t d) cur where
  fresh := fun u hu => by
    have hne : u ≠ t := by
      rintro rfl
      exact absurd hu (not_le.2 ht)
    simpa [hne] using h.fresh u hu
  entry := fun i u hu => by
    have hne : u ≠ t := by
      rintro rfl
      exact hout i hu
    simpa [hne] using h.entry i u hu
  nodup := h.nodup
  current := fun c hc => by
    refine ⟨?_, (h.current c hc).2⟩
    by_cases hct : c = t
    · subst hct
      exact ⟨d.runLevel, by simp, hcur hc⟩
    · simpa [hct] using (h.current c hc).1
  suspended := fun u hu => h.suspended u (by simpa using hu)
  range := fun u l hu => by
    by_cases hut : u = t
    · subst hut
      obtain rfl : d.runLevel = l := by simpa using hu
      exact hd
    · exact h.range u l (by simpa [hut] using hu)
  depth := h.depth

lemma Queued.setState {st : ThreadState} (h : Queued s cur)
    (hst : st = .suspended → ∀ i, t ∉ s.queues i) : Queued (s.setState t st) cur where
  fresh := fun u hu => by simpa using h.fresh u hu
  entry := fun i u hu => by simpa using h.entry i u hu
  nodup := h.nodup
  current := fun c hc => by simpa using h.current c hc
  suspended := fun u hu i => by
    simp only [state_setState] at hu
    split_ifs at hu with hut
    · exact hut ▸ hst hu i
    · exact h.suspended u hu i
  range := fun u l hu => h.range u l (by simpa using hu)
  depth := h.depth

lemma Queued.push (h : Queued s cur) (hout : ∀ j, t ∉ s.queues j) (hl : s.level t = some (i : ℤ))
    (hi : i < runLevels) (hst : s.state t ≠ .suspended) (hcur : cur ≠ some t) :
    Queued (s.push i t) cur where
  fresh := fun u hu => by simpa using h.fresh u (by simpa using hu)
  entry := fun j u hu => by
    rw [level_push]
    rcases mem_push hu with hu | ⟨rfl, rfl⟩
    · exact h.entry j u hu
    · exact ⟨hi, hl⟩
  nodup := fun j => by
    cases hf : s.full i with
    | true => rw [push_of_full hf]; exact h.nodup j
    | false =>
      rw [queues_push_of_not_full hf]
      split_ifs with hj
      · exact nodup_append.2 ⟨h.nodup i, nodup_singleton t, by
          intro a ha b hb hab
          simp only [mem_singleton] at hb
          exact hout i (hb ▸ hab ▸ ha)⟩
      · exact h.nodup j
  current := fun c hc => by
    refine ⟨by simpa using (h.current c hc).1, fun j hj => ?_⟩
    rcases mem_push hj with hj | ⟨rfl, rfl⟩
    · exact (h.current c hc).2 j hj
    · exact hcur hc
  suspended := fun u hu j hj => by
    rw [state_push] at hu
    rcases mem_push hj with hj | ⟨rfl, rfl⟩
    · exact h.suspended u hu j hj
    · exact hst hu
  range := fun u l hu => h.range u l (by simpa using hu)
  depth := fun j => by
    cases hf : s.full i with
    | true => rw [push_of_full hf]; exact h.depth j
    | false =>
      rw [queues_push_of_not_full hf]
      split_ifs with hj
      · have hle := h.depth i
        simp only [full, beq_eq_false_iff_ne] at hf
        rw [length_append, length_singleton]
        omega
      · exact h.depth j

lemma Queued.removeFrom (h : Queued s cur) (i t : ℕ) : Queued (s.removeFrom i t) cur where
  fresh := h.fresh
  entry := fun j u hu => h.entry j u (mem_removeFrom.1 hu).1
  nodup := fun j => by
    by_cases hj : j = i
    · subst hj
      simpa [State.removeFrom] using (h.nodup j).filter _
    · simpa [State.removeFrom, hj] using h.nodup j
  current := fun c hc => ⟨(h.current c hc).1, fun j hj =>
    (h.current c hc).2 j (mem_removeFrom.1 hj).1⟩
  suspended := fun u hu j hj => h.suspended u hu j (mem_removeFrom.1 hj).1
  range := h.range
  depth := fun j => by
    by_cases hj : j = i
    · subst hj
      simpa [State.removeFrom] using (length_filter_le _ _).trans (h.depth j)
    · simpa [State.removeFrom, hj] using h.depth j

lemma Queued.removeFrom_out (h : Queued s cur) (hl : s.level t = some (i : ℤ)) (j : ℕ) :
    t ∉ (s.removeFrom i t).queues j := by
  intro hj
  obtain ⟨hmem, hne⟩ := mem_removeFrom.1 hj
  have he := (h.entry j t hmem).2
  rw [hl] at he
  exact hne (by simpa using he.symm) rfl

lemma Queued.pop {rest : List ℕ} (h : Queued s cur) (hp : Popped s t i rest) :
    Queued (s.pop i rest) (some t) := by
  have hsub : ∀ j u, u ∈ (s.pop i rest).queues j → u ∈ s.queues j := by
    intro j u hu
    rw [queues_pop] at hu
    split_ifs at hu with hj
    · subst hj; rw [hp.head]; exact mem_cons_of_mem _ hu
    · exact hu
  have hmem : t ∈ s.queues i := by rw [hp.head]; exact mem_cons_self
  have hnd := h.nodup i
  rw [hp.head] at hnd
  refine ⟨h.fresh, fun j u hu => h.entry j u (hsub j u hu), fun j => ?_, fun c hc => ?_,
    fun u hu j hj => h.suspended u hu j (hsub j u hj), h.range, fun j => ?_⟩
  · rw [queues_pop]
    split_ifs
    · exact hnd.of_cons
    · exact h.nodup j
  · cases hc
    refine ⟨⟨i, (h.entry i t hmem).2, by omega⟩, fun j hj => ?_⟩
    have he := (h.entry j t (hsub j t hj)).2
    rw [(h.entry i t hmem).2] at he
    obtain rfl : i = j := by simpa using he
    rw [queues_pop, if_pos rfl] at hj
    exact (nodup_cons.1 hnd).1 hj
  · rw [queues_pop]
    split_ifs
    · have hle := h.depth i
      rw [hp.head, length_cons] at hle
      omega
    · exact h.depth j

lemma Queued.lt_nextThread (h : Queued s cur) {l : ℤ} (hl : s.level t = some l) :
    t < s.nextThread := by
  by_contra hge
  simp [h.fresh t (not_lt.1 hge)] at hl

lemma Queued.requeue {c : ℕ} (h : Queued s (some c)) (hl : d.runLevel = i) (hi : i < runLevels) :
    Queued (s.requeue c d i) none := by
  obtain ⟨⟨l, hlev, _⟩, hout⟩ := h.current c rfl
  have h1 : Queued (s.setData c d) (some c) :=
    h.relabel hout (h.lt_nextThread hlev) (by omega) (fun _ => by omega)
  have h2 : Queued ((s.setData c d).setState c .ready) none :=
    (h1.setState (by simp)).vacate
  exact h2.push hout (by simp [hl]) hi (by simp) (by simp)

lemma Queued.dispatch (h : Queued s (some t)) : Queued (s.dispatch t) (some t) := by
  have h1 : Queued (s.setState t .running) (some t) := h.setState (by simp)
  exact h1.frame rfl le_rfl (fun _ => rfl) (fun _ hu => hu)

lemma Queued.prepared {s0 : State} (h : Queued s s.currentThread) (hp : Prepared s s0) :
    Queued s0 none := by
  cases hp with
  | vacant _ => exact h.vacate
  | yielded hc _ _ _ hl hi => exact (hc ▸ h).requeue (by simpa [yieldedData] using hl) hi
  | expired hc _ _ _ _ hl hi => exact (hc ▸ h).requeue (by simpa [expiredData] using hl) hi

structure Settled (s : State) : Prop where
  queued : Queued s s.currentThread
  active : ∀ c, s.currentThread = some c → s.state c ≠ .suspended

@[simp] lemma dispatch_currentThread (s : State) (t : ℕ) :
    (s.dispatch t).currentThread = some t := rfl

@[simp] lemma dispatch_queues (s : State) (t : ℕ) : (s.dispatch t).queues = s.queues := rfl

@[simp] lemma dispatch_state (s : State) (t u : ℕ) :
    (s.dispatch t).state u = if u = t then .running else s.state u := by
  simp [dispatch]

@[simp] lemma dispatch_data (s : State) (t u : ℕ) : (s.dispatch t).data u = s.data u := by
  simp [dispatch]

@[simp] lemma dispatch_level (s : State) (t u : ℕ) : (s.dispatch t).level u = s.level u := by
  simp [level]

lemma Settled.dispatched (h : Queued s (some t)) : Settled (s.dispatch t) :=
  ⟨h.dispatch, fun c hc => by obtain rfl : t = c := by simpa using hc
                              simp⟩

lemma settled_schedule (h : Queued s s.currentThread) (hs : schedule s = .ok s') :
    Settled s' := by
  rcases schedule_cases hs with ⟨s0, t, i, rest, hp, hpop, _, rfl⟩ | ⟨c, d, hc, rfl⟩
  · exact Settled.dispatched ((h.prepared hp).pop hpop)
  rw [hc.current] at h
  obtain ⟨⟨l, hl, hl0⟩, hout⟩ := h.current c rfl
  have he : d.runLevel = l := by simpa [level_of_data hc.data] using hl
  exact Settled.dispatched (h.relabel hout (h.lt_nextThread hl)
    (he ▸ h.range c l hl) (fun _ => he ▸ hl0))

structure Nudged (s s' : State) : Prop where
  queues : s'.queues = s.queues
  currentThread : s'.currentThread = s.currentThread
  nextThread : s'.nextThread = s.nextThread
  registered : s'.registered = s.registered
  state : ∀ t, s'.state t = s.state t
  data : ∀ t, s'.data t = s.data t ∨
    ∃ d, s.data t = some d ∧ s'.data t = some { d with yieldRequested := true }

lemma Nudged.refl (s : State) : Nudged s s :=
  ⟨rfl, rfl, rfl, rfl, fun _ => rfl, fun _ => Or.inl rfl⟩

lemma nudged_threadYield (s : State) (t : ℕ) : Nudged s (threadYield s t) := by
  unfold threadYield
  split
  · next d hd =>
    refine ⟨rfl, rfl, rfl, rfl, by simp, fun u => ?_⟩
    by_cases hu : u = t
    · subst hu; exact .inr ⟨d, hd, by simp⟩
    · exact .inl (by simp [hu])
  · exact .refl s

lemma nudged_yieldCurrent (s : State) : Nudged s (yieldCurrent s) := by
  unfold yieldCurrent
  split
  · exact nudged_threadYield s _
  · exact .refl s

lemma nudged_yieldCurrentAbove (s : State) (l : ℤ) : Nudged s (yieldCurrentAbove s l) := by
  unfold yieldCurrentAbove
  split
  · split
    · split_ifs
      · exact nudged_threadYield s _
      · exact .refl s
    · exact .refl s
  · exact .refl s

lemma Nudged.level (h : Nudged s s') (t : ℕ) : s'.level t = s.level t := by
  unfold State.level
  rcases h.data t with he | ⟨d, hd, hd'⟩
  · rw [he]
  · rw [hd, hd']; rfl

lemma Queued.nudged (h : Queued s cur) (hn : Nudged s s') : Queued s' cur :=
  h.frame hn.queues hn.nextThread.ge hn.level (fun t ht => hn.state t ▸ ht)

lemma policySuspend_ok (h : policySuspend s t = .ok s') :
    ∃ i : ℕ, s.level t = some (i : ℤ) ∧ i < runLevels ∧
      s' = (s.setState t .suspended).removeFrom i t := by
  obtain ⟨d, hd, h⟩ := bind_ok.1 h
  obtain ⟨i, hi, h⟩ := bind_ok.1 h
  rw [runLevelIndex_ok] at hi
  exact ⟨i, by rw [level_of_data (dataFromThread_ok.1 hd), hi.1], hi.2, (ok.inj h).symm⟩

lemma suspendOnly_ok (h : suspendOnly s t = .ok s') :
    ((s.state t = .suspended ∨ s.state t = .terminated) ∧ s' = s) ∨
      (s.state t = .ready ∨ s.state t = .running) ∧ ∃ i : ℕ, s.level t = some (i : ℤ) ∧
        i < runLevels ∧ s' = (s.setState t .suspended).removeFrom i t := by
  unfold suspendOnly at h
  split at h
  · next hst => exact .inr ⟨.inl hst, policySuspend_ok h⟩
  · next hst => exact .inr ⟨.inr hst, policySuspend_ok h⟩
  · next hst => exact .inl ⟨.inl hst, (ok.inj h).symm⟩
  · next hst => exact .inl ⟨.inr hst, (ok.inj h).symm⟩

def resumedData (d : PolicyData) (i : ℕ) : PolicyData :=
  { d with runLevel := resumedLevel d, quantum := levelQuantum i, resetQuantum := levelQuantum i }

def State.resumed (s : State) (t : ℕ) (d : PolicyData) (i : ℕ) : State :=
  yieldCurrentAbove ((s.setData t (resumedData d i)).setState t .ready) (resumedLevel d)

lemma resume_ok (h : resume s t = .ok s') :
    (s.state t ≠ .suspended ∧ s' = s) ∨
      s.state t = .suspended ∧ ∃ (d : PolicyData) (i : ℕ), s.data t = some d ∧ resumedLevel d = i ∧
        i < runLevels ∧ s' = (s.resumed t d i).push i t := by
  unfold resume at h
  split_ifs at h with hst
  · exact .inl ⟨hst, (ok.inj h).symm⟩
  obtain ⟨d, hd, h⟩ := bind_ok.1 h
  obtain ⟨i, hi, h⟩ := bind_ok.1 h
  rw [runLevelIndex_ok] at hi
  exact .inr ⟨not_not.1 hst, d, i, dataFromThread_ok.1 hd, hi.1, hi.2,
    (ok.inj h).symm⟩

lemma removeThread_ok (h : removeThread s t = .ok s') :
    ∃ d, s.data t = some d ∧ ((d.runLevel < 0 ∧ s' = s) ∨
      ∃ i : ℕ, d.runLevel = i ∧ i < runLevels ∧
        s' = (((s.removeFrom i t).setData t { d with runLevel := -1 }).unregister t).releaseCurrent
          t) := by
  obtain ⟨r, hr, h⟩ := bind_ok.1 h
  obtain ⟨d, hd, hr⟩ := bind_ok.1 hr
  rw [dataFromThread_ok] at hd
  refine ⟨d, hd, ?_⟩
  split_ifs at hr with hneg
  · cases hr
    exact .inl ⟨hneg, (ok.inj h).symm⟩
  obtain ⟨i, hi, hr⟩ := bind_ok.1 hr
  rw [runLevelIndex_ok] at hi
  cases hr
  exact .inr ⟨i, hi.1, hi.2, (ok.inj h).symm⟩

def State.added (s : State) : State :=
  (yieldCurrent (State.setData { s with nextThread := s.nextThread + 1 } s.nextThread
    addedData)).setState s.nextThread .ready

lemma addThread_eq (s : State) :
    addThread s = if s.added.full 0 then s.added
      else { s.added.push 0 s.nextThread with registered := s.nextThread :: s.registered } := by
  have hreg : s.added.registered = s.registered :=
    (nudged_yieldCurrent _).registered
  unfold addThread policyAdd
  cases hf : s.added.full 0 with
  | true =>
    have hpush := push_of_full hf s.nextThread
    unfold added at hf hpush ⊢
    simp [hf, hpush]
  | false =>
    unfold added at hf hreg ⊢
    simpa [hf] using hreg

lemma Queued.not_current_fresh (h : Queued s cur) (ht : s.nextThread ≤ t) : cur ≠ some t := by
  intro hc
  obtain ⟨⟨l, hl, _⟩, _⟩ := h.current t hc
  simp [h.fresh t ht] at hl

lemma Queued.not_queued_fresh (h : Queued s cur) (ht : s.nextThread ≤ t) (i : ℕ) :
    t ∉ s.queues i := by
  intro hi
  have he := (h.entry i t hi).2
  simp [h.fresh t ht] at he

lemma added_queues (s : State) : s.added.queues = s.queues := (nudged_yieldCurrent _).queues

lemma added_currentThread (s : State) : s.added.currentThread = s.currentThread :=
  (nudged_yieldCurrent _).currentThread

lemma added_level (s : State) (t : ℕ) :
    s.added.level t = if t = s.nextThread then some 0 else s.level t := by
  simp only [added, level_setState, (nudged_yieldCurrent _).level, level_setData]
  rfl

lemma added_state (s : State) (t : ℕ) :
    s.added.state t = if t = s.nextThread then .ready else s.state t := by
  simp only [added, state_setState, (nudged_yieldCurrent _).state,
    state_setData]
  rfl

lemma Queued.added (h : Queued s cur) : Queued s.added cur := by
  have h1 : Queued { s with nextThread := s.nextThread + 1 } cur :=
    h.frame rfl (Nat.le_succ _) (fun _ => rfl) (fun _ hu => hu)
  have h2 : Queued (setData { s with nextThread := s.nextThread + 1 } s.nextThread
      addedData) cur :=
    h1.relabel (h.not_queued_fresh le_rfl) (Nat.lt_succ_self _) (by decide) (fun _ => le_rfl)
  exact (h2.nudged (nudged_yieldCurrent _)).setState (by simp)

lemma settled_addThread (h : Settled s) : Settled (addThread s) := by
  have hq := h.queued.added
  have hact : ∀ c, s.currentThread = some c → s.added.state c ≠ .suspended := by
    intro c hc
    rw [added_state]
    split_ifs
    · simp
    · exact h.active c hc
  rw [addThread_eq]
  split_ifs with hf
  · exact ⟨added_currentThread s ▸ hq, fun c hc => hact c (added_currentThread s ▸ hc)⟩
  have hp : Queued (s.added.push 0 s.nextThread) s.currentThread :=
    hq.push (by rw [added_queues]; exact h.queued.not_queued_fresh le_rfl)
      (by simp [added_level]) (by decide) (by simp [added_state])
      (h.queued.not_current_fresh le_rfl)
  have hcur : (s.added.push 0 s.nextThread).currentThread = s.currentThread := by
    rw [currentThread_push, added_currentThread]
  refine ⟨?_, fun c hc => ?_⟩
  · rw [hcur]
    exact hp.frame rfl le_rfl (fun _ => rfl) (fun _ hu => hu)
  · change (s.added.push 0 s.nextThread).state c ≠ _
    rw [state_push]
    exact hact c (hcur ▸ hc)

lemma settled_removeThread (h : Settled s) (hs : removeThread s t = .ok s') : Settled s' := by
  obtain ⟨d, hd, ⟨_, rfl⟩ | ⟨i, hl, hi, rfl⟩⟩ := removeThread_ok hs
  · exact h
  have hlev : s.level t = some (i : ℤ) := by rw [level_of_data hd, hl]
  have hrm := h.queued.removeFrom i t
  have hout := h.queued.removeFrom_out hlev
  have hlt := h.queued.lt_nextThread hlev
  unfold releaseCurrent
  split_ifs with hc
  · have hq := hrm.vacate.relabel (d := { d with runLevel := -1 }) hout hlt (by simp [runLevels])
      (by simp)
    exact ⟨hq.frame rfl le_rfl (fun _ => rfl) (fun _ hu => hu), by simp⟩
  · have hq := hrm.relabel (d := { d with runLevel := -1 }) hout hlt (by simp [runLevels])
      (fun he => absurd he hc)
    refine ⟨hq.frame rfl le_rfl (fun _ => rfl) (fun _ hu => hu), fun c hcc => ?_⟩
    change ((s.removeFrom i t).setData t { d with runLevel := -1 }).state c ≠ _
    rw [state_setData]
    exact h.active c hcc

lemma Queued.suspendOnly (h : Queued s cur) (hs : suspendOnly s t = .ok s') : Queued s' cur := by
  rcases suspendOnly_ok hs with ⟨_, rfl⟩ | ⟨_, i, hl, hi, rfl⟩
  · exact h
  · have hrm : Queued ((s.removeFrom i t).setState t .suspended) cur :=
      (h.removeFrom i t).setState fun _ => h.removeFrom_out hl
    exact hrm.frame rfl le_rfl (fun _ => rfl) (fun _ hu => hu)

lemma suspendOnly_currentThread (hs : suspendOnly s t = .ok s') :
    s'.currentThread = s.currentThread := by
  rcases suspendOnly_ok hs with ⟨_, rfl⟩ | ⟨_, i, _, _, rfl⟩ <;> rfl

lemma suspendOnly_state_of_ne {u : ℕ} (hs : suspendOnly s t = .ok s') (hu : u ≠ t) :
    s'.state u = s.state u := by
  rcases suspendOnly_ok hs with ⟨_, rfl⟩ | ⟨_, i, _, _, rfl⟩
  · rfl
  · simp [hu]

lemma foldlM_suspendOnly {P : State → Prop} {ts : List ℕ}
    (hstep : ∀ t ∈ ts, ∀ u v, P u → Scheduling.suspendOnly u t = .ok v → P v) (h : P s)
    (hs : ts.foldlM Scheduling.suspendOnly s = .ok s') : P s' := by
  induction ts generalizing s with
  | nil => exact ok.inj hs ▸ h
  | cons t ts ih =>
    obtain ⟨m, hm, hs⟩ := bind_ok.1 hs
    exact ih (fun u hu => hstep u (mem_cons_of_mem _ hu))
      (hstep t mem_cons_self s m h hm) hs

section Suspended

variable {ts : List ℕ}

lemma suspended_currentThread (h : ts.foldlM suspendOnly s = .ok s') :
    s'.currentThread = s.currentThread :=
  foldlM_suspendOnly (P := fun u => u.currentThread = s.currentThread)
    (fun _ _ _ _ hu hv => (suspendOnly_currentThread hv).trans hu) rfl h

lemma suspended_state {c : ℕ} (h : ts.foldlM suspendOnly s = .ok s') (hc : c ∉ ts) :
    s'.state c = s.state c := by
  refine foldlM_suspendOnly (P := fun u => u.state c = s.state c) ?_ rfl h
  intro t ht u v hu hv
  have hne : c ≠ t := fun he => hc (he ▸ ht)
  exact (suspendOnly_state_of_ne hv hne).trans hu

lemma suspended_queued (h : Settled s) (hs : ts.foldlM suspendOnly s = .ok s') :
    Queued s' s'.currentThread := by
  rw [suspended_currentThread hs]
  exact foldlM_suspendOnly (P := fun u => Queued u s.currentThread)
    (fun _ _ _ _ hu hv => hu.suspendOnly hv) h.queued hs

/-- What a suspension of the threads `ts` does: it calls `schedule` when it took the
current thread away, and otherwise leaves that thread as it was. -/
inductive Suspends (s : State) (ts : List ℕ) (s' : State) : Prop
  | returns (h : ts.foldlM suspendOnly s = .ok s')
      (hkept : ∀ c, s.currentThread = some c → s'.state c = s.state c)
  | schedules {s₁ : State} {c : ℕ} (h : ts.foldlM suspendOnly s = .ok s₁) (hmem : c ∈ ts)
      (hcur : s.currentThread = some c) (hs : schedule s₁ = .ok s')

lemma suspend_suspends (hs : suspend s t = .ok s') : Suspends s [t] s' := by
  obtain ⟨s1, h1, hs⟩ := bind_ok.1 hs
  have hfold : [t].foldlM suspendOnly s = .ok s1 := by simp [h1]
  split_ifs at hs with hc
  · exact .schedules hfold mem_cons_self hc.2 hs
  cases hs
  refine .returns hfold fun c hcc => ?_
  rcases suspendOnly_ok h1 with ⟨_, rfl⟩ | ⟨hst, i, _, _, rfl⟩
  · rfl
  · have hne : c ≠ t := fun he => hc ⟨hst, he ▸ hcc⟩
    simp [hne]

lemma suspendProcess_suspends (hs : suspendProcess s ts = .ok s') : Suspends s ts s' := by
  obtain ⟨s1, h1, hs⟩ := bind_ok.1 hs
  cases hc : s.currentThread with
  | none =>
    simp only [hc] at hs
    exact ok.inj hs ▸ .returns h1 (by simp [hc])
  | some c =>
    simp only [hc] at hs
    split_ifs at hs with hmem
    · exact .schedules h1 hmem hc hs
    · cases hs
      refine .returns h1 fun c' hc' => ?_
      obtain rfl : c = c' := by simpa [hc] using hc'
      exact suspended_state h1 hmem

lemma settled_suspends (h : Settled s) (hs : Suspends s ts s') : Settled s' := by
  cases hs with
  | returns h1 hkept =>
    refine ⟨suspended_queued h h1, fun c hc => ?_⟩
    rw [suspended_currentThread h1] at hc
    exact hkept c hc ▸ h.active c hc
  | schedules h1 _ _ hs => exact settled_schedule (suspended_queued h h1) hs

end Suspended

lemma nudged_resumed (s : State) (t : ℕ) (d : PolicyData) (i : ℕ) :
    Nudged ((s.setData t (resumedData d i)).setState t .ready) (s.resumed t d i) :=
  nudged_yieldCurrentAbove _ _

lemma Queued.resumed (h : Queued s cur) (hst : s.state t = .suspended) (hd : s.data t = some d)
    (hl : resumedLevel d = i) (hi : i < runLevels) : Queued (s.resumed t d i) cur := by
  have hlt := h.lt_nextThread (level_of_data hd)
  have hr : -1 ≤ (resumedData d i).runLevel ∧ (resumedData d i).runLevel < runLevels := by
    simp only [resumedData]
    omega
  have h1 := h.relabel (h.suspended t hst) hlt hr (fun _ => by simp [resumedData, hl])
  exact (h1.setState (by simp)).nudged (nudged_resumed s t d i)

lemma settled_resume (h : Settled s) (hs : resume s t = .ok s') : Settled s' := by
  rcases resume_ok hs with ⟨_, rfl⟩ | ⟨hst, d, i, hd, hl, hi, rfl⟩
  · exact h
  have hn := nudged_resumed s t d i
  have hcur : ((s.resumed t d i).push i t).currentThread = s.currentThread := by
    rw [currentThread_push, hn.currentThread]
    rfl
  have hne : s.currentThread ≠ some t := fun hc => h.active t hc hst
  refine ⟨?_, fun c hc => ?_⟩
  · rw [hcur]
    exact (h.queued.resumed hst hd hl hi).push
      (by rw [hn.queues]; exact h.queued.suspended t hst)
      (by simp [hn.level, resumedData, hl]) hi (by simp [hn.state]) hne
  · rw [hcur] at hc
    have hct : c ≠ t := by
      rintro rfl
      exact hne hc
    simpa [hn.state, hct] using h.active c hc

lemma settled_kill (h : Settled s) : Settled (kill s t) := by
  unfold kill
  split_ifs
  · exact h
  refine ⟨h.queued.setState (by simp), fun c hc => ?_⟩
  rw [state_setState]
  split_ifs
  · simp
  · exact h.active c hc

lemma Settled.nudged (h : Settled s) (hn : Nudged s s') : Settled s' :=
  ⟨hn.currentThread ▸ h.queued.nudged hn,
    fun c hc => hn.state c ▸ h.active c (hn.currentThread ▸ hc)⟩

lemma settled_step {op : Op} (h : Settled s) (hs : step s op = .ok s') : Settled s' := by
  cases op with
  | addThread => exact ok.inj hs ▸ settled_addThread h
  | removeThread t => exact settled_removeThread h hs
  | schedule => exact settled_schedule h.queued hs
  | yield t => exact ok.inj hs ▸ h.nudged (nudged_threadYield s t)
  | suspend t => exact settled_suspends h (suspend_suspends hs)
  | suspendProcess ts => exact settled_suspends h (suspendProcess_suspends hs)
  | resume t => exact settled_resume h hs
  | kill t => exact ok.inj hs ▸ settled_kill h

lemma initial_queues (i : ℕ) : initial.queues i = if i = 4 then [idleThread] else [] := by
  by_cases h : i = 4
  · subst h; rfl
  · simp [initial, setIdleThread, push, full, runLevels, runLevelDepth, h]

lemma initial_data (t : ℕ) :
    initial.data t = if t = idleThread then some
      { quantum := 180, resetQuantum := 180, runLevel := 4, isPinned := true } else none := by
  by_cases h : t = idleThread
  · subst h; rfl
  · simp [initial, setIdleThread]
    rfl

lemma initial_state (t : ℕ) : initial.state t = .ready := by
  simp only [initial, setIdleThread, state_push, state_setState,
    state_setData]
  split_ifs <;> rfl

lemma initial_level (t : ℕ) : initial.level t = if t = idleThread then some 4 else none := by
  unfold level
  rw [initial_data]
  split_ifs <;> rfl

lemma settled_initial : Settled initial := by
  have hcur : initial.currentThread = none := rfl
  have hnext : initial.nextThread = 1 := rfl
  refine ⟨⟨fun t ht => ?_, fun i t ht => ?_, fun i => ?_, by simp [hcur], ?_, fun t l hl => ?_,
    fun i => ?_⟩, by simp [hcur]⟩
  · have hne : t ≠ idleThread := by unfold idleThread; omega
    simp [initial_level, hne]
  · rw [initial_queues] at ht
    split_ifs at ht with hi
    · subst hi
      obtain rfl : t = idleThread := by simpa using ht
      exact ⟨by decide, by simp [initial_level]⟩
    · cases ht
  · rw [initial_queues]
    split_ifs <;> simp
  · simp [initial_state]
  · rw [initial_level] at hl
    split_ifs at hl
    · obtain rfl : 4 = l := by simpa using hl
      decide
  · rw [initial_queues]
    split_ifs <;> simp [runLevelDepth]

/-- In every run, with nothing assumed about its operations. -/
theorem queues_settled (ops : List Op) : Always next Settled initial ops :=
  always_of_step (fun _ _ _ hi hs => settled_step hi (next_eq_some.1 hs)) settled_initial ops

end GzOS.Scheduling
