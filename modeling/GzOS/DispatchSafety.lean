import GzOS.ThreadConservation

/-!
# The scheduler never dispatches a dead thread

KILL marks threads as terminated and leaves the queues alone. A killed thread in a queue is
therefore still chosen later, which is the one way to reach the panic apart from taking the
idle thread away. The idle thread cannot be pushed out by a full queue: no other thread is
resumed on its level while it runs.
-/
namespace GzOS.Scheduling
open Runs State List Option Except

/-- The scheduler has found a thread that can run. -/
def NoDispatchPanic {α : Type} (x : Except Panic α) : Prop :=
  x ≠ .error .chosenNull ∧ x ≠ .error .chosenInvalidState

def Spared (s : State) : Op → Prop
  | .suspend t | .removeThread t => t ≠ idleThread
  | .suspendProcess ts => idleThread ∉ ts
  | .kill t => t ≠ idleThread ∧ ∀ i, t ∉ s.queues i
  | .addThread | .schedule | .yield _ | .resume _ => True

variable {α : Type} {d : PolicyData} {i c : ℕ} {ts : List ℕ}

lemma noDispatchPanic_ok (a : α) : NoDispatchPanic (.ok a) := by
  simp [NoDispatchPanic]

lemma noDispatchPanic_bind {β : Type} {x : Except Panic α} {f : α → Except Panic β}
    (hx : NoDispatchPanic x) (hf : ∀ a, x = .ok a → NoDispatchPanic (f a)) :
    NoDispatchPanic (x >>= f) := by
  cases x with
  | ok a => exact hf a rfl
  | error e => simpa [NoDispatchPanic, bind, Except.bind] using hx

lemma noDispatchPanic_dataFromThread (s : State) (t : ℕ) :
    NoDispatchPanic (dataFromThread s t) := by
  unfold dataFromThread
  split <;> simp [NoDispatchPanic]

lemma noDispatchPanic_runLevelIndex (l : ℤ) : NoDispatchPanic (runLevelIndex l) := by
  unfold runLevelIndex
  split_ifs <;> simp [NoDispatchPanic]

lemma noDispatchPanic_suspendOnly (s : State) (t : ℕ) : NoDispatchPanic (suspendOnly s t) := by
  have hpol : NoDispatchPanic (policySuspend s t) :=
    noDispatchPanic_bind (noDispatchPanic_dataFromThread s t) fun d _ =>
      noDispatchPanic_bind (noDispatchPanic_runLevelIndex d.runLevel) fun _ _ =>
        noDispatchPanic_ok _
  unfold suspendOnly
  split
  · exact hpol
  · exact hpol
  · exact noDispatchPanic_ok s
  · exact noDispatchPanic_ok s

lemma noDispatchPanic_foldlM (ts : List ℕ) (s : State) :
    NoDispatchPanic (ts.foldlM suspendOnly s) := by
  induction ts generalizing s with
  | nil => exact noDispatchPanic_ok s
  | cons t ts ih =>
    exact noDispatchPanic_bind (noDispatchPanic_suspendOnly s t) fun u _ => ih u

lemma noDispatchPanic_resume (s : State) (t : ℕ) : NoDispatchPanic (resume s t) := by
  unfold resume
  split_ifs
  · exact noDispatchPanic_ok s
  · exact noDispatchPanic_bind (noDispatchPanic_dataFromThread s t) fun d _ =>
      noDispatchPanic_bind (noDispatchPanic_runLevelIndex _) fun _ _ => noDispatchPanic_ok _

lemma noDispatchPanic_removeThread (s : State) (t : ℕ) : NoDispatchPanic (removeThread s t) := by
  refine noDispatchPanic_bind (noDispatchPanic_bind (noDispatchPanic_dataFromThread s t)
    fun d _ => ?_) fun r _ => ?_
  · split_ifs
    · exact noDispatchPanic_ok _
    · exact noDispatchPanic_bind (noDispatchPanic_runLevelIndex _) fun _ _ =>
        noDispatchPanic_ok _
  · split_ifs
    · exact noDispatchPanic_ok _
    · exact noDispatchPanic_ok _

/-- Queued threads are ready, and the idle thread is there and finds room when it gives the
processor back. -/
structure Dispatchable (s : State) : Prop where
  queued : Queued s s.currentThread
  pinned : IdlePinned s
  onlyIdle : ∀ t d, s.data t = some d → d.isPinned = true → t = idleThread
  ready : ∀ i t, t ∈ s.queues i → s.state t = .ready
  idle : Held s idleThread
  idleActive : Active s idleThread
  idleRoom : s.currentThread = some idleThread → (s.queues 4).length < runLevelDepth

lemma bumpedLevel_range (h : 0 ≤ d.runLevel ∧ d.runLevel < runLevels) :
    0 ≤ bumpedLevel d ∧ bumpedLevel d < runLevels := by
  unfold bumpedLevel
  simp only
  split_ifs <;> omega

variable {s s' : State} {t : ℕ} {op : Op}

lemma switchToProc_some (h : s.state t = .ready ∨ s.state t = .running) :
    switchToProc (some t, s) = .ok (s.dispatch t) :=
  if_neg fun hn => h.elim hn.1 hn.2

lemma choose_nonempty (hi : i < runLevels) (ht : t ∈ s.queues i)
    (hr : ∀ i t, t ∈ s.queues i → s.state t = .ready) : ∃ s', switchToProc (choose s) = .ok s' := by
  cases hc : choose s with
  | mk r s1 =>
    cases r with
    | none =>
      rw [choose_none hc i hi] at ht
      cases ht
    | some u =>
      obtain ⟨j, rest, hp, rfl⟩ := choose_some hc
      have hu : s.state u = .ready := hr j u (by rw [hp.head]; exact mem_cons_self)
      exact ⟨_, switchToProc_some (.inl hu)⟩

lemma ready_requeue (h : ∀ i t, t ∈ s.queues i → s.state t = .ready) :
    ∀ j t, t ∈ (s.requeue c d i).queues j → (s.requeue c d i).state t = .ready := by
  intro j t ht
  simp only [requeue, state_push, state_setState, state_setData]
  split_ifs with htc
  · rfl
  · rcases mem_push ht with ht | ⟨he, _⟩
    · exact h j t ht
    · exact absurd he htc

lemma requeue_nonempty (s : State) (c i : ℕ) (d : PolicyData) :
    ∃ t, t ∈ (s.requeue c d i).queues i := by
  cases hf : s.full i with
  | false => exact ⟨c, mem_push_self (s := (s.setData c d).setState c .ready) hf c⟩
  | true =>
    have hlen : (s.queues i).length = runLevelDepth := by simpa [full] using hf
    obtain ⟨t, ht⟩ := exists_mem_of_length_pos (by rw [hlen]; decide)
    exact ⟨t, mem_push_of_mem (s := (s.setData c d).setState c .ready) ht⟩

/-- The idle thread is current or queued, so there is one to choose. -/
lemma schedule_returns (h : Dispatchable s) : ∃ s', schedule s = .ok s' := by
  have hvacant : s.currentThread ≠ some idleThread → ∃ s', switchToProc (choose s) = .ok s' := by
    intro hc
    obtain ⟨i, hi⟩ := h.idle.resolve_left hc
    exact choose_nonempty (h.queued.entry i _ hi).1 hi h.ready
  unfold schedule
  cases hc : s.currentThread with
  | none => exact hvacant (by simp [hc])
  | some c =>
    simp only
    split_ifs with hact
    · refine hvacant fun hidle => h.idleActive ?_
      obtain rfl : c = idleThread := by simpa [hc] using hidle
      exact hact
    · obtain ⟨⟨l, hl, hl0⟩, _⟩ := h.queued.current c hc
      obtain ⟨d, hd, rfl⟩ := map_eq_some_iff.1 hl
      have hrange := h.queued.range c _ hl
      have hd1 : dataFromThread s c = .ok d := dataFromThread_ok.2 hd
      have hback : ∀ (e : PolicyData) (i : ℕ), i < runLevels →
          ∃ s', switchToProc (choose (s.requeue c e i)) = .ok s' := by
        intro e i hi
        obtain ⟨t, ht⟩ := requeue_nonempty s c i e
        exact choose_nonempty hi ht (ready_requeue h.ready)
      simp only [evaluateAndChoose, hd1, bind, Except.bind]
      split_ifs with hy hq
      · obtain ⟨i, hi⟩ := Int.eq_ofNat_of_zero_le hl0
        have hlt : i < runLevels := by omega
        have hidx : runLevelIndex d.runLevel = .ok i := runLevelIndex_ok.2 ⟨hi, hlt⟩
        simp only [policyYield, dataFromThread, data_setData, if_true, bind, Except.bind,
          hidx, setData_setData]
        exact hback _ i hlt
      · obtain ⟨hb0, hb5⟩ := bumpedLevel_range (d := { d with quantum := d.quantum - 1 })
          ⟨hl0, hrange.2⟩
        obtain ⟨i, hi⟩ := Int.eq_ofNat_of_zero_le hb0
        have hlt : i < runLevels := by omega
        have hidx := runLevelIndex_ok.2 ⟨hi, hlt⟩
        simp only [hidx, setData_setData]
        exact hback _ i hlt
      · refine ⟨_, switchToProc_some ?_⟩
        cases hst : s.state c <;> simp_all

lemma ready_dispatch (hq : Queued s (some t)) (h : ∀ i u, u ∈ s.queues i → s.state u = .ready) :
    ∀ i u, u ∈ (s.dispatch t).queues i → (s.dispatch t).state u = .ready := by
  intro i u hu
  have hne : u ≠ t := by
    rintro rfl
    exact (hq.current u rfl).2 i hu
  simpa [hne] using h i u hu

lemma ready_schedule (hq : Queued s s.currentThread)
    (h : ∀ i t, t ∈ s.queues i → s.state t = .ready) (hs : schedule s = .ok s') :
    ∀ i t, t ∈ s'.queues i → s'.state t = .ready := by
  rcases schedule_cases hs with ⟨s0, t, i, rest, hp, hpop, _, rfl⟩ | ⟨c, d, hc, rfl⟩
  · refine ready_dispatch ((hq.prepared hp).pop hpop) fun j u hu => ?_
    have hready : ∀ i t, t ∈ s0.queues i → s0.state t = .ready := by
      cases hp with
      | vacant _ => exact h
      | yielded _ _ _ _ _ _ => exact ready_requeue h
      | expired _ _ _ _ _ _ _ => exact ready_requeue h
    refine hready j u ?_
    rw [queues_pop] at hu
    split_ifs at hu with hji
    · rw [hji, hpop.head]
      exact mem_cons_of_mem _ hu
    · exact hu
  · intro i u hu
    have hne : u ≠ c := by
      rintro rfl
      exact (hq.current u hc.current).2 i hu
    simpa [hne] using h i u hu

lemma idleRoom_schedule (h : Dispatchable s) (hs : schedule s = .ok s')
    (hc : s'.currentThread = some idleThread) : (s'.queues 4).length < runLevelDepth := by
  rcases schedule_cases hs with ⟨s0, t, i, rest, hp, hpop, _, rfl⟩ | ⟨c, d, hc', rfl⟩
  · obtain rfl : t = idleThread := by simpa using hc
    have hq := h.queued.prepared hp
    have hmem : idleThread ∈ s0.queues i := by rw [hpop.head]; exact mem_cons_self
    have hl := (hq.entry i _ hmem).2
    obtain ⟨d, hd, hpin, hd4⟩ := h.pinned
    obtain ⟨d', hd', _, hmove⟩ := data_prepared hp hd
    rw [level_of_data hd', hmove.of_pinned hpin (by simp), hd4] at hl
    have hi0 : (4 : ℤ) = i := some.inj hl
    obtain rfl : 4 = i := by exact_mod_cast hi0
    have hdepth := hq.depth 4
    rw [hpop.head] at hdepth
    simpa using hdepth
  · refine h.idleRoom (hc'.current.trans ?_)
    simpa using hc

lemma Dispatchable.roomFor (h : Dispatchable s) : RoomFor s idleThread := by
  intro hc i hl
  obtain ⟨d, hd, hpin, hd4⟩ := h.pinned
  have hb : bumpedLevel d = 4 := by simp [bumpedLevel, hpin, hd4]
  simp only [requeueLevel, hc, hd, hd4, hb] at hl
  have hi0 : (4 : ℤ) = i := by
    split_ifs at hl
    · exact some.inj hl
    · exact some.inj hl
  obtain rfl : 4 = i := by exact_mod_cast hi0
  have := h.idleRoom hc
  simp only [full, beq_eq_false_iff_ne]
  omega

lemma dispatchable_schedule (h : Dispatchable s) (hs : schedule s = .ok s') :
    Dispatchable s' where
  queued := (settled_schedule h.queued hs).queued
  pinned := by
    obtain ⟨d, hd, hpin, hl⟩ := h.pinned
    obtain ⟨d', hd', hpin', hmove⟩ := data_schedule hs hd
    exact ⟨d', hd', hpin'.trans hpin, (hmove.of_pinned hpin (by simp)).trans hl⟩
  onlyIdle := fun t d hd hp => by
    obtain ⟨e, he, hpe⟩ := pinned_of_schedule hs hd hp
    exact h.onlyIdle t e he hpe
  ready := ready_schedule h.queued h.ready hs
  idle := held_schedule hs h.idle h.idleActive h.roomFor
  idleActive := active_schedule hs h.idleActive
  idleRoom := idleRoom_schedule h hs

lemma length_removeFrom_le (s : State) (i t j : ℕ) :
    ((s.removeFrom i t).queues j).length ≤ (s.queues j).length := by
  by_cases hj : j = i
  · subst hj
    simpa [removeFrom] using length_filter_le _ _
  · simp [removeFrom, hj]

lemma dispatchable_suspendOnly (h : Dispatchable s) (hidle : t ≠ idleThread)
    (hs : suspendOnly s t = .ok s') : Dispatchable s' where
  queued := by
    rw [suspendOnly_currentThread hs]
    exact h.queued.suspendOnly hs
  pinned := by
    unfold IdlePinned
    rw [suspendOnly_data hs]
    exact h.pinned
  onlyIdle := fun u d hd => h.onlyIdle u d (suspendOnly_data hs u ▸ hd)
  ready := by
    rcases suspendOnly_ok hs with ⟨_, rfl⟩ | ⟨_, i, hl, _, rfl⟩
    · exact h.ready
    intro j u hu
    have hne : u ≠ t := by
      rintro rfl
      exact h.queued.removeFrom_out hl j hu
    simpa [hne] using h.ready j u (mem_removeFrom.1 hu).1
  idle := held_suspendOnly hs hidle.symm h.idle
  idleActive := by
    unfold Active
    rw [suspendOnly_state_of_ne hs hidle.symm]
    exact h.idleActive
  idleRoom := by
    intro hc
    rcases suspendOnly_ok hs with ⟨_, rfl⟩ | ⟨_, i, _, _, rfl⟩
    · exact h.idleRoom hc
    · exact (length_removeFrom_le (s.setState t .suspended) i t 4).trans_lt (h.idleRoom hc)

lemma dispatchable_suspended {s1 : State} (h : Dispatchable s)
    (hidle : idleThread ∉ ts) (h1 : ts.foldlM suspendOnly s = .ok s1) : Dispatchable s1 :=
  foldlM_suspendOnly (fun _ ht _ _ hu hv =>
    dispatchable_suspendOnly hu (fun he => hidle (he ▸ ht)) hv) h h1

lemma dispatchable_suspends (h : Dispatchable s) (hidle : idleThread ∉ ts)
    (hs : Suspends s ts s') : Dispatchable s' := by
  cases hs with
  | returns h1 _ => exact dispatchable_suspended h hidle h1
  | schedules h1 _ _ hs => exact dispatchable_schedule (dispatchable_suspended h hidle h1) hs

lemma dispatchable_suspend (h : Dispatchable s) (hidle : t ≠ idleThread)
    (hs : suspend s t = .ok s') : Dispatchable s' :=
  dispatchable_suspends h (fun hm => hidle (mem_singleton.1 hm).symm) (suspend_suspends hs)

lemma removeThread_queues (hs : removeThread s t = .ok s') :
    s'.queues = s.queues ∨ ∃ i, s'.queues = (s.removeFrom i t).queues := by
  obtain ⟨d, _, ⟨_, rfl⟩ | ⟨i, _, _, rfl⟩⟩ := removeThread_ok hs
  · exact .inl rfl
  · refine .inr ⟨i, ?_⟩
    unfold releaseCurrent
    split_ifs <;> rfl

lemma removeThread_current (hs : removeThread s t = .ok s')
    (hc : s'.currentThread = some c) : s.currentThread = some c := by
  obtain ⟨d, _, ⟨_, rfl⟩ | ⟨i, _, _, rfl⟩⟩ := removeThread_ok hs
  · exact hc
  unfold releaseCurrent at hc
  split_ifs at hc
  · cases hc
  · exact hc

lemma ready_step (h : Dispatchable s) (hsp : Spared s op) (hs : step s op = .ok s') :
    ∀ i t, t ∈ s'.queues i → s'.state t = .ready := by
  cases op with
  | addThread =>
    cases hs
    intro i t ht
    rw [addThread_state]
    split_ifs with htn
    · rfl
    refine h.ready i t ?_
    rw [addThread_eq] at ht
    split_ifs at ht
    · exact added_queues s ▸ ht
    · rcases mem_push ht with ht | ⟨he, _⟩
      · exact added_queues s ▸ ht
      · exact absurd he htn
  | removeThread u =>
    intro i t ht
    rw [removeThread_state hs]
    rcases removeThread_queues hs with he | ⟨j, he⟩
    · exact h.ready i t (he ▸ ht)
    · rw [he] at ht
      exact h.ready i t (mem_removeFrom.1 ht).1
  | schedule => exact ready_schedule h.queued h.ready hs
  | yield u =>
    cases hs
    have hn := nudged_threadYield s u
    intro i t ht
    rw [hn.state]
    exact h.ready i t (hn.queues ▸ ht)
  | suspend u => exact (dispatchable_suspend h hsp hs).ready
  | suspendProcess ts => exact (dispatchable_suspends h hsp (suspendProcess_suspends hs)).ready
  | resume u =>
    rcases resume_ok hs with ⟨_, rfl⟩ | ⟨hst, d, i, _, _, _, rfl⟩
    · exact h.ready
    have hn := nudged_resumed s u d i
    intro j t ht
    simp only [state_push, hn.state, state_setState, state_setData]
    split_ifs with htu
    · rfl
    · rcases mem_push ht with ht | ⟨he, _⟩
      · exact h.ready j t (by rw [hn.queues] at ht; exact ht)
      · exact absurd he htu
  | kill u =>
    cases hs
    intro i t ht
    have hq : t ∈ s.queues i := by
      unfold kill at ht
      split_ifs at ht <;> exact ht
    have hne : t ≠ u := by
      rintro rfl
      exact hsp.2 i hq
    rw [kill_state, if_neg hne]
    exact h.ready i t hq

lemma resumedLevel_lt_idle (h : Dispatchable s) (hst : s.state t = .suspended)
    (hd : s.data t = some d) : resumedLevel d < 4 := by
  have hpin : d.isPinned = false := by
    by_contra hp
    obtain rfl := h.onlyIdle t d hd (by simpa using hp)
    exact h.idleActive (.inr hst)
  have hr := (h.queued.range t _ (level_of_data hd)).2
  unfold runLevels at hr
  unfold resumedLevel
  split_ifs with hpos
  · omega
  · have : ¬ 0 < d.runLevel := fun hlt => hpos ⟨hpin, hlt⟩
    omega

lemma idleRoom_step (h : Dispatchable s) (hsp : Spared s op) (hs : step s op = .ok s')
    (hc : s'.currentThread = some idleThread) : (s'.queues 4).length < runLevelDepth := by
  cases op with
  | addThread =>
    cases hs
    rw [addThread_eq] at hc ⊢
    split_ifs at hc ⊢ with hf
    · rw [added_queues]
      exact h.idleRoom (added_currentThread s ▸ hc)
    have hcur : s.currentThread = some idleThread := by
      rw [← added_currentThread, ← currentThread_push s.added 0 s.nextThread]
      exact hc
    have hq : (s.added.push 0 s.nextThread).queues 4 = s.queues 4 := by
      rw [queues_push_of_not_full (by simpa using hf), if_neg (by decide), added_queues]
    exact hq ▸ h.idleRoom hcur
  | removeThread u =>
    have hlt := h.idleRoom (removeThread_current hs hc)
    rcases removeThread_queues hs with he | ⟨j, he⟩
    · exact he ▸ hlt
    · exact he ▸ (length_removeFrom_le s j u 4).trans_lt hlt
  | schedule => exact idleRoom_schedule h hs hc
  | yield u =>
    cases hs
    have hn := nudged_threadYield s u
    exact hn.queues ▸ h.idleRoom (hn.currentThread ▸ hc)
  | suspend u => exact (dispatchable_suspend h hsp hs).idleRoom hc
  | suspendProcess ts => exact (dispatchable_suspends h hsp (suspendProcess_suspends hs)).idleRoom hc
  | resume u =>
    rcases resume_ok hs with ⟨_, rfl⟩ | ⟨hst, d, i, hd, hl, _, rfl⟩
    · exact h.idleRoom hc
    have hn := nudged_resumed s u d i
    rw [currentThread_push, hn.currentThread] at hc
    have hlt := h.idleRoom hc
    have hi := resumedLevel_lt_idle h hst hd
    cases hf : (s.resumed u d i).full i with
    | true =>
      rw [push_of_full hf, hn.queues]
      exact hlt
    | false =>
      rw [queues_push_of_not_full hf, if_neg (by omega), hn.queues]
      exact hlt
  | kill u =>
    cases hs
    unfold kill at hc ⊢
    split_ifs at hc ⊢ <;> exact h.idleRoom hc

lemma Spared.not_takes_idle (h : Spared s op) : ¬ Takes op idleThread := by
  cases op with
  | suspend t | removeThread t => exact fun he => h he.symm
  | kill t => exact fun he => h.1 he.symm
  | suspendProcess ts => exact h
  | addThread | schedule | yield t | resume t => exact id

lemma dispatchable_step (hset : Settled s) (h : Dispatchable s) (hsp : Spared s op)
    (hs : step s op = .ok s') : Dispatchable s' := by
  have hidle := held_step hs hsp.not_takes_idle (fun _ => h.roomFor) (h.pinned.lt_nextThread hset)
    h.idleActive h.idle
  refine ⟨(settled_step hset hs).queued, idlePinned_step hset h.pinned ?_ hs, ?_,
    ready_step h hsp hs, hidle.1, hidle.2, idleRoom_step h hsp hs⟩
  · rintro rfl
    exact hsp rfl
  · intro t d hd hp
    obtain ⟨e, he, hpe⟩ := pinned_of_step hset hs hd hp
    exact h.onlyIdle t e he hpe

lemma noDispatchPanic_schedule (h : Dispatchable s) : NoDispatchPanic (schedule s) := by
  obtain ⟨s', hs⟩ := schedule_returns h
  exact hs ▸ noDispatchPanic_ok s'

lemma noDispatchPanic_step (h : Dispatchable s) (hsp : Spared s op) :
    NoDispatchPanic (step s op) := by
  cases op with
  | addThread => exact noDispatchPanic_ok _
  | removeThread t => exact noDispatchPanic_removeThread s t
  | schedule => exact noDispatchPanic_schedule h
  | yield t => exact noDispatchPanic_ok _
  | suspend t =>
    refine noDispatchPanic_bind (noDispatchPanic_suspendOnly s t) fun s1 h1 => ?_
    split_ifs
    · exact noDispatchPanic_schedule (dispatchable_suspendOnly h hsp h1)
    · exact noDispatchPanic_ok s1
  | suspendProcess ts =>
    refine noDispatchPanic_bind (noDispatchPanic_foldlM ts s) fun s1 h1 => ?_
    split
    · split_ifs
      · exact noDispatchPanic_schedule (dispatchable_suspended h hsp h1)
      · exact noDispatchPanic_ok s1
    · exact noDispatchPanic_ok s1
  | resume t => exact noDispatchPanic_resume s t
  | kill t => exact noDispatchPanic_ok _

lemma dispatchable_initial : Dispatchable initial where
  queued := settled_initial.queued
  pinned := idlePinned_initial
  onlyIdle := fun t d hd _ => by
    rw [initial_data] at hd
    split_ifs at hd with ht
    exact ht
  ready := fun _ t _ => initial_state t
  idle := idle_held_initial
  idleActive := idle_active_initial
  idleRoom := fun hc => by cases hc

/-- In a run that kills no queued thread and leaves the idle thread alone, no
operation reaches either panic of `schedule`. -/
theorem never_dispatches_dead (ops : List Op) (h : Meets next Spared initial ops) :
    ∀ pre op, pre ++ [op] <+: ops → ∀ s, exec next initial pre = some s →
      NoDispatchPanic (step s op) := by
  intro pre op hpre s hs
  have hall := always_of_meets (I := fun u => Settled u ∧ Dispatchable u)
    (fun u o v hu ho hv => ⟨settled_step hu.1 (next_eq_some.1 hv),
      dispatchable_step hu.1 hu.2 ho (next_eq_some.1 hv)⟩)
    ⟨settled_initial, dispatchable_initial⟩ h
  have hp : pre <+: ops := (prefix_append pre [op]).trans hpre
  exact noDispatchPanic_step (hall pre hp s hs).2 (h pre op hpre s hs)

/-- The current thread is killed, and the next schedule does not panic. -/
theorem never_dispatches_dead_after_kill :
    ∃ s, exec next initial [.addThread, .schedule, .kill 1] = some s ∧
      NoDispatchPanic (step s .schedule) := by
  refine ⟨_, rfl, never_dispatches_dead [.addThread, .schedule, .kill 1, .schedule] ?_
    [.addThread, .schedule, .kill 1] .schedule prefix_rfl _ rfl⟩
  simp only [meets_cons]
  refine ⟨trivial, fun s1 h1 => ⟨trivial, fun s2 h2 => ⟨⟨by decide, fun i hi => ?_⟩, fun s3 _ =>
    ⟨trivial, fun _ _ => meets_nil _ _ _⟩⟩⟩⟩
  have hrun : exec next initial [.addThread, .schedule] = some s2 := by simp [h1, h2]
  cases h1
  cases h2
  exact ((leveled_run hrun).settled.queued.current 1 rfl).2 i hi

/-- A killed thread that waits in a queue is chosen; and with the idle thread
stopped nothing may be left to choose. -/
theorem dead_thread_dispatched :
    (∃ s, exec next initial [.addThread, .addThread, .schedule, .kill 2, .yield 1] = some s ∧
      step s .schedule = .error .chosenInvalidState) ∧ ∃ s, exec next initial [.schedule] = some s ∧
      step s (.suspend idleThread) = .error .chosenNull :=
  ⟨⟨_, rfl, rfl⟩, ⟨_, rfl, rfl⟩⟩

end GzOS.Scheduling
