import GzOS.StrictPriority

/-!
# No thread is lost

`Scheduler::schedule` and `Scheduler::resume` put a thread back without looking at the
result of the push. A thread that meets a full queue stays READY, but no queue holds it.
With room at every such push, and the idle thread left alone, every ready thread is
current or queued.
-/
namespace GzOS.Scheduling
open Runs State Except

def Held (s : State) (t : ℕ) : Prop := s.currentThread = some t ∨ ∃ i, t ∈ s.queues i

def Active (s : State) (t : ℕ) : Prop := ¬ (s.state t = .terminated ∨ s.state t = .suspended)

/-- A registered ready thread that is not current is once in the queue of its run level; the
idle thread is current or queued. -/
def Conserved (s : State) : Prop :=
  (∀ t ∈ s.registered, s.state t = .ready → s.currentThread ≠ some t →
    ∃ i : ℕ, s.level t = some (i : ℤ) ∧ (s.queues i).count t = 1 ∧
      ∀ j, j ≠ i → t ∉ s.queues j) ∧ Held s idleThread

def requeueLevel (s : State) : Option ℤ :=
  match s.currentThread with
  | none => none
  | some c =>
    if s.state c = .terminated ∨ s.state c = .suspended then none
    else match s.data c with
      | none => none
      | some d =>
        if d.yieldRequested then some d.runLevel
        else if d.quantum ≤ 1 then some (bumpedLevel d) else none

/-- There is room wherever a thread is put back, and the idle thread is not taken away. -/
def Room (s : State) : Op → Prop
  | .schedule => ∀ i : ℕ, requeueLevel s = some (i : ℤ) → s.full i = false
  | .resume t => s.state t = .suspended →
      ∀ i : ℕ, (s.data t).map resumedLevel = some (i : ℤ) → s.full i = false
  | .suspend t | .kill t | .removeThread t => t ≠ idleThread
  | .suspendProcess ts => idleThread ∉ ts
  | .addThread | .yield _ => True

variable {s s' : State} {t u : ℕ} {op : Op}

lemma queued_prepared {s0 : State} (hp : Prepared s s0) (ht : Held s t) (ha : Active s t)
    (hroom : s.currentThread = some t →
      ∀ i : ℕ, requeueLevel s = some (i : ℤ) → s.full i = false) : ∃ i, t ∈ s0.queues i := by
  have hback : ∀ (c i : ℕ) (d : PolicyData), s.currentThread = some c →
      requeueLevel s = some (i : ℤ) → ∃ j, t ∈ (s.requeue c d i).queues j := by
    intro c i d hc hl
    rcases ht with hcur | ⟨j, hj⟩
    · obtain rfl : c = t := by simpa [hc] using hcur
      exact ⟨i, mem_push_self (s := (s.setData c d).setState c .ready) (hroom hc i hl) c⟩
    · exact ⟨j, mem_push_of_mem (s := (s.setData c d).setState c .ready) hj⟩
  cases hp with
  | vacant hv => exact ht.resolve_left fun hcur => ha (hv t hcur)
  | @yielded c i d hc hact hd hy hl _ =>
    exact hback c i _ hc (by simp only [requeueLevel, hc, if_neg hact, hd, hy, if_true, hl])
  | @expired c i d hc hact hd hy hq hl _ =>
    exact hback c i _ hc (by
      simp only [requeueLevel, hc, if_neg hact, hd, hy, Bool.false_eq_true, if_false, if_pos hq,
        hl])

lemma held_pop {i : ℕ} {rest : List ℕ} (hp : Popped s u i rest) (ht : ∃ j, t ∈ s.queues j) :
    Held ((s.pop i rest).dispatch u) t := by
  obtain ⟨j, hj⟩ := ht
  by_cases hji : j = i
  · subst hji
    rw [hp.head] at hj
    rcases List.mem_cons.1 hj with rfl | hrest
    · exact .inl rfl
    · exact .inr ⟨j, by simpa using hrest⟩
  · exact .inr ⟨j, by simpa [hji] using hj⟩

lemma held_schedule (hs : schedule s = .ok s') (ht : Held s t) (ha : Active s t)
    (hroom : s.currentThread = some t →
      ∀ i : ℕ, requeueLevel s = some (i : ℤ) → s.full i = false) : Held s' t := by
  rcases schedule_cases hs with ⟨s0, u, i, rest, hp, hpop, _, rfl⟩ | ⟨c, d, hc, rfl⟩
  · exact held_pop hpop (queued_prepared hp ht ha hroom)
  rcases ht with hcur | hq
  · obtain rfl : c = t := by simpa [hc.current] using hcur
    exact .inl rfl
  · exact .inr hq

lemma ready_of_schedule (hs : schedule s = .ok s') (ht : s'.state t = .ready) :
    s.state t = .ready ∨ (s.currentThread = some t ∧ Active s t) := by
  rcases schedule_cases hs with ⟨s0, u, i, rest, hp, hpop, _, rfl⟩ | ⟨c, d, hc, rfl⟩
  · have hne : t ≠ u := by
      rintro rfl
      simp at ht
    have hst : s0.state t = .ready := by simpa [hne] using ht
    cases hp with
    | vacant _ => exact .inl hst
    | @yielded c i d hc hact _ _ _ _ =>
      by_cases htc : t = c
      · exact .inr (htc ▸ ⟨hc, hact⟩)
      · exact .inl (by simpa [requeue, htc] using hst)
    | @expired c i d hc hact _ _ _ _ _ =>
      by_cases htc : t = c
      · exact .inr (htc ▸ ⟨hc, hact⟩)
      · exact .inl (by simpa [requeue, htc] using hst)
  · have hne : t ≠ c := by
      rintro rfl
      simp at ht
    exact .inl (by simpa [hne] using ht)

lemma active_schedule (hs : schedule s = .ok s') (ha : Active s t) : Active s' t := by
  rcases schedule_cases hs with ⟨s0, u, i, rest, hp, hpop, _, rfl⟩ | ⟨c, d, hc, rfl⟩
  · have hst : s0.state t = .ready ∨ s0.state t = s.state t := by
      cases hp with
      | vacant _ => exact .inr rfl
      | @yielded c i d _ _ _ _ _ _ => by_cases htc : t = c <;> simp [requeue, htc]
      | @expired c i d _ _ _ _ _ _ _ => by_cases htc : t = c <;> simp [requeue, htc]
    by_cases htu : t = u
    · simp [Active, htu]
    · rcases hst with h | h
      · simp [Active, htu, h]
      · simpa [Active, htu, h] using ha
  · by_cases htc : t = c
    · simp [Active, htc]
    · simpa [Active, htc] using ha

lemma Held.of_same (h : Held s t) (hc : s'.currentThread = s.currentThread)
    (hq : ∀ i, t ∈ s.queues i → t ∈ s'.queues i) : Held s' t := by
  rcases h with h | ⟨i, hi⟩
  · exact .inl (hc ▸ h)
  · exact .inr ⟨i, hq i hi⟩

lemma held_suspendOnly (hs : suspendOnly s t = .ok s') (hne : u ≠ t) (h : Held s u) :
    Held s' u := by
  rcases suspendOnly_ok hs with ⟨_, rfl⟩ | ⟨_, i, _, _, rfl⟩
  · exact h
  · exact h.of_same rfl fun j hj => mem_removeFrom.2 ⟨hj, fun _ => hne⟩

lemma held_addThread (h : Held s u) : Held (addThread s) u := by
  rw [addThread_eq]
  split_ifs
  · exact h.of_same (added_currentThread s) (fun i hi => added_queues s ▸ hi)
  · refine h.of_same ?_ fun i hi => ?_
    · exact (currentThread_push _ _ _).trans (added_currentThread s)
    · exact mem_push_of_mem (added_queues s ▸ hi)

lemma held_resume (hs : resume s t = .ok s') (h : Held s u) : Held s' u := by
  rcases resume_ok hs with ⟨_, rfl⟩ | ⟨_, d, i, _, _, _, rfl⟩
  · exact h
  have hn := nudged_resumed s t d i
  refine h.of_same ?_ fun j hj => mem_push_of_mem (by rw [hn.queues]; exact hj)
  rw [currentThread_push, hn.currentThread]
  rfl

lemma held_removeThread (hs : removeThread s t = .ok s') (hne : u ≠ t) (h : Held s u) :
    Held s' u := by
  obtain ⟨d, _, ⟨_, rfl⟩ | ⟨i, _, _, rfl⟩⟩ := removeThread_ok hs
  · exact h
  have hq : ∀ j, u ∈ s.queues j → u ∈ (s.removeFrom i t).queues j :=
    fun j hj => mem_removeFrom.2 ⟨hj, fun _ => hne⟩
  unfold releaseCurrent
  split_ifs with hc
  · have hc' : s.currentThread = some t := hc
    obtain ⟨j, hj⟩ := h.resolve_left fun hcur => hne (by simpa [hc'] using hcur.symm)
    exact .inr ⟨j, hq j hj⟩
  · exact h.of_same rfl hq

lemma addThread_state (s : State) (u : ℕ) :
    (addThread s).state u = if u = s.nextThread then .ready else s.state u := by
  rw [← added_state, addThread_eq]
  split_ifs
  · rfl
  · exact state_push _ _ _ _

lemma removeThread_state (hs : removeThread s t = .ok s') (u : ℕ) : s'.state u = s.state u := by
  obtain ⟨d, _, ⟨_, rfl⟩ | ⟨i, _, _, rfl⟩⟩ := removeThread_ok hs
  · rfl
  have h1 := state_setData (s.removeFrom i t) t u { d with runLevel := -1 }
  unfold releaseCurrent
  split_ifs
  · exact h1
  · exact h1

lemma resume_state (hs : resume s t = .ok s') :
    s'.state u = s.state u ∨ (u = t ∧ s.state t = .suspended ∧ s'.state u = .ready) := by
  rcases resume_ok hs with ⟨_, rfl⟩ | ⟨hst, d, i, _, _, _, rfl⟩
  · exact .inl rfl
  have hn := nudged_resumed s t d i
  by_cases hut : u = t
  · exact .inr ⟨hut, hst, by simp [hn.state, hut]⟩
  · exact .inl (by simp [hn.state, hut])

lemma kill_state (s : State) (t u : ℕ) :
    (kill s t).state u = if u = t then .terminated else s.state u := by
  unfold kill
  split_ifs with h hut
  · rw [hut, h]
  · rfl
  all_goals simp_all

lemma kill_held (h : Held s u) : Held (kill s t) u := by
  unfold kill
  split_ifs
  · exact h
  · exact h

def Takes : Op → ℕ → Prop
  | .suspend t, u | .kill t, u | .removeThread t, u => u = t
  | .suspendProcess ts, u => u ∈ ts
  | _, _ => False

def RoomFor (s : State) (u : ℕ) : Prop :=
  s.currentThread = some u → ∀ i : ℕ, requeueLevel s = some (i : ℤ) → s.full i = false

lemma held_suspends {ts : List ℕ} (hs : Suspends s ts s') (hne : u ∉ ts) (ha : Active s u)
    (h : Held s u) : Held s' u ∧ Active s' u := by
  have hfold : ∀ v, ts.foldlM suspendOnly s = .ok v → Held v u ∧ Active v u := by
    intro v h1
    refine ⟨foldlM_suspendOnly (P := fun v => Held v u) (fun t ht _ _ hv hw => ?_) h h1, ?_⟩
    · exact held_suspendOnly hw (fun he => hne (he ▸ ht)) hv
    · unfold Active
      rwa [suspended_state h1 hne]
  cases hs with
  | returns h1 _ => exact hfold s' h1
  | @schedules s1 c h1 hmem hcur hs =>
    obtain ⟨hheld, hact⟩ := hfold s1 h1
    refine ⟨held_schedule hs hheld hact fun hcur' => ?_, active_schedule hs hact⟩
    obtain rfl : c = u := by simpa [suspended_currentThread h1, hcur] using hcur'
    exact absurd hmem hne

lemma held_step {s s' : State} {op : Op} {u : ℕ} (hs : step s op = .ok s')
    (htake : ¬ Takes op u) (hroom : op = .schedule → RoomFor s u) (hlt : u < s.nextThread)
    (ha : Active s u) (h : Held s u) : Held s' u ∧ Active s' u := by
  cases op with
  | addThread =>
    cases hs
    refine ⟨held_addThread h, ?_⟩
    unfold Active
    rwa [addThread_state, if_neg hlt.ne]
  | removeThread t =>
    refine ⟨held_removeThread hs htake h, ?_⟩
    unfold Active
    rwa [removeThread_state hs]
  | schedule => exact ⟨held_schedule hs h ha (hroom rfl), active_schedule hs ha⟩
  | yield t =>
    cases hs
    have hn := nudged_threadYield s t
    refine ⟨h.of_same hn.currentThread fun _ hi => hn.queues ▸ hi, ?_⟩
    unfold Active
    rwa [hn.state]
  | suspend t => exact held_suspends (suspend_suspends hs) (htake ∘ List.mem_singleton.1) ha h
  | suspendProcess ts => exact held_suspends (suspendProcess_suspends hs) htake ha h
  | resume t =>
    refine ⟨held_resume hs h, ?_⟩
    unfold Active
    rcases resume_state hs with he | ⟨_, _, he⟩
    · rwa [he]
    · simp [he]
  | kill t =>
    cases hs
    refine ⟨kill_held h, ?_⟩
    unfold Active
    rwa [kill_state, if_neg (show u ≠ t from htake)]

/-- The thread is ready, or about to be put back by the next `schedule`. -/
def Waiting (s : State) (u : ℕ) : Prop :=
  s.state u = .ready ∨ (s.currentThread = some u ∧ Active s u)

lemma Waiting.active (h : Waiting s u) : Active s u := by
  rcases h with h | h
  · simp [Active, h]
  · exact h.2

lemma waiting_of_suspendOnly (hs : suspendOnly s t = .ok s') (h : Waiting s' u) :
    Waiting s u ∧ u ≠ t := by
  have hne : u ≠ t := by
    rintro rfl
    exact h.active (suspendOnly_inactive hs)
  refine ⟨?_, hne⟩
  unfold Waiting Active at h ⊢
  rwa [suspendOnly_state_of_ne hs hne, suspendOnly_currentThread hs] at h

lemma waiting_of_suspended {ts : List ℕ} (hs : ts.foldlM suspendOnly s = .ok s')
    (h : Waiting s' u) : Waiting s u ∧ u ∉ ts := by
  induction ts generalizing s with
  | nil => exact ok.inj hs ▸ ⟨h, List.not_mem_nil⟩
  | cons t ts ih =>
    obtain ⟨m, hm, hs⟩ := bind_ok.1 hs
    obtain ⟨hw, hnot⟩ := ih hs
    obtain ⟨hw, hne⟩ := waiting_of_suspendOnly hm hw
    exact ⟨hw, by simp [hne, hnot]⟩

lemma ready_of_suspends {ts : List ℕ} (hs : Suspends s ts s') (hu : s'.state u = .ready) :
    Waiting s u ∧ u ∉ ts := by
  cases hs with
  | returns h1 _ => exact waiting_of_suspended h1 (.inl hu)
  | schedules h1 _ _ hs => exact waiting_of_suspended h1 (ready_of_schedule hs hu)

lemma ready_of_step (hs : step s op = .ok s') (hu : s'.state u = .ready) :
    (op = .addThread ∧ u = s.nextThread) ∨ (op = .resume u ∧ s.state u = .suspended) ∨
      (Waiting s u ∧ (Takes op u → op = .removeThread u)) := by
  cases op with
  | addThread =>
    cases hs
    rw [addThread_state] at hu
    split_ifs at hu with hun
    · exact .inl ⟨rfl, hun⟩
    · exact .inr (.inr ⟨.inl hu, False.elim⟩)
  | removeThread t =>
    rw [removeThread_state hs] at hu
    refine .inr (.inr ⟨.inl hu, fun h => ?_⟩)
    rw [show u = t from h]
  | schedule => exact .inr (.inr ⟨ready_of_schedule hs hu, False.elim⟩)
  | yield t =>
    cases hs
    rw [(nudged_threadYield s t).state] at hu
    exact .inr (.inr ⟨.inl hu, False.elim⟩)
  | suspend t =>
    obtain ⟨hw, hnot⟩ := ready_of_suspends (suspend_suspends hs) hu
    exact .inr (.inr ⟨hw, fun h => absurd (List.mem_singleton.2 h) hnot⟩)
  | suspendProcess ts =>
    obtain ⟨hw, hnot⟩ := ready_of_suspends (suspendProcess_suspends hs) hu
    exact .inr (.inr ⟨hw, fun h => absurd h hnot⟩)
  | resume t =>
    rcases resume_state (u := u) hs with he | ⟨rfl, hst, _⟩
    · exact .inr (.inr ⟨.inl (he ▸ hu), False.elim⟩)
    · exact .inr (.inl ⟨rfl, hst⟩)
  | kill t =>
    cases hs
    rw [kill_state] at hu
    split_ifs at hu with hut
    exact .inr (.inr ⟨.inl hu, fun h => absurd h hut⟩)

lemma addThread_held_self (hreg : s.nextThread ∈ (addThread s).registered)
    (hlt : ∀ t ∈ s.registered, t < s.nextThread) : Held (addThread s) s.nextThread := by
  rw [addThread_eq] at hreg ⊢
  split_ifs at hreg ⊢ with hf
  · have hr : s.added.registered = s.registered := (nudged_yieldCurrent _).registered
    exact absurd (hlt _ (hr ▸ hreg)) (lt_irrefl _)
  · exact .inr ⟨0, mem_push_self (by simpa using hf) _⟩

lemma resume_held_self (hst : s.state t = .suspended) (hroom : Room s (.resume t))
    (hs : resume s t = .ok s') : Held s' t := by
  rcases resume_ok hs with ⟨hne, _⟩ | ⟨_, d, i, hd, hl, _, rfl⟩
  · exact absurd hst hne
  · refine .inr ⟨i, mem_push_self ?_ t⟩
    have hf := hroom hst i (by simp [hd, hl])
    simpa [full, (nudged_resumed s t d i).queues] using hf

structure Kept (s : State) : Prop where
  leveled : Leveled s
  pinned : IdlePinned s
  ready : ∀ t ∈ s.registered, s.state t = .ready → Held s t
  idle : Held s idleThread
  idleActive : Active s idleThread

lemma Leveled.lt_nextThread (h : Leveled s) (ht : t ∈ s.registered) : t < s.nextThread := by
  obtain ⟨l, hl, _⟩ := h.registered t ht
  exact h.settled.queued.lt_nextThread hl

lemma IdlePinned.lt_nextThread (h : IdlePinned s) (hs : Settled s) :
    idleThread < s.nextThread := by
  obtain ⟨d, hd, _, _⟩ := h
  exact hs.queued.lt_nextThread (level_of_data hd)

lemma Room.not_takes_idle (h : Room s op) : ¬ Takes op idleThread := by
  cases op with
  | suspend t | kill t | removeThread t => exact fun he => h he.symm
  | suspendProcess ts => exact h
  | addThread | schedule | yield t | resume t => exact id

lemma Room.roomFor (h : Room s op) (u : ℕ) : op = .schedule → RoomFor s u := by
  rintro rfl _
  exact h

lemma ready_held_step (h : Kept s) (hroom : Room s op) (hs : step s op = .ok s')
    (ht : t ∈ s'.registered) (hst : s'.state t = .ready) : Held s' t := by
  rcases ready_of_step hs hst with ⟨rfl, rfl⟩ | ⟨rfl, hsus⟩ | ⟨hw, htake⟩
  · cases hs
    exact addThread_held_self ht fun _ => h.leveled.lt_nextThread
  · exact resume_held_self hsus hroom hs
  rcases registered_step hs ht with ⟨hreg, hrem⟩ | ⟨rfl, rfl⟩
  · have hheld : Held s t := by
      rcases hw with hr | ⟨hc, _⟩
      · exact h.ready t hreg hr
      · exact .inl hc
    refine (held_step hs (fun htk => ?_) (hroom.roomFor t) (h.leveled.lt_nextThread hreg)
      hw.active hheld).1
    obtain ⟨l, hl, hneg⟩ := hrem (htake htk)
    obtain ⟨m, hm, hpos⟩ := h.leveled.registered t hreg
    obtain rfl : l = m := by simpa [hl] using hm
    omega
  · cases hs
    exact addThread_held_self ht fun _ => h.leveled.lt_nextThread

lemma kept_step (h : Kept s) (hroom : Room s op) (hs : step s op = .ok s') : Kept s' := by
  have hidle := held_step hs hroom.not_takes_idle (hroom.roomFor idleThread)
    (h.pinned.lt_nextThread h.leveled.settled) h.idleActive h.idle
  refine ⟨leveled_step h.leveled hs, idlePinned_step h.leveled.settled h.pinned ?_ hs,
    fun t => ready_held_step h hroom hs, hidle.1, hidle.2⟩
  rintro rfl
  exact hroom rfl

lemma idle_held_initial : Held initial idleThread := Or.inr ⟨4, by simp [initial_queues]⟩

lemma idle_active_initial : Active initial idleThread := by simp [Active, initial_state]

lemma kept_initial : Kept initial := by
  refine ⟨leveled_initial, idlePinned_initial, fun t ht => ?_, idle_held_initial,
    idle_active_initial⟩
  cases ht

lemma Kept.conserved (h : Kept s) : Conserved s := by
  refine ⟨fun t ht hst hne => ?_, h.idle⟩
  obtain ⟨i, hi⟩ := (h.ready t ht hst).resolve_left hne
  have hq := h.leveled.settled.queued
  have hl := (hq.entry i t hi).2
  refine ⟨i, hl, List.count_eq_one_of_mem (hq.nodup i) hi, fun j hj hmem => hj ?_⟩
  have := (hq.entry j t hmem).2
  rw [hl] at this
  simpa using this.symm

/-- In every run with room at each push, no thread is lost. -/
theorem no_thread_lost (ops : List Op) (h : Meets next Room initial ops) :
    Always next Conserved initial ops :=
  (always_of_meets (fun _ _ _ hk hroom hs => kept_step hk hroom (next_eq_some.1 hs)) kept_initial
    h).mono fun _ => Kept.conserved

theorem no_thread_lost_two_added :
    Always next Conserved initial [.addThread, .schedule, .addThread, .schedule] := by
  refine no_thread_lost _ ?_
  simp only [meets_cons]
  refine ⟨trivial, fun s1 h1 => ⟨?_, fun s2 h2 => ⟨trivial, fun s3 h3 => ⟨?_, fun s4 _ =>
    meets_nil _ _ _⟩⟩⟩⟩
  · cases h1
    intro i hi
    cases hi
  · cases h1
    cases h2
    cases h3
    intro i hi
    have hi0 : (0 : ℤ) = i := Option.some.inj hi
    obtain rfl : 0 = i := by exact_mod_cast hi0
    rfl

/-- Ten threads fill the topmost queue; the eleventh takes the place that the running one
left. -/
def crowdedRun : List Op := List.replicate 10 .addThread ++ [.schedule, .addThread, .schedule]

/-- A thread is lost on a full queue, and the idle thread by its suspension. -/
theorem thread_lost : (∃ s, exec next initial crowdedRun = some s ∧ ¬ Conserved s) ∧
      ∃ s, exec next initial [.schedule, .addThread, .suspend idleThread] = some s ∧
        ¬ Conserved s := by
  constructor
  · refine ⟨_, rfl, fun h => ?_⟩
    obtain ⟨i, hl, hcount, _⟩ := h.1 1 (by decide) rfl (by decide)
    have hi0 : (0 : ℤ) = i := Option.some.inj hl
    obtain rfl : 0 = i := by exact_mod_cast hi0
    revert hcount
    decide
  · have hrun : exec next initial [.schedule, .addThread, .suspend idleThread] = some _ := rfl
    refine ⟨_, hrun, fun h => ?_⟩
    rcases h.2 with hc | ⟨i, hi⟩
    · exact absurd hc (by decide)
    · exact (leveled_run hrun).settled.queued.suspended idleThread rfl i hi

end GzOS.Scheduling
