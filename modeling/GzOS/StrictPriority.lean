import GzOS.RunLevels

/-!
# Strict priority of the feedback queue

The thread that `schedule` dispatches has the lowest run level of all queued threads.
While the current thread keeps its quantum the queues are not read at all; an arrival on
a lower level has then already left a yield request.
-/
namespace GzOS.Scheduling
open Runs Except State

def Alert (s : State) : Prop :=
  ∀ c d, s.currentThread = some c → s.data c = some d →
    d.yieldRequested = true ∨ ∀ i t, t ∈ s.queues i → d.runLevel ≤ i

/-- No queued thread has a lower level than the current one. -/
def LowestDispatched (s : State) : Prop :=
  ∃ c l, s.currentThread = some c ∧ s.level c = some l ∧
    ∀ i t, t ∈ s.queues i → ∃ m, s.level t = some m ∧ l ≤ m

def CallsSchedule (s : State) : Op → Prop
  | .schedule => True
  | .suspend t => (s.state t = .ready ∨ s.state t = .running) ∧ s.currentThread = some t
  | .suspendProcess ts => ∃ c ∈ ts, s.currentThread = some c
  | _ => False

variable {s s' : State} {t : ℕ}

lemma Popped.not_above {i : ℕ} {rest : List ℕ} (hp : Popped s t i rest) {j u : ℕ}
    (hu : u ∈ (s.pop i rest).queues j) : i ≤ j := by
  by_contra hlt
  rw [queues_pop, if_neg (by omega), hp.above j (not_le.1 hlt)] at hu
  cases hu

lemma lowest_schedule (h : Queued s s.currentThread) (ha : Alert s) (hs : schedule s = .ok s') :
    LowestDispatched s' := by
  rcases schedule_cases hs with ⟨s0, t, i, rest, hp, hpop, _, rfl⟩ | ⟨c, d, hc, rfl⟩
  · have hq := h.prepared hp
    have hmem : t ∈ s0.queues i := by rw [hpop.head]; exact List.mem_cons_self
    refine ⟨t, i, rfl, by simpa using (hq.entry i t hmem).2, fun j u hu => ?_⟩
    have hle := hpop.not_above hu
    exact ⟨j, by simpa using ((hq.pop hpop).entry j u hu).2, by exact_mod_cast hle⟩
  · have hle := (ha c d hc.current hc.data).resolve_left (by simp [hc.noYield])
    refine ⟨c, d.runLevel, rfl, by simp, fun j u hu => ⟨j, ?_, hle j u hu⟩⟩
    have hne : u ≠ c := by
      rintro rfl
      exact (h.current u hc.current).2 j hu
    simpa [hne] using (h.entry j u hu).2

lemma alert_of_lowest (h : Queued s s.currentThread) (hl : LowestDispatched s) : Alert s := by
  intro c d hc hd
  obtain ⟨c', l, hc', hlev, hlow⟩ := hl
  obtain rfl : c = c' := by simpa [hc] using hc'
  obtain rfl : d.runLevel = l := by simpa [level_of_data hd] using hlev
  refine .inr fun i t ht => ?_
  obtain ⟨m, hm, hle⟩ := hlow i t ht
  obtain rfl : (i : ℤ) = m := by simpa [(h.entry i t ht).2] using hm
  exact hle

lemma alert_schedule (h : Queued s s.currentThread) (ha : Alert s) (hs : schedule s = .ok s') :
    Alert s' :=
  alert_of_lowest (settled_schedule h hs).queued (lowest_schedule h ha hs)

lemma Alert.mono (h : Alert s) (hc : ∀ c, s'.currentThread = some c → s.currentThread = some c)
    (hd : ∀ c d', s'.currentThread = some c → s'.data c = some d' →
      ∃ d, s.data c = some d ∧ d'.runLevel = d.runLevel ∧
        (d.yieldRequested → d'.yieldRequested))
    (hq : ∀ i t, t ∈ s'.queues i → t ∈ s.queues i) : Alert s' := by
  intro c d' hcur hdat
  obtain ⟨d, hd, hl, hy⟩ := hd c d' hcur hdat
  rcases h c d (hc c hcur) hd with hreq | hlow
  · exact .inl (hy hreq)
  · exact .inr fun i t ht => hl ▸ hlow i t (hq i t ht)

variable {c : ℕ} {d : PolicyData} {ts : List ℕ} {op : Op} {ops : List Op}

lemma Nudged.data_of (h : Nudged s s') {d' : PolicyData} (hd : s'.data c = some d') :
    ∃ d, s.data c = some d ∧ d'.runLevel = d.runLevel ∧
      (d.yieldRequested → d'.yieldRequested) := by
  rcases h.data c with he | ⟨d, hs, hs'⟩
  · exact ⟨d', he ▸ hd, rfl, id⟩
  · obtain rfl : { d with yieldRequested := true } = d' := by simpa [hs'] using hd
    exact ⟨d, hs, rfl, fun _ => rfl⟩

lemma alert_suspendOnly (h : Alert s) (hs : suspendOnly s t = .ok s') : Alert s' := by
  rcases suspendOnly_ok hs with ⟨_, rfl⟩ | ⟨_, i, _, _, rfl⟩
  · exact h
  · exact h.mono (fun _ hc => hc) (fun c d' _ hd => ⟨d', by simpa using hd, rfl, id⟩)
      (fun j u hu => (mem_removeFrom.1 hu).1)

lemma alert_removeThread (h : Alert s) (hs : removeThread s t = .ok s') : Alert s' := by
  obtain ⟨d, hd, ⟨_, rfl⟩ | ⟨i, _, _, rfl⟩⟩ := removeThread_ok hs
  · exact h
  unfold releaseCurrent
  split_ifs with hc
  · intro c _ hcur
    cases hcur
  · refine h.mono (fun _ hcur => hcur) (fun c d' hcur hdat => ⟨d', ?_, rfl, id⟩)
      (fun j u hu => (mem_removeFrom.1 hu).1)
    have hne : c ≠ t := by
      rintro rfl
      exact hc hcur
    change ((s.removeFrom i t).setData t { d with runLevel := -1 }).data c = some d' at hdat
    simpa [hne] using hdat

lemma yieldCurrent_requested (hc : s.currentThread = some c)
    (hd : (yieldCurrent s).data c = some d) : d.yieldRequested := by
  unfold yieldCurrent at hd
  simp only [hc, threadYield] at hd
  split at hd
  · obtain rfl := Option.some.inj (by simpa using hd)
    rfl
  · next hn => simp [hn] at hd

lemma alert_addThread (s : State) : Alert (addThread s) := by
  have hreq : ∀ c d, s.currentThread = some c → s.added.data c = some d →
      d.yieldRequested = true := by
    intro c d hc hd
    simp only [added, data_setState] at hd
    exact yieldCurrent_requested (by exact hc) hd
  rw [addThread_eq]
  split_ifs with hf
  · intro c d hc hd
    exact .inl (hreq c d (added_currentThread s ▸ hc) hd)
  intro c d hc hd
  refine .inl (hreq c d ?_ ?_)
  · have : (s.added.push 0 s.nextThread).currentThread = some c := hc
    rwa [currentThread_push, added_currentThread] at this
  · have : (s.added.push 0 s.nextThread).data c = some d := hd
    rwa [data_push] at this

lemma yieldCurrentAbove_requested {l : ℤ} (hc : s.currentThread = some c)
    (hd : (yieldCurrentAbove s l).data c = some d) : d.yieldRequested ∨ d.runLevel ≤ l := by
  unfold yieldCurrentAbove at hd
  simp only [hc] at hd
  split at hd
  · next e he =>
    split_ifs at hd with hl
    · simp only [threadYield, he, data_setData] at hd
      cases hd
      exact .inl rfl
    · obtain rfl : e = d := by simpa [he] using hd
      exact .inr (not_lt.1 hl)
  · next hn => simp [hn] at hd

lemma alert_resume (h : Settled s) (ha : Alert s) (hs : resume s t = .ok s') : Alert s' := by
  rcases resume_ok hs with ⟨_, rfl⟩ | ⟨hst, d, i, hd, hl, hi, rfl⟩
  · exact ha
  have hn := nudged_resumed s t d i
  intro c e hc he
  have hcur : s.currentThread = some c := by
    rw [currentThread_push, hn.currentThread] at hc
    exact hc
  rw [data_push] at he
  have hct : c ≠ t := by
    rintro rfl
    exact h.active c hcur hst
  obtain ⟨e0, he0, hlev, hy⟩ := hn.data_of he
  have he0' : s.data c = some e0 := by simpa [hct] using he0
  rcases yieldCurrentAbove_requested (s := (s.setData t (resumedData d i)).setState t .ready)
    hcur he with hreq | hle
  · exact .inl hreq
  · rcases ha c e0 hcur he0' with hreq | hlow
    · exact .inl (hy hreq)
    · refine .inr fun j u hu => ?_
      rcases mem_push hu with hu | ⟨_, rfl⟩
      · rw [hn.queues] at hu
        rw [hlev]
        exact hlow j u hu
      · rw [← hl]
        exact hle

lemma alert_suspended (ha : Alert s) (hs : ts.foldlM suspendOnly s = .ok s') : Alert s' :=
  foldlM_suspendOnly (fun _ _ _ _ hu hv => alert_suspendOnly hu hv) ha hs

lemma alert_suspends (h : Settled s) (ha : Alert s) (hs : Suspends s ts s') : Alert s' := by
  cases hs with
  | returns h1 _ => exact alert_suspended ha h1
  | schedules h1 _ _ hs =>
    exact alert_schedule (suspended_queued h h1) (alert_suspended ha h1) hs

lemma alert_kill (h : Alert s) : Alert (kill s t) := by
  unfold kill
  split_ifs
  · exact h
  · exact h.mono (fun _ hc => hc) (fun c d' _ hd => ⟨d', by simpa using hd, rfl, id⟩)
      (fun _ _ hu => hu)

lemma alert_step (h : Settled s) (ha : Alert s) (hs : step s op = .ok s') : Alert s' := by
  cases op with
  | addThread => exact ok.inj hs ▸ alert_addThread s
  | removeThread t => exact alert_removeThread ha hs
  | schedule => exact alert_schedule h.queued ha hs
  | yield t =>
    have hn := nudged_threadYield s t
    exact ok.inj hs ▸ ha.mono (fun _ hc => hn.currentThread ▸ hc)
      (fun _ _ _ hd => hn.data_of hd) (fun _ _ ht => hn.queues ▸ ht)
  | suspend t => exact alert_suspends h ha (suspend_suspends hs)
  | suspendProcess ts => exact alert_suspends h ha (suspendProcess_suspends hs)
  | resume t => exact alert_resume h ha hs
  | kill t => exact ok.inj hs ▸ alert_kill ha

lemma lowest_step (h : Settled s) (ha : Alert s) (hs : step s op = .ok s')
    (hc : CallsSchedule s op) : LowestDispatched s' := by
  cases op with
  | schedule => exact lowest_schedule h.queued ha hs
  | suspend t =>
    obtain ⟨s1, h1, hs⟩ := bind_ok.1 hs
    rw [if_pos (show (s.state t = .ready ∨ s.state t = .running) ∧ s.currentThread = some t
      from hc)] at hs
    refine lowest_schedule ?_ (alert_suspendOnly ha h1) hs
    rw [suspendOnly_currentThread h1]
    exact h.queued.suspendOnly h1
  | suspendProcess ts =>
    obtain ⟨s1, h1, hs⟩ := bind_ok.1 hs
    obtain ⟨c, hmem, hcur⟩ := hc
    simp only [hcur, if_pos hmem] at hs
    exact lowest_schedule (suspended_queued h h1) (alert_suspended ha h1) hs
  | addThread | removeThread t | yield t | resume t | kill t => exact hc.elim

structure Leveled (s : State) : Prop where
  settled : Settled s
  alert : Alert s
  registered : ∀ t ∈ s.registered, ∃ l, s.level t = some l ∧ 0 ≤ l

lemma leveled_step (h : Leveled s) (hs : step s op = .ok s') : Leveled s' := by
  refine ⟨settled_step h.settled hs, alert_step h.settled h.alert hs, fun t ht => ?_⟩
  rcases registered_step hs ht with ⟨hmem, hop⟩ | ⟨rfl, rfl⟩
  · obtain ⟨l, hl, hpos⟩ := h.registered t hmem
    obtain ⟨d, hd, rfl⟩ := Option.map_eq_some_iff.1 hl
    obtain ⟨d', hd', _, hmove⟩ := data_step h.settled hs hd
    refine ⟨d'.runLevel, level_of_data hd', hmove.nonneg hpos fun he => ?_⟩
    obtain ⟨m, hm, hneg⟩ := hop he
    obtain rfl : d.runLevel = m := by simpa [hl] using hm
    omega
  · exact ⟨0, ok.inj hs ▸ addThread_level_self s, le_rfl⟩

lemma leveled_initial : Leveled initial := by
  refine ⟨settled_initial, ?_, ?_⟩
  · intro c d hc
    cases hc
  · intro t ht
    cases ht

lemma leveled_run (h : exec next initial ops = some s) : Leveled s :=
  (always_of_step (fun _ _ _ hi ht => leveled_step hi (next_eq_some.1 ht)) leveled_initial
    ops).last h

lemma idlePinned_run (h : exec next initial ops = some s)
    (hops : .removeThread idleThread ∉ ops) : IdlePinned s := by
  have hmeets : Meets next (fun _ op => op ≠ .removeThread idleThread) initial ops := by
    rintro pre op hpre _ _ rfl
    exact hops (hpre.subset (by simp))
  have hall := always_of_meets (I := fun u => Settled u ∧ IdlePinned u)
    (fun u op v hu hop hv => ⟨settled_step hu.1 (next_eq_some.1 hv),
      idlePinned_step hu.1 hu.2 hop (next_eq_some.1 hv)⟩)
    ⟨settled_initial, idlePinned_initial⟩ hmeets
  exact (hall.last h).2

/-- Strict priority: after any operations, `schedule` dispatches a thread of
the lowest level, all levels are in range, and levels move one at a time. -/
theorem strict_priority (ops : List Op) (s : State) (h : exec next initial ops = some s) :
    (∀ t ∈ s.registered, ∃ l, s.level t = some l ∧ 0 ≤ l ∧ l < 5) ∧
      (.removeThread idleThread ∉ ops → IdlePinned s) ∧ ∀ op s', step s op = .ok s' →
        (CallsSchedule s op → LowestDispatched s') ∧ ∀ t d, s.data t = some d →
            ∃ d', s'.data t = some d' ∧ LevelMove s op t d d'.runLevel := by
  have hlev := leveled_run h
  refine ⟨fun t ht => ?_, idlePinned_run h, fun op s' hs => ⟨?_, fun t d hd => ?_⟩⟩
  · obtain ⟨l, hl, hpos⟩ := hlev.registered t ht
    exact ⟨l, hl, hpos, (hlev.settled.queued.range t l hl).2⟩
  · exact lowest_step hlev.settled hlev.alert hs
  · obtain ⟨d', hd', _, hmove⟩ := data_step hlev.settled hs hd
    exact ⟨d', hd', hmove⟩

theorem strict_priority_after_arrival :
    ∃ s s', exec next initial [.schedule, .addThread, .addThread] = some s ∧
      step s .schedule = .ok s' ∧ LowestDispatched s' :=
  ⟨_, _, rfl, rfl, ((strict_priority [.schedule, .addThread, .addThread] _ rfl).2.2
    .schedule _ rfl).1 trivial⟩

/-- `remove` does not test whether the thread is pinned. -/
theorem idleThread_removed :
    ∃ s, exec next initial [.removeThread idleThread] = some s ∧ s.level idleThread = some (-1) ∧
      ¬ IdlePinned s := by
  refine ⟨_, rfl, rfl, ?_⟩
  rintro ⟨d, hd, -, hlevel⟩
  cases hd
  cases hlevel

end GzOS.Scheduling
