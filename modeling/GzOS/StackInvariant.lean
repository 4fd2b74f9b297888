import GzOS.Bindings
import GzOS.ThreadStacks

/-!
# What threads and maps keep to

The regions of a process are called after thread ids that are in use, and so are
those of the threads that wait for their deletion. New threads, processes and maps
keep it so: each comes with an id or a map that is not in use yet.
-/
namespace GzOS.Stacks
open Kernel Function Option List Nat

open Bindings

variable {s t : Kernel} {p : ℕ} {process : Process}

structure Sound (s : Kernel) (p : ℕ) (process : Process) : Prop where
  owned : ∀ x ∈ process.threads, x.proc = p ∧ x.userStackRegion.map = process.memoryMap ∧
    s.regions process.memoryMap x.userStackRegion.name = some x.userStackRegion.stamp
  distinct : process.threads.Pairwise fun x y => x.userStackRegion.name ≠ y.userStackRegion.name
  spared : ∀ x ∈ process.threads, ∀ y ∈ s.queued, y.proc = p →
    x.userStackRegion.name ≠ y.userStackRegion.name
  named : ∀ name, s.regions process.memoryMap name ≠ none → name ∈ s.tids
  numbered : p < s.nextProcess ∧ process.memoryMap < s.nextMap
  current : Job.deleteMap process.memoryMap ∉ s.queue

structure Waits (s : Kernel) : Prop where
  terminated : ∀ y ∈ s.queued, y.terminated = true
  reserved : ∀ y ∈ s.queued, y.userStackRegion.name ∈ s.tids
  numbered : ∀ y ∈ s.queued, y.proc < s.nextProcess
  retired : ∀ map, Job.deleteMap map ∈ s.queue → map < s.nextMap

structure Kept (s : Kernel) : Prop where
  sound : ∀ p process, s.processes p = some process → Sound s p process
  apart : ∀ p q process process', s.processes p = some process →
    s.processes q = some process' → p ≠ q → process.memoryMap ≠ process'.memoryMap
  waits : Waits s

lemma Kept.boot : Kept boot := by
  constructor
  case waits => constructor <;> simp [Kernel.boot, Kernel.queued]
  all_goals simp [Kernel.boot]

lemma Kept.keepsStacks (h : Kept s) : s.KeepsStacks where
  present p process hp x hx _ := by
    obtain ⟨rfl, hmap, hregion⟩ := (h.sound p process hp).owned x hx
    exact ⟨process, hp, hmap, hregion⟩
  queued := h.waits.terminated
  own p process hp := (h.sound p process hp).distinct.imp fun hne heq =>
    hne (congrArg Region.name heq)

/-! ## Frames -/

structure Grows (s t : Kernel) : Prop where
  tids : s.tids ⊆ t.tids
  nextProcess : s.nextProcess ≤ t.nextProcess
  nextMap : s.nextMap ≤ t.nextMap

lemma Sound.frame (h : Sound s p process) (hg : Grows s t)
    (hregions : t.regions process.memoryMap = s.regions process.memoryMap)
    (hqueued : ∀ y ∈ t.queued, y.proc = p → y ∈ s.queued)
    (hjobs : ∀ map, Job.deleteMap map ∈ t.queue → map = process.memoryMap →
      Job.deleteMap map ∈ s.queue) : Sound t p process where
  owned x hx := hregions ▸ h.owned x hx
  distinct := h.distinct
  spared x hx y hy hyp := h.spared x hx y (hqueued y hy hyp) hyp
  named name hname := hg.tids (h.named name (hregions ▸ hname))
  numbered := ⟨h.numbered.1.trans_le hg.nextProcess, h.numbered.2.trans_le hg.nextMap⟩
  current hin := h.current (hjobs _ hin rfl)

lemma Waits.frame (h : Waits s) (hg : Grows s t) (hq : t.queue = s.queue) : Waits t := by
  have hqueued : t.queued = s.queued := by simp only [queued, hq]
  constructor
  · exact hqueued ▸ h.terminated
  · exact fun y hy => hg.tids (h.reserved y (hqueued ▸ hy))
  · exact fun y hy => (h.numbered y (hqueued ▸ hy)).trans_le hg.nextProcess
  · exact fun map hin => (h.retired map (hq ▸ hin)).trans_le hg.nextMap

lemma Kept.replace (h : Kept s) (hprocesses : t.processes = update s.processes p (some process))
    (hsound : Sound t p process)
    (hothers : ∀ q old, q ≠ p → s.processes q = some old →
      Sound t q old ∧ process.memoryMap ≠ old.memoryMap)
    (hwaits : Waits t) : Kept t where
  sound q old hq := by
    rw [hprocesses] at hq
    rcases update_some_cases hq with ⟨rfl, rfl⟩ | ⟨hne, hold⟩
    · exact hsound
    · exact (hothers q old hne hold).1
  apart q r old old' hq hr hqr := by
    rw [hprocesses] at hq hr
    rcases update_some_cases hq with ⟨rfl, rfl⟩ | ⟨hne, hold⟩ <;>
      rcases update_some_cases hr with ⟨rfl, rfl⟩ | ⟨hne', hold'⟩
    · exact absurd rfl hqr
    · exact (hothers r old' hne' hold').2
    · exact (hothers q old hne hold).2.symm
    · exact h.apart q r old old' hold hold' hqr
  waits := hwaits

lemma createThread_cases (h : s.createThread p = some t) :
    ∃ process tid, s.processes p = some process ∧ allocate s.tids = some tid ∧
      t = { (s.setRegion process.memoryMap tid (some s.nextStamp)).setProcess p
          (some { process with threads := process.threads ++
            [⟨tid, p, ⟨process.memoryMap, tid, s.nextStamp⟩, false⟩] }) with
        tids := insert tid s.tids
        nextStamp := s.nextStamp + 1 } := by
  obtain ⟨process, hp, h⟩ := bind_eq_some_iff.1 h
  obtain ⟨tid, htid, h⟩ := bind_eq_some_iff.1 h
  split at h
  case isTrue => cases h
  case isFalse => exact ⟨process, tid, hp, htid, (some.inj h).symm⟩

lemma Sound.name_free (h : Sound s p process) {tid : ℕ} (htid : tid ∉ s.tids) :
    s.regions process.memoryMap tid = none := by
  by_contra hsome
  exact htid (h.named tid hsome)

lemma Sound.name_ne (h : Sound s p process) {tid : ℕ}
    (htid : s.regions process.memoryMap tid = none) {x : Thread} (hx : x ∈ process.threads) :
    x.userStackRegion.name ≠ tid := by
  intro he
  have hregion := (h.owned x hx).2.2
  rw [he, htid] at hregion
  cases hregion

lemma regions_setRegion (s : Kernel) (map name : ℕ) (stamp : Option ℕ) :
    (s.setRegion map name stamp).regions map = update (s.regions map) name stamp :=
  update_self ..

variable {map position : ℕ} {y : Thread} {sections : List ℕ}

lemma regions_setRegion_of_ne (s : Kernel) {map' : ℕ} (h : map' ≠ map) (name : ℕ)
    (stamp : Option ℕ) : (s.setRegion map name stamp).regions map' = s.regions map' :=
  update_of_ne h ..

/-- The stack of a new thread is a region with a name that was free. -/
lemma Kept.createThread (h : Kept s) (hstep : s.createThread p = some t) : Kept t := by
  obtain ⟨process, tid, hp, halloc, ht⟩ := createThread_cases hstep
  have hgrows : Grows s t := by
    subst ht
    exact ⟨Finset.subset_insert .., le_rfl, le_rfl⟩
  subst ht
  have htid := allocate_notMem halloc
  have hs := h.sound p process hp
  have hfree := hs.name_free htid
  refine h.replace rfl ?_ ?_ (h.waits.frame hgrows rfl)
  · constructor
    case owned =>
      intro x hx
      rcases mem_append.1 hx with hold | hnew
      · obtain ⟨hproc, hmap, hregion⟩ := hs.owned x hold
        refine ⟨hproc, hmap, ?_⟩
        refine (congrFun (regions_setRegion ..) _).trans ?_
        exact (update_of_ne (hs.name_ne hfree hold) ..).trans hregion
      · obtain rfl := mem_singleton.1 hnew
        exact ⟨rfl, rfl, (congrFun (regions_setRegion ..) _).trans (update_self ..)⟩
    case distinct =>
      refine pairwise_append.2 ⟨hs.distinct, pairwise_singleton .., ?_⟩
      intro x hx y hy
      obtain rfl := mem_singleton.1 hy
      exact hs.name_ne hfree hx
    case spared =>
      intro x hx y hy hyp
      rcases mem_append.1 hx with hold | hnew
      · exact hs.spared x hold y hy hyp
      obtain rfl := mem_singleton.1 hnew
      intro he
      have he : tid = y.userStackRegion.name := he
      exact htid (he ▸ h.waits.reserved y hy)
    case named =>
      intro name hname
      by_cases he : name = tid
      · exact Finset.mem_insert.2 (.inl he)
      · refine Finset.mem_insert_of_mem (hs.named name fun hnone => hname ?_)
        exact (congrFun (regions_setRegion ..) _).trans
          ((update_of_ne he ..).trans hnone)
    case numbered => exact hs.numbered
    case current => exact hs.current
  · intro q old hq hold
    have hne := h.apart q p old process hold hp hq
    exact ⟨(h.sound q old hold).frame hgrows (regions_setRegion_of_ne s hne ..)
      (fun _ hy _ => hy) (fun _ hin _ => hin), hne.symm⟩

/-! ## New maps -/

lemma regions_setMap (s : Kernel) (map : ℕ) (regions : ℕ → Option ℕ) :
    (s.setMap map regions).regions map = regions := update_self ..

lemma regions_setMap_of_ne (s : Kernel) {map' : ℕ} (h : map' ≠ map) (regions : ℕ → Option ℕ) :
    (s.setMap map regions).regions map' = s.regions map' :=
  update_of_ne h ..

lemma Kept.newMap (h : Kept s) : Job.deleteMap s.nextMap ∉ s.queue := fun hin =>
  lt_irrefl _ (h.waits.retired _ hin)

lemma Kept.others_newMap (h : Kept s) (hg : Grows s t) {regions : ℕ → Option ℕ}
    (hregions : t.regions = (s.setMap s.nextMap regions).regions) (hqueue : t.queue = s.queue)
    {q : ℕ} {old : Process} (hold : s.processes q = some old) :
    Sound t q old ∧ s.nextMap ≠ old.memoryMap := by
  have hs := h.sound q old hold
  have hqueued : t.queued = s.queued := congrArg (flatMap Job.threads) hqueue
  refine ⟨hs.frame hg ?_ (fun _ hy _ => hqueued ▸ hy) (fun _ hin _ => hqueue ▸ hin),
    hs.numbered.2.ne'⟩
  rw [hregions]
  exact regions_setMap_of_ne s hs.numbered.2.ne _

lemma Kept.newProcess (h : Kept s) : Kept (s.newProcess []) := by
  have hgrows : Grows s (s.newProcess []) := ⟨subset_rfl, le_succ _, le_succ _⟩
  refine h.replace rfl ?_ ?_ (h.waits.frame hgrows rfl)
  · refine ⟨by simp, List.Pairwise.nil, by simp, fun name hname => ?_,
      ⟨lt_succ_self _, lt_succ_self _⟩, h.newMap⟩
    exact absurd ((congrFun (regions_setMap ..) name).trans (if_neg not_mem_nil)) hname
  · exact fun q old _ hold => h.others_newMap hgrows rfl rfl hold

lemma fork_cases (h : s.forkProcess p position = some t) :
    ∃ process x tid stamp, s.processes p = some process ∧ x ∈ process.threads ∧
      allocate s.tids = some tid ∧ s.regions process.memoryMap x.userStackRegion.name = some stamp ∧
      t = { (s.setMap s.nextMap (s.regions process.memoryMap)).setProcess s.nextProcess
          (some ⟨s.nextMap, [⟨tid, s.nextProcess,
            ⟨s.nextMap, x.userStackRegion.name, stamp⟩, false⟩], false⟩) with
        tids := insert tid s.tids
        nextProcess := s.nextProcess + 1
        nextMap := s.nextMap + 1 } := by
  obtain ⟨process, hp, h⟩ := bind_eq_some_iff.1 h
  obtain ⟨x, hx, h⟩ := bind_eq_some_iff.1 h
  split at h
  · cases h
  obtain ⟨tid, htid, h⟩ := bind_eq_some_iff.1 h
  obtain ⟨stamp, hstamp, h⟩ := bind_eq_some_iff.1 h
  exact ⟨process, x, tid, stamp, hp, mem_of_getElem? hx, htid, hstamp, (some.inj h).symm⟩

lemma Kept.forkProcess (h : Kept s) (hstep : s.forkProcess p position = some t) : Kept t := by
  obtain ⟨process, x, tid, stamp, hp, hx, halloc, hstamp, ht⟩ := fork_cases hstep
  have hgrows : Grows s t := by
    subst ht
    exact ⟨Finset.subset_insert .., le_succ _, le_succ _⟩
  subst ht
  have hcopy := regions_setMap s s.nextMap (s.regions process.memoryMap)
  refine h.replace rfl ?_ ?_ (h.waits.frame hgrows rfl)
  · constructor
    case owned =>
      intro y hy
      obtain rfl := mem_singleton.1 hy
      exact ⟨rfl, rfl, (congrFun hcopy _).trans hstamp⟩
    case distinct => exact pairwise_singleton ..
    case spared =>
      intro _ _ y hy hyp
      exact absurd (hyp ▸ h.waits.numbered y hy) (lt_irrefl _)
    case named =>
      intro name hname
      refine Finset.mem_insert_of_mem ((h.sound p process hp).named name fun hnone => hname ?_)
      exact (congrFun hcopy name).trans hnone
    case numbered => exact ⟨lt_succ_self _, lt_succ_self _⟩
    case current => exact h.newMap
  · exact fun q old _ hold => h.others_newMap hgrows rfl rfl hold

/-! ## `exec` -/

section Put

variable (s : Kernel) (job : Job)

@[simp] lemma workqueuePut_tids : (s.workqueuePut job).tids = s.tids := by
  unfold workqueuePut
  split <;> rfl

@[simp] lemma workqueuePut_regions : (s.workqueuePut job).regions = s.regions := by
  unfold workqueuePut
  split <;> rfl

@[simp] lemma workqueuePut_processes : (s.workqueuePut job).processes = s.processes := by
  unfold workqueuePut
  split <;> rfl

@[simp] lemma workqueuePut_nextProcess : (s.workqueuePut job).nextProcess = s.nextProcess := by
  unfold workqueuePut
  split <;> rfl

end Put

lemma mem_workqueuePut {job job' : Job} (h : job' ∈ (s.workqueuePut job).queue) :
    job' ∈ s.queue ∨ job' = job := by
  unfold workqueuePut at h
  split at h
  · simpa using h
  · exact .inl h

lemma mem_queued_workqueuePut {job : Job} (h : y ∈ (s.workqueuePut job).queued) :
    y ∈ s.queued ∨ y ∈ job.threads := by
  obtain ⟨job', hin, hy⟩ := mem_flatMap.1 h
  rcases mem_workqueuePut hin with hold | rfl
  · exact .inl (mem_flatMap.2 ⟨job', hold, hy⟩)
  · exact .inr hy

lemma mem_kill (h : y ∈ process.kill) :
    y.terminated ∧ ∃ x ∈ process.threads, x.proc = y.proc ∧
      x.userStackRegion = y.userStackRegion := by
  obtain ⟨x, hx, rfl⟩ := mem_map.1 h
  exact ⟨rfl, x, hx, rfl, rfl⟩

lemma exec_queued (h : y ∈ (s.exec p process sections).queued) :
    y ∈ s.queued ∨ y ∈ process.kill := by
  rcases mem_queued_workqueuePut h with h | h
  · exact mem_queued_workqueuePut h
  · cases h

lemma exec_jobs (h : Job.deleteMap map ∈ (s.exec p process sections).queue) :
    Job.deleteMap map ∈ s.queue ∨ map = process.memoryMap := by
  rcases mem_workqueuePut h with h | h
  · rcases mem_workqueuePut h with h | h
    · exact .inl h
    · cases h
  · exact .inr (by injection h)

lemma exec_processes (s : Kernel) (p : ℕ) (process : Process) (sections : List ℕ) :
    (s.exec p process sections).processes = update s.processes p
      (some { process with memoryMap := s.nextMap, threads := [] }) := by
  simp [Kernel.exec, Kernel.setProcess, Kernel.setMap]

lemma Kept.exec (h : Kept s) (hp : s.processes p = some process) :
    Kept (s.exec p process []) := by
  have hs := h.sound p process hp
  have hgrows : Grows s (s.exec p process []) := by
    constructor <;> simp [Kernel.exec, Kernel.setProcess, Kernel.setMap]
  have hkilled : ∀ y ∈ process.kill, y.terminated ∧ y.proc = p ∧
      y.userStackRegion.name ∈ s.tids := by
    intro y hy
    obtain ⟨hterm, x, hx, hproc, hregion⟩ := mem_kill hy
    obtain ⟨hxp, -, hxr⟩ := hs.owned x hx
    refine ⟨hterm, hproc ▸ hxp, hregion ▸ hs.named _ ?_⟩
    simp [hxr]
  have hempty : ∀ name, (s.exec p process []).regions s.nextMap name = none := by
    intro name
    simp [Kernel.exec, Kernel.setProcess, Kernel.setMap]
  refine h.replace (exec_processes s p process []) ?_ ?_ ?_
  · refine ⟨by simp, List.Pairwise.nil, by simp, fun name hname => absurd (hempty name) hname,
      ⟨hs.numbered.1.trans_le hgrows.nextProcess, lt_succ_self _⟩, fun hin => ?_⟩
    rcases exec_jobs hin with hold | hold
    · exact h.newMap hold
    · exact hs.numbered.2.ne' hold
  · intro q old hq hold
    have hso := h.sound q old hold
    refine ⟨hso.frame hgrows ?_ ?_ ?_, hso.numbered.2.ne'⟩
    · simp [Kernel.exec, Kernel.setProcess, Kernel.setMap, update_of_ne hso.numbered.2.ne]
    · intro y hy hyq
      rcases exec_queued hy with hin | hkill
      · exact hin
      · exact absurd ((hkilled y hkill).2.1.symm.trans hyq).symm hq
    · intro map hin hmap
      rcases exec_jobs hin with hin | he
      · exact hin
      · exact absurd (hmap.symm.trans he) (h.apart q p old process hold hp hq)
  · constructor
    · intro y hy
      rcases exec_queued hy with hin | hkill
      · exact h.waits.terminated y hin
      · exact (hkilled y hkill).1
    · intro y hy
      rcases exec_queued hy with hin | hkill
      · exact hgrows.tids (h.waits.reserved y hin)
      · exact hgrows.tids (hkilled y hkill).2.2
    · intro y hy
      rcases exec_queued hy with hin | hkill
      · exact (h.waits.numbered y hin).trans_le hgrows.nextProcess
      · rw [(hkilled y hkill).2.1]
        exact hs.numbered.1.trans_le hgrows.nextProcess
    · intro map hin
      rcases exec_jobs hin with hin | rfl
      · exact (h.waits.retired map hin).trans_le hgrows.nextMap
      · exact hs.numbered.2.trans_le hgrows.nextMap

/-! ## Killed threads -/

lemma Kept.setThreads (h : Kept s) (hp : s.processes p = some process) (exited : Bool)
    {threads : List Thread}
    (hsame : threads.map (fun x => (x.proc, x.userStackRegion)) =
      process.threads.map fun x => (x.proc, x.userStackRegion)) :
    Kept (s.setProcess p (some ⟨process.memoryMap, threads, exited⟩)) := by
  have hs := h.sound p process hp
  have hgrows : Grows s (s.setProcess p (some ⟨process.memoryMap, threads, exited⟩)) :=
    ⟨subset_rfl, le_rfl, le_rfl⟩
  have hold : ∀ y ∈ threads, ∃ x ∈ process.threads, x.proc = y.proc ∧
      x.userStackRegion = y.userStackRegion := by
    intro y hy
    have hin := hsame ▸ mem_map_of_mem hy
    simpa using hin
  have hnames : threads.map (fun x => x.userStackRegion.name) =
      process.threads.map fun x => x.userStackRegion.name := by
    simpa [comp_def] using congrArg (map fun r : ℕ × Region => r.2.name) hsame
  refine h.replace rfl ?_ ?_ (h.waits.frame hgrows rfl)
  · constructor
    case owned =>
      intro y hy
      obtain ⟨x, hx, hproc, hregion⟩ := hold y hy
      exact hproc ▸ hregion ▸ hs.owned x hx
    case distinct =>
      have hpair := pairwise_map.2 hs.distinct
      rw [← hnames] at hpair
      exact pairwise_map.1 hpair
    case spared =>
      intro y hy z hz hzp
      obtain ⟨x, hx, -, hregion⟩ := hold y hy
      exact hregion ▸ hs.spared x hx z hz hzp
    case named => exact hs.named
    case numbered => exact hs.numbered
    case current => exact hs.current
  · intro q old hq hold'
    exact ⟨(h.sound q old hold').frame hgrows rfl (fun _ hy _ => hy) (fun _ hin _ => hin),
      (h.apart q p old process hold' hp hq).symm⟩

lemma map_set_eq {α β : Type} (f : α → β) {xs : List α} {i : ℕ} {x y : α}
    (hx : xs[i]? = some x) (hf : f y = f x) : (xs.set i y).map f = xs.map f := by
  obtain ⟨hlt, rfl⟩ := List.getElem?_eq_some_iff.1 hx
  have hlt' : i < (xs.map f).length := by simpa using hlt
  rw [map_set, hf, ← getElem_map f (h := hlt'), set_getElem_self]

lemma kill_cases (h : s.killThread p position = some t) :
    ∃ process x, s.processes p = some process ∧ process.threads[position]? = some x ∧
      t = s.setProcess p (some { process with
        threads := process.threads.set position { x with terminated := true } }) := by
  obtain ⟨process, hp, h⟩ := bind_eq_some_iff.1 h
  obtain ⟨x, hx, h⟩ := bind_eq_some_iff.1 h
  exact ⟨process, x, hp, hx, (some.inj h).symm⟩

lemma exit_cases (h : s.exit p = some t) :
    ∃ process, s.processes p = some process ∧
      (t = s ∨ t = s.setProcess p (some ⟨process.memoryMap, process.kill, true⟩)) := by
  obtain ⟨process, hp, h⟩ := bind_eq_some_iff.1 h
  refine ⟨process, hp, ?_⟩
  split at h
  · exact .inl (some.inj h).symm
  · exact .inr (some.inj h).symm

lemma execProcess_cases (h : s.execProcess p sections = some t) :
    ∃ process, s.processes p = some process ∧
      (t = s ∨ (s.exec p process sections).createThread p = some t) := by
  obtain ⟨process, hp, h⟩ := bind_eq_some_iff.1 h
  refine ⟨process, hp, ?_⟩
  split at h
  · exact .inl (some.inj h).symm
  · exact .inr h

lemma Kept.killThread (h : Kept s) (hstep : s.killThread p position = some t) : Kept t := by
  obtain ⟨process, x, hp, hx, rfl⟩ := kill_cases hstep
  exact h.setThreads hp process.exited (map_set_eq _ hx rfl)

lemma Kept.exit (h : Kept s) (hstep : s.exit p = some t) : Kept t := by
  obtain ⟨process, hp, rfl | rfl⟩ := exit_cases hstep
  · exact h
  · refine h.setThreads hp true ?_
    simp [Process.kill]

end GzOS.Stacks
