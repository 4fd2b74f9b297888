import GzOS.StackInvariant

/-!
# Threads keep their stacks

A new thread finds its name free, and a deferred deletion finds no region of a
live thread under its name, as long as no id is given back that some region is
still called after.
-/
namespace GzOS.Stacks

open Bindings Runs List Option

variable {s t : Kernel} {p : ℕ} {process : Process}

structure Kernel.Unnamed (s : Kernel) (tid : ℕ) : Prop where
  regions : ∀ p < s.nextProcess, ∀ process ∈ s.processes p, s.regions process.memoryMap tid = none
  queued : ∀ y ∈ s.queued, y.userStackRegion.name ≠ tid

instance (s : Kernel) (tid : ℕ) : Decidable (s.Unnamed tid) :=
  decidable_of_iff ((∀ p < s.nextProcess, ∀ process ∈ s.processes p,
      s.regions process.memoryMap tid = none) ∧ ∀ y ∈ s.queued, y.userStackRegion.name ≠ tid)
    ⟨fun h => ⟨h.1, h.2⟩, fun h => ⟨h.1, h.2⟩⟩

variable {map : ℕ} {x : Thread}

lemma deleteThread_cases (h : s.deleteThread map x = some t) :
    t = { s.setRegion map x.userStackRegion.name none with tids := s.tids.erase x.tid } := by
  simp only [Kernel.deleteThread] at h
  split at h
  · exact (some.inj h).symm
  · cases h

lemma regions_setRegion_none {map' name name' : ℕ}
    (h : (s.setRegion map name none).regions map' name' ≠ none) : s.regions map' name' ≠ none := by
  by_cases hm : map' = map
  · subst hm
    rw [regions_setRegion] at h
    by_cases hn : name' = name
    · subst hn
      simp at h
    · rwa [Function.update_of_ne hn] at h
  · rwa [regions_setRegion_of_ne s hm] at h

lemma Kernel.Unnamed.deleteThread {tid : ℕ} (h : s.Unnamed tid)
    (hstep : s.deleteThread map x = some t) : t.Unnamed tid := by
  obtain rfl := deleteThread_cases hstep
  refine ⟨fun p hp process hprocess => ?_, h.queued⟩
  by_contra hsome
  exact regions_setRegion_none hsome (h.regions p hp process hprocess)

lemma Kept.deleteThread (h : Kept s)
    (hothers : ∀ p process, s.processes p = some process → process.memoryMap = map →
      ∀ y ∈ process.threads, y.userStackRegion.name ≠ x.userStackRegion.name)
    (hunnamed : s.Unnamed x.tid) (hstep : s.deleteThread map x = some t) : Kept t := by
  obtain rfl := deleteThread_cases hstep
  refine ⟨fun p process hp => ?_, h.apart, ?_⟩
  · have hs := h.sound p process hp
    refine ⟨fun y hy => ?_, hs.distinct, hs.spared, fun name hname => ?_, hs.numbered, hs.current⟩
    · obtain ⟨hproc, hmap, hregion⟩ := hs.owned y hy
      refine ⟨hproc, hmap, ?_⟩
      by_cases hm : process.memoryMap = map
      · subst hm
        refine (congrFun (regions_setRegion ..) _).trans ?_
        exact (Function.update_of_ne (hothers p process hp rfl y hy) ..).trans hregion
      · exact (congrFun (regions_setRegion_of_ne s hm ..) _).trans hregion
    · have hold := regions_setRegion_none hname
      refine Finset.mem_erase.2 ⟨?_, hs.named name hold⟩
      rintro rfl
      exact hold (hunnamed.regions p hs.numbered.1 process hp)
  · exact ⟨h.waits.terminated,
      fun y hy => Finset.mem_erase.2 ⟨hunnamed.queued y hy, h.waits.reserved y hy⟩,
      h.waits.numbered, h.waits.retired⟩

lemma Kept.deleteThreads {step : Kernel → Thread → Option Kernel} {threads : List Thread}
    (h : Kept s)
    (hmap : ∀ x ∈ threads, ∀ u v : Kernel, u.processes = s.processes → step u x = some v →
      ∃ map, u.deleteThread map x = some v ∧
        ∀ p process, s.processes p = some process → process.memoryMap = map →
        ∀ y ∈ process.threads, y.userStackRegion.name ≠ x.userStackRegion.name)
    (hunnamed : ∀ x ∈ threads, s.Unnamed x.tid) (hrun : Runs.exec step s threads = some t) :
    Kept t ∧ t.processes = s.processes := by
  induction threads generalizing s with
  | nil =>
    cases hrun
    exact ⟨h, rfl⟩
  | cons x threads ih =>
    obtain ⟨u, hu, hrest⟩ := exec_cons_some.1 hrun
    obtain ⟨map, hdelete, hothers⟩ := hmap x mem_cons_self s u rfl hu
    have hprocesses : u.processes = s.processes := by rw [deleteThread_cases hdelete]; rfl
    have hkept := h.deleteThread hothers (hunnamed x mem_cons_self) hdelete
    obtain ⟨ht, hsame⟩ := ih hkept (hprocesses ▸ fun y hy => hmap y (mem_cons_of_mem _ hy))
      (fun y hy => (hunnamed y (mem_cons_of_mem _ hy)).deleteThread hdelete) hrest
    exact ⟨ht, hsame.trans hprocesses⟩

lemma Kept.setMap (h : Kept s)
    (hunused : ∀ p process, s.processes p = some process → process.memoryMap ≠ map)
    (regions : ℕ → Option ℕ) : Kept (s.setMap map regions) :=
  ⟨fun p process hp => (h.sound p process hp).frame ⟨subset_rfl, le_rfl, le_rfl⟩
      (regions_setMap_of_ne s (hunused p process hp) _) (fun _ hy _ => hy) (fun _ hin _ => hin),
    h.apart, h.waits.frame ⟨subset_rfl, le_rfl, le_rfl⟩ rfl⟩

lemma Kept.forget (h : Kept s) (p : ℕ) : Kept (s.setProcess p none) := by
  have hgrows : Grows s (s.setProcess p none) := ⟨subset_rfl, le_rfl, le_rfl⟩
  refine ⟨fun q old hq => ?_, fun q r old old' hq hr => ?_, h.waits.frame hgrows rfl⟩
  · exact (h.sound q old (update_none_cases hq).2).frame hgrows rfl (fun _ hy _ => hy)
      (fun _ hin _ => hin)
  · exact h.apart q r old old' (update_none_cases hq).2 (update_none_cases hr).2

lemma destroy_cases (h : s.destroyProcess p = some t) :
    ∃ process, s.processes p = some process ∧ (t = s ∨ process.exited ∧
      ∃ u, Runs.exec (fun s x => s.deleteThread process.memoryMap x) (s.setProcess p none)
        process.threads = some u ∧ t = u.setMap process.memoryMap fun _ => none) := by
  obtain ⟨process, hp, h⟩ := bind_eq_some_iff.1 h
  refine ⟨process, hp, ?_⟩
  split at h
  case isTrue hexited =>
    obtain ⟨u, hu, h⟩ := bind_eq_some_iff.1 h
    exact .inr ⟨hexited, u, hu, (some.inj h).symm⟩
  case isFalse => exact .inl (some.inj h).symm

lemma Kept.destroyProcess (h : Kept s)
    (hg : ∀ process ∈ s.processes p, process.exited → ∀ x ∈ process.threads,
      (s.setProcess p none).Unnamed x.tid)
    (hstep : s.destroyProcess p = some t) : Kept t := by
  obtain ⟨process, hp, rfl | ⟨hexited, u, hu, rfl⟩⟩ := destroy_cases hstep
  · exact h
  -- the map of the process is used by no other
  have hunused : ∀ q old, (s.setProcess p none).processes q = some old →
      old.memoryMap ≠ process.memoryMap := by
    intro q old hq
    obtain ⟨hne, hold⟩ := update_none_cases hq
    exact h.apart q p old process hold hp hne
  obtain ⟨hkept, hprocesses⟩ := (h.forget p).deleteThreads
    (fun x _ u v _ hv => ⟨process.memoryMap, hv, fun q old hq hmap =>
      absurd hmap (hunused q old hq)⟩) (hg process hp hexited) hu
  exact hkept.setMap (hprocesses ▸ hunused) _

lemma Kept.pop (h : Kept s) {queue : List Job} (hsub : queue ⊆ s.queue) :
    Kept { s with queue := queue } := by
  have hqueued : ∀ y ∈ ({ s with queue := queue } : Kernel).queued, y ∈ s.queued := by
    intro y hy
    obtain ⟨job, hjob, hy⟩ := mem_flatMap.1 hy
    exact mem_flatMap.2 ⟨job, hsub hjob, hy⟩
  refine ⟨fun p process hp => ?_, h.apart, ?_⟩
  · exact (h.sound p process hp).frame ⟨subset_rfl, le_rfl, le_rfl⟩ rfl
      (fun y hy _ => hqueued y hy) (fun _ hin _ => hsub hin)
  · exact ⟨fun y hy => h.waits.terminated y (hqueued y hy),
      fun y hy => h.waits.reserved y (hqueued y hy),
      fun y hy => h.waits.numbered y (hqueued y hy), fun map hin => h.waits.retired map (hsub hin)⟩

lemma Kept.work (h : Kept s) (hg : ∀ x ∈ (s.queue.head?.map Job.threads).getD [],
      ({ s with queue := s.queue.tail } : Kernel).Unnamed x.tid)
    (hstep : s.work = some t) : Kept t := by
  unfold Kernel.work at hstep
  split at hstep
  case h_1 => exact some.inj hstep ▸ h
  case h_2 threads queue hqueue =>
    simp only [hqueue, tail_cons] at hg
    refine ((h.pop (hqueue ▸ subset_cons_self ..)).deleteThreads ?_ hg hstep).1
    intro x hx u v hu hv
    obtain ⟨process, hp, hv⟩ := bind_eq_some_iff.1 hv
    rw [hu] at hp
    refine ⟨process.memoryMap, hv, fun q old hq hmap y hy => ?_⟩
    have hqp : q = x.proc := by
      by_contra hne
      exact h.apart q x.proc old process hq hp hne hmap
    have hin : x ∈ s.queued :=
      mem_flatMap.2 ⟨.deleteThreads threads, hqueue ▸ mem_cons_self, hx⟩
    exact (h.sound q old hq).spared y hy x hin hqp.symm
  case h_3 map queue hqueue =>
    cases hstep
    refine (h.pop (hqueue ▸ subset_cons_self ..)).setMap (fun p process hp he => ?_) _
    exact (h.sound p process hp).current (he ▸ hqueue ▸ mem_cons_self)

/-! ## Runs -/

/-- No section is called like a stack, a thread is deleted only when nothing else is called
after its id, and a process only when none of its threads waits. -/
def Spares (s : Kernel) : ThreadEvent → Prop
  | .createProcess sections | .exec _ sections => sections = []
  | .collect p => ∀ process ∈ s.processes p, process.exited = true →
    (∀ x ∈ process.threads, (s.setProcess p none).Unnamed x.tid) ∧ ∀ y ∈ s.queued, y.proc ≠ p
  | .work => ∀ x ∈ (s.queue.head?.map Job.threads).getD [],
    ({ s with queue := s.queue.tail } : Kernel).Unnamed x.tid
  | _ => True

instance (s : Kernel) : DecidablePred (Spares s)
  | .createProcess _ | .exec _ _ => inferInstanceAs (Decidable (_ = _))
  | .collect p => inferInstanceAs (Decidable (∀ process ∈ s.processes p, _))
  | .work => inferInstanceAs (Decidable (∀ x ∈ (s.queue.head?.map Job.threads).getD [], _))
  | .createKernelProcess | .createThread _ | .fork .. | .kill .. | .exit _ =>
    inferInstanceAs (Decidable True)

lemma kept_step (s : Kernel) (ev : ThreadEvent) (t : Kernel) (h : Kept s) (hg : Spares s ev)
    (hstep : threadStep s ev = some t) : Kept t := by
  cases ev with
  | createKernelProcess =>
    cases hstep
    exact h.newProcess
  | createProcess sections =>
    obtain rfl : sections = [] := hg
    exact h.newProcess.createThread hstep
  | createThread p => exact h.createThread hstep
  | fork p position => exact h.forkProcess hstep
  | exec p sections =>
    obtain rfl : sections = [] := hg
    obtain ⟨process, hp, rfl | hcreate⟩ := execProcess_cases hstep
    · exact h
    · exact (h.exec hp).createThread hcreate
  | kill p position => exact h.killThread hstep
  | exit p => exact h.exit hstep
  | collect p => exact h.destroyProcess (fun process hp he => (hg process hp he).1) hstep
  | work => exact h.work hg hstep

lemma Kept.not_nameTaken (h : Kept s) (ev : ThreadEvent) (hg : Spares s ev) :
    ¬ NameTaken s ev := by
  cases ev with
  | createProcess sections =>
    obtain rfl : sections = [] := hg
    rintro ⟨tid, _, hin⟩
    cases hin
  | exec p sections =>
    obtain rfl : sections = [] := hg
    rintro ⟨tid, _, hin⟩
    cases hin
  | createThread p =>
    rintro ⟨process, hp, tid, htid, hsome⟩
    rw [(h.sound p process hp).name_free (allocate_notMem htid)] at hsome
    cases hsome
  | _ => exact id

end GzOS.Stacks
