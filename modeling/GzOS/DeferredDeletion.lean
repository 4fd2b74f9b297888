import GzOS.StackSafety

/-!
# Deferred deletions

The work queue deletes the old threads of `exec` before their old map, and nothing
changes that map in between. So each thread that waits still has the region it points
at, and its deletion completes if its process is still there.
-/
namespace GzOS.Stacks
open Kernel List Function Option

open Bindings Runs

variable {s t : Kernel} {p : ℕ} {process : Process}

/-! ## What waiting threads point at -/

structure Intact (s : Kernel) : Prop where
  alive : ∀ y ∈ s.queued, s.processes y.proc ≠ none
  region : ∀ y ∈ s.queued, s.regions y.userStackRegion.map y.userStackRegion.name =
    some y.userStackRegion.stamp
  numbered : ∀ y ∈ s.queued, y.userStackRegion.map < s.nextMap
  unused : ∀ y ∈ s.queued, ∀ p process, s.processes p = some process →
    process.memoryMap ≠ y.userStackRegion.map
  ordered : s.queue.Pairwise fun job job' =>
    ∀ y ∈ job'.threads, job ≠ .deleteMap y.userStackRegion.map

lemma Intact.boot : Intact boot := by
  constructor <;> simp [Kernel.boot, Kernel.queued]

lemma Intact.frame (h : Intact s) (hqueue : t.queue.Sublist s.queue)
    (halive : ∀ y ∈ t.queued, t.processes y.proc ≠ none)
    (hregions : ∀ y ∈ t.queued, t.regions y.userStackRegion.map y.userStackRegion.name =
      s.regions y.userStackRegion.map y.userStackRegion.name)
    (hmaps : ∀ p process, t.processes p = some process → s.nextMap ≤ process.memoryMap ∨
      ∃ q old, s.processes q = some old ∧ old.memoryMap = process.memoryMap)
    (hnext : s.nextMap ≤ t.nextMap) : Intact t := by
  have hqueued : ∀ y ∈ t.queued, y ∈ s.queued := by
    intro y hy
    obtain ⟨job, hjob, hy⟩ := mem_flatMap.1 hy
    exact mem_flatMap.2 ⟨job, hqueue.subset hjob, hy⟩
  constructor
  case alive => exact halive
  case region => exact fun y hy => (hregions y hy).trans (h.region y (hqueued y hy))
  case numbered => exact fun y hy => (h.numbered y (hqueued y hy)).trans_le hnext
  case unused =>
    intro y hy p process hp
    rcases hmaps p process hp with hnew | ⟨q, old, hq, he⟩
    · exact ((h.numbered y (hqueued y hy)).trans_le hnew).ne'
    · exact he ▸ h.unused y (hqueued y hy) q old hq
  case ordered => exact h.ordered.sublist hqueue

lemma update_ne_none {processes : ℕ → Option Process} {q : ℕ} (h : processes q ≠ none)
    (p : ℕ) (process : Process) : update processes p (some process) q ≠ none := by
  rw [ne_none_iff_exists'] at h ⊢
  exact update_some_bound h p process

lemma maps_setProcess (s : Kernel) {new : Process} (hnew : s.nextMap ≤ new.memoryMap ∨
      ∃ q old, s.processes q = some old ∧ old.memoryMap = new.memoryMap) (q : ℕ) (old : Process)
    (h : update s.processes p (some new) q = some old) :
    s.nextMap ≤ old.memoryMap ∨
      ∃ r old', s.processes r = some old' ∧ old'.memoryMap = old.memoryMap := by
  rcases update_some_cases h with ⟨-, rfl⟩ | ⟨-, hold⟩
  · exact hnew
  · exact .inr ⟨q, old, hold, rfl⟩

lemma Intact.createThread (h : Intact s) (hstep : s.createThread p = some t) : Intact t := by
  obtain ⟨process, tid, hp, -, rfl⟩ := createThread_cases hstep
  refine h.frame (List.Sublist.refl _) (fun y hy => update_ne_none (h.alive y hy) _ _)
    (fun y hy => ?_) (maps_setProcess s (.inr ⟨p, process, hp, rfl⟩)) le_rfl
  exact congrFun (regions_setRegion_of_ne s (h.unused y hy p process hp).symm ..) _

lemma Intact.newProcess (h : Intact s) (sections : List ℕ) : Intact (s.newProcess sections) := by
  refine h.frame (List.Sublist.refl _) (fun y hy => update_ne_none (h.alive y hy) _ _)
    (fun y hy => ?_) (maps_setProcess s (.inl le_rfl)) (Nat.le_succ _)
  exact congrFun (regions_setMap_of_ne s (h.numbered y hy).ne _) _

lemma Intact.forkProcess (h : Intact s) {position : ℕ}
    (hstep : s.forkProcess p position = some t) : Intact t := by
  obtain ⟨process, x, tid, stamp, -, -, -, -, rfl⟩ := fork_cases hstep
  refine h.frame (List.Sublist.refl _) (fun y hy => update_ne_none (h.alive y hy) _ _)
    (fun y hy => ?_) (maps_setProcess s (.inl le_rfl)) (Nat.le_succ _)
  exact congrFun (regions_setMap_of_ne s (h.numbered y hy).ne _) _

lemma Intact.setThreads (h : Intact s) (hp : s.processes p = some process)
    (threads : List Thread) (exited : Bool) :
    Intact (s.setProcess p (some ⟨process.memoryMap, threads, exited⟩)) :=
  h.frame (List.Sublist.refl _) (fun y hy => update_ne_none (h.alive y hy) _ _)
    (fun _ _ => rfl) (maps_setProcess s (.inr ⟨p, process, hp, rfl⟩)) le_rfl

lemma ordered_workqueuePut {job : Job} (h : s.queue.Pairwise fun job job' =>
      ∀ y ∈ job'.threads, job ≠ .deleteMap y.userStackRegion.map)
    (hjob : ∀ y ∈ job.threads, Job.deleteMap y.userStackRegion.map ∉ s.queue) :
    (s.workqueuePut job).queue.Pairwise fun job job' =>
      ∀ y ∈ job'.threads, job ≠ .deleteMap y.userStackRegion.map := by
  unfold workqueuePut
  split
  · refine pairwise_append.2 ⟨h, pairwise_singleton .., ?_⟩
    intro job' hin job'' hjob'' y hy he
    obtain rfl := mem_singleton.1 hjob''
    exact hjob y hy (he ▸ hin)
  · exact h

/-- The old threads point at the old map, which is not in use any more. -/
lemma Intact.exec (h : Intact s) (hkept : Kept s) (hp : s.processes p = some process)
    (sections : List ℕ) : Intact (s.exec p process sections) := by
  have hs := hkept.sound p process hp
  have hprocesses := exec_processes s p process sections
  have hregions : ∀ map < s.nextMap, (s.exec p process sections).regions map = s.regions map := by
    intro map hmap
    simp [Kernel.exec, Kernel.setProcess, Kernel.setMap, update_of_ne hmap.ne]
  have hkill : ∀ y ∈ process.kill, y.proc = p ∧ y.userStackRegion.map = process.memoryMap ∧
      s.regions process.memoryMap y.userStackRegion.name = some y.userStackRegion.stamp := by
    intro y hy
    obtain ⟨-, x, hx, hproc, hregion⟩ := mem_kill hy
    exact hproc ▸ hregion ▸ hs.owned x hx
  constructor
  case alive =>
    intro y hy
    rw [hprocesses]
    rcases exec_queued hy with hin | hnew
    · exact update_ne_none (h.alive y hin) _ _
    · rw [(hkill y hnew).1, update_self]
      exact some_ne_none _
  case region =>
    intro y hy
    rcases exec_queued hy with hin | hnew
    · rw [hregions _ (h.numbered y hin)]
      exact h.region y hin
    · obtain ⟨-, hmap, hregion⟩ := hkill y hnew
      rw [hmap, hregions _ hs.numbered.2]
      exact hregion
  case numbered =>
    intro y hy
    rcases exec_queued hy with hin | hnew
    · exact (h.numbered y hin).trans (Nat.lt_succ_self _)
    · rw [(hkill y hnew).2.1]
      exact hs.numbered.2.trans (Nat.lt_succ_self _)
  case unused =>
    intro y hy q old hq
    have hy' : y.userStackRegion.map < s.nextMap ∧
        (y.userStackRegion.map = process.memoryMap ∨ y ∈ s.queued) := by
      rcases exec_queued hy with hin | hnew
      · exact ⟨h.numbered y hin, .inr hin⟩
      · exact ⟨(hkill y hnew).2.1 ▸ hs.numbered.2, .inl (hkill y hnew).2.1⟩
    rw [hprocesses] at hq
    rcases update_some_cases hq with ⟨-, rfl⟩ | ⟨hne, hold⟩
    · exact hy'.1.ne'
    · rcases hy'.2 with he | hin
      · exact he ▸ hkept.apart q p old process hold hp hne
      · exact h.unused y hin q old hold
  case ordered =>
    refine ordered_workqueuePut (ordered_workqueuePut h.ordered ?_) (fun _ hy => by cases hy)
    intro y hy
    exact (hkill y hy).2.1 ▸ hs.current

variable {map : ℕ} {x : Thread} {threads : List Thread}

lemma regions_deleteThread (h : s.deleteThread map x = some t) {map' name : ℕ}
    (hne : map' ≠ map ∨ name ≠ x.userStackRegion.name) :
    t.regions map' name = s.regions map' name := by
  obtain rfl := deleteThread_cases h
  by_cases hm : map' = map
  · subst hm
    refine (congrFun (regions_setRegion ..) _).trans ?_
    exact update_of_ne (hne.resolve_left fun h => h rfl) ..
  · exact congrFun (regions_setRegion_of_ne s hm ..) _

lemma deleteThread_some (map : ℕ) (h : s.regions x.userStackRegion.map x.userStackRegion.name =
      some x.userStackRegion.stamp) : ∃ t, s.deleteThread map x = some t := by
  simp [deleteThread, h]

lemma Intact.deleteThread (h : Intact s) (hmap : ∀ y ∈ s.queued, y.userStackRegion.map ≠ map)
    (hstep : s.deleteThread map x = some t) : Intact t := by
  have hregions : ∀ y ∈ s.queued, t.regions y.userStackRegion.map y.userStackRegion.name =
      s.regions y.userStackRegion.map y.userStackRegion.name :=
    fun y hy => regions_deleteThread hstep (.inl (hmap y hy))
  obtain rfl := deleteThread_cases hstep
  exact h.frame (List.Sublist.refl _) h.alive hregions
    (fun p process hp => .inr ⟨p, process, hp, rfl⟩) le_rfl

lemma Intact.deleteThreads {step : Kernel → Thread → Option Kernel} (h : Intact s)
    (hmap : ∀ x ∈ threads, ∀ u v : Kernel, u.processes = s.processes → step u x = some v →
      ∃ map, u.deleteThread map x = some v ∧ ∀ y ∈ s.queued, y.userStackRegion.map ≠ map)
    (hrun : Runs.exec step s threads = some t) :
    Intact t ∧ t.processes = s.processes ∧ t.queue = s.queue := by
  induction threads generalizing s with
  | nil =>
    cases hrun
    exact ⟨h, rfl, rfl⟩
  | cons x threads ih =>
    obtain ⟨u, hu, hrest⟩ := exec_cons_some.1 hrun
    obtain ⟨map, hdelete, hunused⟩ := hmap x mem_cons_self s u rfl hu
    have hprocesses : u.processes = s.processes := by rw [deleteThread_cases hdelete]; rfl
    have hqueue : u.queue = s.queue := by rw [deleteThread_cases hdelete]; rfl
    have hqueued : u.queued = s.queued := congrArg (flatMap Job.threads) hqueue
    obtain ⟨ht, hp, hq⟩ := ih (h.deleteThread hunused hdelete)
      (hqueued ▸ hprocesses ▸ fun y hy => hmap y (mem_cons_of_mem _ hy)) hrest
    exact ⟨ht, hp.trans hprocesses, hq.trans hqueue⟩

lemma Intact.destroyProcess (h : Intact s)
    (hg : ∀ process ∈ s.processes p, process.exited → ∀ y ∈ s.queued, y.proc ≠ p)
    (hstep : s.destroyProcess p = some t) : Intact t := by
  obtain ⟨process, hp, rfl | ⟨hexited, u, hu, rfl⟩⟩ := destroy_cases hstep
  · exact h
  have hmaps : ∀ q old, (s.setProcess p none).processes q = some old → s.nextMap ≤ old.memoryMap ∨
        ∃ r old', s.processes r = some old' ∧ old'.memoryMap = old.memoryMap :=
    fun q old hq => .inr ⟨q, old, (update_none_cases hq).2, rfl⟩
  have hforget : Intact (s.setProcess p none) := by
    refine h.frame (List.Sublist.refl _) (fun y hy => ?_) (fun _ _ => rfl) hmaps le_rfl
    have hne := hg process hp hexited y hy
    exact fun hnone => h.alive y hy ((update_of_ne hne ..).symm.trans hnone)
  have hunused : ∀ y ∈ s.queued, y.userStackRegion.map ≠ process.memoryMap :=
    fun y hy => (h.unused y hy p process hp).symm
  obtain ⟨hu, -, hqueue⟩ := hforget.deleteThreads
    (fun x _ u v _ hv => ⟨process.memoryMap, hv, hunused⟩) hu
  have hqueued : u.queued = s.queued := congrArg (flatMap Job.threads) hqueue
  refine hu.frame (List.Sublist.refl _) hu.alive (fun y hy => ?_)
    (fun q old hq => .inr ⟨q, old, hq, rfl⟩) le_rfl
  exact congrFun (regions_setMap_of_ne u (hunused y (hqueued ▸ hy)) _) _

lemma Intact.pop (h : Intact s) {queue : List Job} (hsub : queue.Sublist s.queue) :
    Intact { s with queue := queue } := by
  refine h.frame hsub (fun y hy => ?_) (fun _ _ => rfl)
    (fun p process hp => .inr ⟨p, process, hp, rfl⟩) le_rfl
  obtain ⟨job, hjob, hy⟩ := mem_flatMap.1 hy
  exact h.alive y (mem_flatMap.2 ⟨job, hsub.subset hjob, hy⟩)

lemma Intact.work (h : Intact s) (hstep : s.work = some t) : Intact t := by
  unfold Kernel.work at hstep
  split at hstep
  case h_1 => exact some.inj hstep ▸ h
  case h_2 threads queue hqueue =>
    have hpop := h.pop (hqueue ▸ sublist_cons_self ..)
    refine (hpop.deleteThreads (fun x hx u v hu hv => ?_) hstep).1
    obtain ⟨process, hp, hv⟩ := bind_eq_some_iff.1 hv
    rw [hu] at hp
    exact ⟨process.memoryMap, hv, fun y hy => (hpop.unused y hy x.proc process hp).symm⟩
  case h_3 map queue hqueue =>
    cases hstep
    have hpop := h.pop (hqueue ▸ sublist_cons_self ..)
    refine hpop.frame (List.Sublist.refl _) hpop.alive (fun y hy => ?_)
      (fun q old hq => .inr ⟨q, old, hq, rfl⟩) le_rfl
    -- the threads that point at the map came before it in the queue
    have hne : y.userStackRegion.map ≠ map := by
      intro he
      obtain ⟨job, hjob, hy⟩ := mem_flatMap.1 hy
      have hordered := h.ordered
      rw [hqueue, pairwise_cons] at hordered
      exact hordered.1 job hjob y hy (he ▸ rfl)
    exact congrFun (regions_setMap_of_ne _ hne _) _

/-! ## Deletions complete -/

lemma deleteOwn_some
    (hdistinct : threads.Pairwise fun x y => x.userStackRegion.name ≠ y.userStackRegion.name)
    (howned : ∀ x ∈ threads, x.userStackRegion.map = map ∧
      s.regions map x.userStackRegion.name = some x.userStackRegion.stamp) :
    ∃ t, Runs.exec (fun s x => s.deleteThread map x) s threads = some t := by
  induction threads generalizing s with
  | nil => exact ⟨s, rfl⟩
  | cons x threads ih =>
    obtain ⟨hx, hrest⟩ := pairwise_cons.1 hdistinct
    obtain ⟨hmap, hregion⟩ := howned x mem_cons_self
    obtain ⟨u, hu⟩ := deleteThread_some map (hmap ▸ hregion)
    obtain ⟨t, ht⟩ := ih hrest fun y hy => by
      obtain ⟨hymap, hyregion⟩ := howned y (mem_cons_of_mem _ hy)
      exact ⟨hymap, (regions_deleteThread hu (.inr (hx y hy).symm)).trans hyregion⟩
    exact ⟨t, exec_cons_some.2 ⟨u, hu, ht⟩⟩

lemma Kept.destroyProcess_some (h : Kept s) (hp : s.processes p = some process) :
    ∃ t, s.destroyProcess p = some t := by
  have hs := h.sound p process hp
  obtain ⟨t, ht⟩ := deleteOwn_some (s := s.setProcess p none) hs.distinct
    fun x hx => (hs.owned x hx).2
  by_cases hexited : process.exited
  · simp [Kernel.destroyProcess, hp, hexited, ht]
  · simp [Kernel.destroyProcess, hp, hexited]

lemma deleteOld_some (h : ∀ x ∈ threads, s.processes x.proc ≠ none ∧
      s.regions x.userStackRegion.map x.userStackRegion.name = some x.userStackRegion.stamp ∧
      ∀ p process, s.processes p = some process → process.memoryMap ≠ x.userStackRegion.map) :
    ∃ t, Runs.exec (fun s x => (s.processes x.proc).bind fun process =>
      s.deleteThread process.memoryMap x) s threads = some t := by
  induction threads generalizing s with
  | nil => exact ⟨s, rfl⟩
  | cons x threads ih =>
    obtain ⟨halive, hregion, -⟩ := h x mem_cons_self
    obtain ⟨process, hp⟩ := ne_none_iff_exists'.1 halive
    obtain ⟨u, hu⟩ := deleteThread_some process.memoryMap hregion
    have hprocesses : u.processes = s.processes := by rw [deleteThread_cases hu]; rfl
    obtain ⟨t, ht⟩ := ih fun y hy => by
      obtain ⟨hyalive, hyregion, hyunused⟩ := h y (mem_cons_of_mem _ hy)
      have hne := (hyunused x.proc process hp).symm
      exact ⟨hprocesses ▸ hyalive, (regions_deleteThread hu (.inl hne)).trans hyregion,
        hprocesses ▸ hyunused⟩
    exact ⟨t, exec_cons_some.2 ⟨u, by simp [hp, hu], ht⟩⟩

lemma Intact.work_some (h : Intact s) : ∃ t, s.work = some t := by
  unfold Kernel.work
  split
  case h_1 => exact ⟨s, rfl⟩
  case h_2 threads queue hqueue =>
    refine deleteOld_some fun x hx => ?_
    have hin : x ∈ s.queued :=
      mem_flatMap.2 ⟨.deleteThreads threads, hqueue ▸ mem_cons_self, hx⟩
    exact ⟨h.alive x hin, h.region x hin, h.unused x hin⟩
  case h_3 => exact ⟨_, rfl⟩

/-! ## Runs -/

def Completes (s : Kernel) : ThreadEvent → Prop
  | .collect p => s.processes p ≠ none → ∃ t, threadStep s (.collect p) = some t
  | .work => ∃ t, threadStep s .work = some t
  | _ => True

lemma intact_step (s : Kernel) (ev : ThreadEvent) (t : Kernel) (hkept : Kept s)
    (h : Intact s) (hg : Spares s ev) (hstep : threadStep s ev = some t) : Intact t := by
  cases ev with
  | createKernelProcess =>
    cases hstep
    exact h.newProcess []
  | createProcess sections => exact (h.newProcess sections).createThread hstep
  | createThread p => exact h.createThread hstep
  | fork p position => exact h.forkProcess hstep
  | exec p sections =>
    obtain ⟨process, hp, rfl | hcreate⟩ := execProcess_cases hstep
    · exact h
    · exact (h.exec hkept hp sections).createThread hcreate
  | kill p position =>
    obtain ⟨process, x, hp, -, rfl⟩ := kill_cases hstep
    exact h.setThreads hp _ _
  | exit p =>
    obtain ⟨process, hp, rfl | rfl⟩ := exit_cases hstep
    · exact h
    · exact h.setThreads hp _ _
  | collect p => exact h.destroyProcess (fun process hp he => (hg process hp he).2) hstep
  | work => exact h.work hstep

lemma completes (hkept : Kept s) (h : Intact s) (ev : ThreadEvent) : Completes s ev := by
  cases ev with
  | collect p =>
    intro hp
    obtain ⟨process, hp⟩ := ne_none_iff_exists'.1 hp
    exact hkept.destroyProcess_some hp
  | work => exact h.work_some
  | _ => trivial

/-- In every run that spares what is in use, threads keep their stacks, no name is taken twice
and every deletion completes. -/
theorem keepsStacks_always (events : List ThreadEvent) (h : Meets threadStep Spares boot events) :
    Always threadStep Kernel.KeepsStacks boot events ∧
      Meets threadStep (fun s ev => ¬ NameTaken s ev ∧ Completes s ev) boot events := by
  have hinv : Always threadStep (fun s => Kept s ∧ Intact s) boot events :=
    always_of_meets (fun s ev t hs hg hstep => ⟨kept_step s ev t hs.1 hg hstep,
      intact_step s ev t hs.1 hs.2 hg hstep⟩) ⟨Kept.boot, Intact.boot⟩ h
  refine ⟨hinv.mono fun _ hs => hs.1.keepsStacks, h.mono hinv ?_⟩
  rintro s ev ⟨hkept, hintact⟩ hspares
  exact ⟨hkept.not_nameTaken ev hspares, completes hkept hintact ev⟩

/-- A shell forks a process that calls `exec`, and exits before it. -/
def shellEvents : List ThreadEvent :=
  [.createProcess [], .fork 0 0, .exec 1 [], .work, .work, .exit 0, .collect 0,
    .createThread 1, .fork 1 1, .exit 2, .collect 2, .createThread 1]

theorem keepsStacks_shellEvents : ((exec threadStep boot shellEvents).bind (·.processes 1)).map
        (fun process => process.threads.map (·.userStackRegion)) =
      some [⟨2, 1002, 3⟩, ⟨2, 1000, 4⟩, ⟨2, 1001, 5⟩] ∧
    Always threadStep Kernel.KeepsStacks boot shellEvents :=
  ⟨by decide +kernel, (keepsStacks_always shellEvents (meets_of_check (by decide +kernel))).1⟩

def orphanEvents : List ThreadEvent := [.createProcess [], .fork 0 0, .exit 0, .collect 0]

/-- The id of the parent's thread is given out again. The child cannot create a thread,
and if it calls `exec` instead, deleting its old thread destroys the new one's stack. -/
theorem orphanEvents_lose_stack :
    (∃ s, exec threadStep boot orphanEvents = some s ∧ NameTaken s (.createThread 1)) ∧
    exec threadStep boot (orphanEvents ++ [.createThread 1]) = none ∧
    ∃ s, exec threadStep boot (orphanEvents ++ [.exec 1 [], .work]) = some s ∧ ¬ s.KeepsStacks := by
  have hchild : (exec threadStep boot orphanEvents).map (fun s =>
      ((s.processes 1).map Process.memoryMap, allocate s.tids, s.regions 1 1000)) =
      some (some 1, some 1000, some 1) := by decide +kernel
  have hexec : (exec threadStep boot (orphanEvents ++ [.exec 1 [], .work])).map (fun s =>
      ((s.processes 1).map Process.threads, s.regions 2 1000)) =
      some (some [⟨1000, 1, ⟨2, 1000, 3⟩, false⟩], none) := by decide +kernel
  refine ⟨?_, by decide +kernel, ?_⟩
  · obtain ⟨s, hs, hfacts⟩ := map_eq_some_iff.1 hchild
    simp only [Prod.mk.injEq] at hfacts
    obtain ⟨hp, htid, hregion⟩ := hfacts
    obtain ⟨process, hp, hmap⟩ := map_eq_some_iff.1 hp
    exact ⟨s, hs, process, hp, 1000, htid, by simp [hmap, hregion]⟩
  · obtain ⟨s, hs, hfacts⟩ := map_eq_some_iff.1 hexec
    simp only [Prod.mk.injEq] at hfacts
    obtain ⟨hp, hregion⟩ := hfacts
    obtain ⟨process, hp, hthreads⟩ := map_eq_some_iff.1 hp
    refine ⟨s, hs, fun h => ?_⟩
    obtain ⟨_, _, hmap, hstack⟩ := h.present 1 process hp _ (hthreads ▸ mem_cons_self) rfl
    rw [← hmap, hregion] at hstack
    cases hstack

end GzOS.Stacks
