import GzOS.Runs
import Mathlib.Data.Finset.Basic
import Mathlib.Logic.Function.Basic

/-!
# Threads and their stack regions

The region of a user stack is called `stack#` and the id of its thread, whose destructor
destroys the region of that name in the map which the process uses by then. `fork` copies
the regions with their names, `exec` leaves the old threads and the old map to the work
queue, and the ids of deleted threads are given out again. Only regions with such a name are
kept here, by the number in it.
-/
namespace GzOS.Stacks

open Function

/-! ## Thread ids -/

def tidStart : ℕ := 1000
def tidEnd : ℕ := 1999

/-- `IdAllocator::allocate`: the lowest id that is not in use. -/
def allocate (tids : Finset ℕ) : Option ℕ :=
  ((List.range (tidEnd - tidStart)).map (tidStart + ·)).find? (· ∉ tids)

lemma allocate_notMem {tids : Finset ℕ} {tid : ℕ} (h : allocate tids = some tid) :
    tid ∉ tids := by
  simpa using List.find?_some h

/-! ## The state -/

/-- The map, the name, and which of the regions that had this name it is. -/
structure Region where
  map : ℕ
  name : ℕ
  stamp : ℕ
  deriving DecidableEq

structure Thread where
  tid : ℕ
  proc : ℕ
  userStackRegion : Region
  terminated : Bool
  deriving DecidableEq

structure Process where
  memoryMap : ℕ
  threads : List Thread
  exited : Bool

def Process.kill (process : Process) : List Thread :=
  process.threads.map fun thread => { thread with terminated := true }

inductive Job
  | deleteThreads (threads : List Thread)
  | deleteMap (map : ℕ)

def Job.threads : Job → List Thread
  | .deleteThreads threads => threads
  | .deleteMap _ => []

structure Kernel where
  tids : Finset ℕ
  /-- The regions of each map: the stamp under each name. -/
  regions : ℕ → ℕ → Option ℕ
  processes : ℕ → Option Process
  queue : List Job
  nextProcess : ℕ
  nextMap : ℕ
  nextStamp : ℕ

def Kernel.boot : Kernel := ⟨∅, fun _ _ => none, fun _ => none, [], 0, 0, 0⟩

namespace Kernel

/-- The threads that wait in the work queue for their deletion. -/
def queued (s : Kernel) : List Thread := s.queue.flatMap Job.threads

def setProcess (s : Kernel) (p : ℕ) (process : Option Process) : Kernel :=
  { s with processes := update s.processes p process }

def setRegion (s : Kernel) (map name : ℕ) (stamp : Option ℕ) : Kernel :=
  { s with regions := update s.regions map (update (s.regions map) name stamp) }

def setMap (s : Kernel) (map : ℕ) (regions : ℕ → Option ℕ) : Kernel :=
  { s with regions := update s.regions map regions }

/-- `workqueue_put`: a job is lost if there are 100 already. -/
def workqueuePut (s : Kernel) (job : Job) : Kernel :=
  if s.queue.length < 100 then { s with queue := s.queue ++ [job] } else s

/-! ## Threads -/

/-- The assertion in `Thread::Thread` fails if the map has a region of the name. -/
def createThread (s : Kernel) (p : ℕ) : Option Kernel := do
  let process ← s.processes p
  let tid ← allocate s.tids
  if (s.regions process.memoryMap tid).isSome then none
  else
    let thread : Thread := ⟨tid, p, ⟨process.memoryMap, tid, s.nextStamp⟩, false⟩
    let t := (s.setRegion process.memoryMap tid (some s.nextStamp)).setProcess p
      (some { process with threads := process.threads ++ [thread] })
    some { t with tids := insert tid s.tids, nextStamp := s.nextStamp + 1 }

/-- The process uses the map `map`. A pointer to a destroyed region is not read. -/
def deleteThread (s : Kernel) (map : ℕ) (thread : Thread) : Option Kernel :=
  let region := thread.userStackRegion
  if s.regions region.map region.name = some region.stamp then
    some { s.setRegion map region.name none with tids := s.tids.erase thread.tid }
  else none

/-! ## Processes -/

def newProcess (s : Kernel) (sections : List ℕ) : Kernel :=
  let t := (s.setMap s.nextMap fun name => if name ∈ sections then some s.nextStamp else none)
    |>.setProcess s.nextProcess (some ⟨s.nextMap, [], false⟩)
  { t with
    nextProcess := s.nextProcess + 1
    nextMap := s.nextMap + 1
    nextStamp := s.nextStamp + 1 }

/-- By the thread at a position. The copy looks up the name of the caller's region in the
copied map. -/
def forkProcess (s : Kernel) (p position : ℕ) : Option Kernel := do
  let process ← s.processes p
  let thread ← process.threads[position]?
  if thread.terminated then none
  else
    let tid ← allocate s.tids
    let stamp ← s.regions process.memoryMap thread.userStackRegion.name
    let region : Region := ⟨s.nextMap, thread.userStackRegion.name, stamp⟩
    let t := (s.setMap s.nextMap (s.regions process.memoryMap)).setProcess s.nextProcess
      (some ⟨s.nextMap, [⟨tid, s.nextProcess, region, false⟩], false⟩)
    some { t with
      tids := insert tid s.tids
      nextProcess := s.nextProcess + 1
      nextMap := s.nextMap + 1 }

/-- After the new map has been loaded. -/
def exec (s : Kernel) (p : ℕ) (process : Process) (sections : List ℕ) : Kernel :=
  let t := (s.workqueuePut (.deleteThreads process.kill)).workqueuePut
    (.deleteMap process.memoryMap)
  let u := (t.setMap s.nextMap fun name => if name ∈ sections then some s.nextStamp else none)
    |>.setProcess p (some { process with memoryMap := s.nextMap, threads := [] })
  { u with nextMap := s.nextMap + 1, nextStamp := s.nextStamp + 1 }

/-- Nothing happens for a process that has exited. -/
def execProcess (s : Kernel) (p : ℕ) (sections : List ℕ) : Option Kernel := do
  let process ← s.processes p
  if process.exited then some s else (s.exec p process sections).createThread p

def killThread (s : Kernel) (p position : ℕ) : Option Kernel := do
  let process ← s.processes p
  let thread ← process.threads[position]?
  some (s.setProcess p (some { process with
    threads := process.threads.set position { thread with terminated := true } }))

def exit (s : Kernel) (p : ℕ) : Option Kernel := do
  let process ← s.processes p
  if process.exited then some s
  else some (s.setProcess p (some ⟨process.memoryMap, process.kill, true⟩))

/-- The threads are deleted before the map is. -/
def destroyProcess (s : Kernel) (p : ℕ) : Option Kernel := do
  let process ← s.processes p
  if process.exited then
    let t ← Runs.exec (fun s thread => s.deleteThread process.memoryMap thread)
      (s.setProcess p none) process.threads
    some (t.setMap process.memoryMap fun _ => none)
  else some s

/-- The destructor of a thread uses its process, which must not have been destroyed. -/
def work (s : Kernel) : Option Kernel :=
  match s.queue with
  | [] => some s
  | .deleteThreads threads :: queue =>
    Runs.exec (fun s thread => (s.processes thread.proc).bind fun process =>
      s.deleteThread process.memoryMap thread) { s with queue := queue } threads
  | .deleteMap map :: queue => some ({ s with queue := queue }.setMap map fun _ => none)

end Kernel

/-! ## Runs -/

inductive ThreadEvent
  | createKernelProcess
  | createProcess (sections : List ℕ)
  | createThread (p : ℕ)
  | fork (p position : ℕ)
  | exec (p : ℕ) (sections : List ℕ)
  | kill (p position : ℕ)
  | exit (p : ℕ)
  | collect (p : ℕ)
  | work

def threadStep (s : Kernel) : ThreadEvent → Option Kernel
  | .createKernelProcess => some (s.newProcess [])
  | .createProcess sections => (s.newProcess sections).createThread s.nextProcess
  | .createThread p => s.createThread p
  | .fork p position => s.forkProcess p position
  | .exec p sections => s.execProcess p sections
  | .kill p position => s.killThread p position
  | .exit p => s.exit p
  | .collect p => s.destroyProcess p
  | .work => s.work

def Kernel.HasStack (s : Kernel) (thread : Thread) : Prop :=
  ∃ process, s.processes thread.proc = some process ∧
    thread.userStackRegion.map = process.memoryMap ∧
    s.regions process.memoryMap thread.userStackRegion.name = some thread.userStackRegion.stamp

/-- Threads that have not ended have stacks of their own. -/
structure Kernel.KeepsStacks (s : Kernel) : Prop where
  present : ∀ p process, s.processes p = some process → ∀ thread ∈ process.threads,
    thread.terminated = false → s.HasStack thread
  queued : ∀ thread ∈ s.queued, thread.terminated = true
  own : ∀ p process, s.processes p = some process →
    process.threads.Pairwise fun x y => x.userStackRegion ≠ y.userStackRegion

def NameTaken (s : Kernel) : ThreadEvent → Prop
  | .createProcess sections | .exec _ sections => ∃ tid ∈ allocate s.tids, tid ∈ sections
  | .createThread p => ∃ process ∈ s.processes p, ∃ tid ∈ allocate s.tids,
    (s.regions process.memoryMap tid).isSome
  | _ => False

end GzOS.Stacks
