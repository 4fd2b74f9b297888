import GzOS.Suspendable
import GzOS.SystemTimer

/-!
# Sleeping threads and their timers

`Thread::sleep` leaves a timer that holds the address of the thread, and nothing
takes the timer away before its time: not an early SIG_CONT, not the thread's
death, and not the destruction of the thread when its process is collected.
-/
namespace GzOS.SleepTimers
open Runs Scheduling SystemTimer List Function

structure Process where
  exited : Bool
  threads : List ℕ

/-- Threads by address, which is not used again; a destroyed one has no state. The two
processes that are never destroyed are left out. -/
structure World where
  processes : ℕ → Option Process
  threads : ℕ → Option ThreadState
  timers : Timers Unit ℕ
  next : ℕ

def World.boot : World := ⟨fun _ => none, fun _ => none, .init, 0⟩

inductive Signal
  | stop
  | cont
  | kill
  deriving DecidableEq, Repr

def Signal.deliver : Signal → ThreadState → ThreadState
  | .stop => Suspendable.stopState
  | .cont => Suspendable.contState
  | .kill => fun _ => .terminated

def deliverAll (sig : Signal) (ts : List ℕ) (threads : ℕ → Option ThreadState) :
    ℕ → Option ThreadState :=
  fun t => if t ∈ ts then (threads t).map sig.deliver else threads t

def signalThread (s : World) (t : ℕ) (sig : Signal) : World :=
  { s with threads := deliverAll sig [t] s.threads }

/-- The way of `EXIT` and of SIG_KILL. -/
def exit (s : World) (p : ℕ) : World :=
  match s.processes p with
  | none => s
  | some process =>
    if process.exited then s
    else { s with
      processes := update s.processes p (some { process with exited := true })
      threads := deliverAll .kill process.threads s.threads }

def signalProcess (s : World) (p : ℕ) (sig : Signal) : World :=
  match s.processes p with
  | none => s
  | some process =>
    if sig = .kill then exit s p
    else { s with threads := deliverAll sig process.threads s.threads }

/-- The timer comes first, then the suspension. -/
def sleep (s : World) (t : ℕ) (now : BitVec 64) (ms : BitVec 32) : World :=
  { s with
    timers := (addTimer s.timers now ms (some ()) t).2
    threads := deliverAll .stop [t] s.threads }

/-- `resumed` lists what the callbacks gave to `resume`. -/
structure Walk where
  threads : ℕ → Option ThreadState
  resumed : List ℕ
  reads : ℕ

def wakeUp (clock : ℕ → BitVec 64) : Env Unit ℕ Walk where
  clockGetMs w := (clock w.reads, { w with reads := w.reads + 1 })
  call _ t w :=
    (false, { w with threads := deliverAll .cont [t] w.threads, resumed := w.resumed ++ [t] })

def World.walk (s : World) (clock : ℕ → BitVec 64) :
    List (TimerControlBlock Unit ℕ) × Walk :=
  executeTimers (wakeUp clock) s.timers.timers ⟨s.threads, [], 0⟩

def tick (s : World) (clock : ℕ → BitVec 64) : World :=
  { s with
    timers := { s.timers with timers := (s.walk clock).1 }
    threads := (s.walk clock).2.threads }

def destroyProcess (s : World) (p : ℕ) (process : Process) : World :=
  { s with
    processes := update s.processes p none
    threads := fun t => if t ∈ process.threads then none else s.threads t }

inductive Event
  | createProcess
  | createThread (p : ℕ)
  | sleep (t : ℕ) (now : BitVec 64) (ms : BitVec 32)
  | tick (clock : ℕ → BitVec 64)
  | signalThread (t : ℕ) (sig : Signal)
  | signalProcess (p : ℕ) (sig : Signal)
  | exit (p : ℕ)
  | collect (p : ℕ)

def step (s : World) : Event → Option World
  | .createProcess =>
    some { s with
      processes := update s.processes s.next (some ⟨false, []⟩)
      next := s.next + 1 }
  | .createThread p =>
    (s.processes p).map fun process =>
      { s with
        processes := update s.processes p
          (some { process with threads := process.threads ++ [s.next] })
        threads := update s.threads s.next (some .ready)
        next := s.next + 1 }
  | .sleep t now ms =>
    if s.threads t = some .ready ∨ s.threads t = some .running then some (sleep s t now ms)
    else none
  | .tick clock => some (tick s clock)
  | .signalThread t sig => some (signalThread s t sig)
  | .signalProcess p sig => some (signalProcess s p sig)
  | .exit p => some (exit s p)
  | .collect p =>
    (s.processes p).bind fun process =>
      if process.exited then some (destroyProcess s p process) else none

def Refers (s : World) : Prop := ∀ t ∈ s.timers.timers, (s.threads t.arg).isSome

def ResumesLive (s : World) : Event → Prop
  | .tick clock => ∀ t ∈ (s.walk clock).2.resumed, (s.threads t).isSome
  | _ => True

instance (s : World) (e : Event) : Decidable (ResumesLive s e) := by
  cases e <;> unfold ResumesLive <;> infer_instance

/-- No thread of a collected process has a pending timer. -/
def Awake (s : World) : Event → Prop
  | .collect p => ∀ process, s.processes p = some process → process.exited = true →
      ∀ t ∈ s.timers.timers, t.arg ∉ process.threads
  | _ => True

/-! ## Steps -/

@[simp] lemma isSome_deliverAll (sig : Signal) (ts : List ℕ)
    (threads : ℕ → Option ThreadState) (t : ℕ) :
    (deliverAll sig ts threads t).isSome = (threads t).isSome := by
  unfold deliverAll
  split_ifs <;> simp

lemma walk_isSome (s : World) (clock : ℕ → BitVec 64) (t : ℕ) :
    ((s.walk clock).2.threads t).isSome = (s.threads t).isSome := by
  refine executeTimers_keeps (I := fun w : Walk => (w.threads t).isSome = (s.threads t).isSome) _ _
    (fun w hw => hw) (fun u _ cb _ w hw => ?_) rfl
  rw [← hw]
  exact isSome_deliverAll _ _ _ _

lemma walk_resumed (s : World) (clock : ℕ → BitVec 64) :
    ∀ t ∈ (s.walk clock).2.resumed, ∃ u ∈ s.timers.timers, u.arg = t := by
  refine executeTimers_keeps
    (I := fun w : Walk => ∀ t ∈ w.resumed, ∃ u ∈ s.timers.timers, u.arg = t) _ _
    (fun w hw => hw) (fun u hu cb _ w hw t ht => ?_) (by simp)
  rcases mem_append.1 ht with ht | ht
  · exact hw t ht
  · exact ⟨u, hu, (mem_singleton.1 ht).symm⟩

lemma walk_args (s : World) (clock : ℕ → BitVec 64) :
    ∀ t ∈ (s.walk clock).1, ∃ u ∈ s.timers.timers, u.arg = t.arg := by
  intro t ht
  have hsub := executeTimers_sublist (wakeUp clock) (f := (·.arg)) (fun _ _ => rfl)
    s.timers.timers ⟨s.threads, [], 0⟩
  obtain ⟨u, hu, he⟩ := mem_map.1 (hsub.subset (mem_map_of_mem ht))
  exact ⟨u, hu, he⟩

variable {s t : World}

lemma Refers.resumesLive (h : Refers s) (e : Event) : ResumesLive s e := by
  cases e with
  | tick clock =>
    intro t ht
    obtain ⟨u, hu, rfl⟩ := walk_resumed s clock t ht
    exact h u hu
  | _ => trivial

lemma Refers.mono (h : Refers s) (htimers : t.timers = s.timers)
    (hthreads : ∀ u, (s.threads u).isSome → (t.threads u).isSome) : Refers t := by
  intro timer ht
  rw [htimers] at ht
  exact hthreads _ (h timer ht)

lemma Refers.exit (h : Refers s) (p : ℕ) : Refers (exit s p) := by
  unfold SleepTimers.exit
  split
  · exact h
  · split_ifs
    · exact h
    · exact h.mono rfl fun u hu => by simpa using hu

lemma Refers.step {e : Event} (h : Refers s) (hg : Awake s e)
    (ht : step s e = some t) : Refers t := by
  cases e with
  | createProcess =>
    cases ht
    exact h.mono rfl fun u hu => hu
  | createThread p =>
    obtain ⟨process, -, rfl⟩ := Option.map_eq_some_iff.1 ht
    refine h.mono rfl fun u hu => ?_
    by_cases hn : u = s.next
    · simp [hn]
    · simpa [hn] using hu
  | sleep u now ms =>
    simp only [SleepTimers.step] at ht
    split_ifs at ht with hrun
    cases ht
    intro timer htimer
    rcases mem_append.1 htimer with hold | hnew
    · simpa [SleepTimers.sleep] using h timer hold
    · rw [mem_singleton.1 hnew]
      rcases hrun with hu | hu <;> simp [SleepTimers.sleep, hu]
  | tick clock =>
    cases ht
    intro timer htimer
    obtain ⟨u, hu, he⟩ := walk_args s clock timer htimer
    rw [← he]
    exact (walk_isSome s clock u.arg).trans (h u hu)
  | signalThread u sig =>
    cases ht
    exact h.mono rfl fun v hv => by simpa [SleepTimers.signalThread] using hv
  | signalProcess p sig =>
    cases ht
    unfold SleepTimers.signalProcess
    split
    · exact h
    · split_ifs
      · exact h.exit p
      · exact h.mono rfl fun v hv => by simpa using hv
  | exit p =>
    cases ht
    exact h.exit p
  | collect p =>
    obtain ⟨process, hp, hdestroy⟩ := Option.bind_eq_some_iff.1 ht
    split_ifs at hdestroy with hexit
    cases hdestroy
    intro timer htimer
    have hnot := hg process hp hexit timer htimer
    simpa [destroyProcess, hnot] using h timer htimer

/-- Pending timers refer to live threads, and ticks resume only such, exactly in
the runs that collect no process while a timer of one of its threads is pending. -/
theorem sleep_timers_live_iff (events : List Event) :
    (Always step Refers .boot events ∧ Meets step ResumesLive .boot events) ↔
      Meets step Awake .boot events := by
  have hboot : Refers .boot := by simp [Refers, World.boot, Timers.init]
  constructor
  · rintro ⟨h, -⟩ pre e hp s hs
    cases e with
    | collect p =>
      intro process hprocess hexit timer htimer hin
      have hstep : step s (.collect p) = some (destroyProcess s p process) := by
        simp [step, hprocess, hexit]
      have hlive := h _ hp _ (exec_concat hs hstep) timer htimer
      simp [destroyProcess, hin] at hlive
    | _ => trivial
  · intro h
    have hrefers : Always step Refers .boot events :=
      always_of_meets (fun s e t hs hg ht => hs.step hg ht) hboot h
    exact ⟨hrefers, h.mono hrefers fun _ e hs _ => hs.resumesLive e⟩

def orphanTimer : List Event :=
  [.createProcess, .createThread 0, .sleep 1 0 10, .signalProcess 0 .kill, .collect 0,
    .tick fun _ => 10]

/-- The tick resumes the destroyed thread. -/
theorem sleep_timer_outlives_thread : ¬Meets step ResumesLive .boot orphanTimer :=
  not_meets_of_check (by decide +kernel)

end GzOS.SleepTimers
