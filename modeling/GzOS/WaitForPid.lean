import GzOS.Runs
import Mathlib.Data.BitVec

/-!
# Waiting for a process

`waitForPid` keeps the pointer to its process while it waits. The exit wakes all
waiters, and each of them then destroys the process. So the process is collected once
only if no two calls overlap.
-/
namespace GzOS.WaitForPid
open Runs Function

/-- `woken` holds the value that `SIG_CONT` left, `returned` that of the last call. -/
inductive Control
  | outside
  | waiting
  | woken (value : BitVec 32)
  | returned (value : BitVec 32)
  deriving DecidableEq, Repr

/-- Whether it is in the list, its exit code, and the tids that `_exitEvent` will notify. -/
structure State where
  listed : Bool
  exitCode : Option (BitVec 32)
  waitingPids : List ℕ
  control : ℕ → Control

def State.boot : State := ⟨true, none, [], fun _ => .outside⟩

def State.setControl (s : State) (tid : ℕ) (c : Control) : State :=
  { s with control := update s.control tid c }

/-- What it does with a pointer to a process that is gone is left open. -/
def destroyProcess (s : State) : State := { s with listed := false }

/-- Up to its return or to the SIG_STOP inside `wait_for_exit`. Interrupts are off. -/
def waitForPid (s : State) (tid : ℕ) : State :=
  if s.listed then
    match s.exitCode with
    | some code => (destroyProcess s).setControl tid (.returned code)
    | none =>
      let pids := if tid ∈ s.waitingPids then s.waitingPids else s.waitingPids ++ [tid]
      { s with waitingPids := pids }.setControl tid .waiting
  else s.setControl tid (.returned (-1))

/-- After `wait_for_exit` returned the value. -/
def collect (s : State) (tid : ℕ) (value : BitVec 32) : State :=
  (destroyProcess s).setControl tid (.returned value)

/-- The exit event resumes the waiting threads. -/
def terminate (s : State) (code : BitVec 32) : State :=
  { s with
    exitCode := some code
    waitingPids := []
    control := fun tid =>
      if tid ∈ s.waitingPids ∧ s.control tid = .waiting then .woken code else s.control tid }

inductive Event
  | waitForPid (tid : ℕ)
  | exit (code : BitVec 32)
  | resume (tid : ℕ)
  deriving DecidableEq, Repr

/-- A thread calls when it is not inside a call; a process that has exited or is gone does
not exit again: `Scheduler::kill` returns false. -/
def step (s : State) : Event → Option State
  | .waitForPid tid =>
    match s.control tid with
    | .outside | .returned _ => some (waitForPid s tid)
    | _ => none
  | .exit code => if s.listed ∧ s.exitCode = none then some (terminate s code) else none
  | .resume tid =>
    match s.control tid with
    | .woken value => some (collect s tid value)
    | _ => none

def Control.Woken : Control → Prop
  | .woken _ => True
  | _ => False

instance (c : Control) : Decidable c.Woken := by
  cases c <;> unfold Control.Woken <;> infer_instance

/-- A call has just found the process in the list. -/
def DestroysListed (s : State) : Event → Prop
  | .resume tid => (s.control tid).Woken → s.listed = true
  | _ => True

/-- A return value is the exit code of the process. -/
def Reports (s : State) : Prop :=
  ∀ tid value, s.control tid = .returned value → value ≠ -1 → s.exitCode = some value

def Control.Inside : Control → Prop
  | .waiting | .woken _ => True
  | _ => False

instance (c : Control) : Decidable c.Inside := by
  cases c <;> unfold Control.Inside <;> infer_instance

/-- No call begins while another thread is inside a call. -/
def Alone (s : State) : Event → Prop
  | .waitForPid _ => ∀ tid, ¬(s.control tid).Inside
  | _ => True

instance (s : State) (e : Event) : Decidable (DestroysListed s e) := by
  cases e <;> unfold DestroysListed <;> infer_instance

/-! ## The invariant -/

structure Solo (s : State) : Prop where
  listed : ∀ tid, (s.control tid).Inside → s.listed = true
  unique : ∀ tid tid', (s.control tid).Inside → (s.control tid').Inside → tid = tid'
  woken : ∀ tid value, s.control tid = .woken value → s.exitCode = some value
  reports : Reports s

lemma Solo.boot : Solo .boot := by
  constructor <;> simp [State.boot, Control.Inside, Reports]

variable {s t : State} {tid : ℕ}

lemma Solo.leave (h : Solo s) {value : BitVec 32}
    (hcontrol : t.control = update s.control tid (.returned value))
    (hexit : t.exitCode = s.exitCode) (hvalue : value ≠ -1 → s.exitCode = some value)
    (hlisted : ∀ u, u ≠ tid → (s.control u).Inside → t.listed) : Solo t := by
  have hcases : ∀ u, (t.control u).Inside → u ≠ tid ∧ (s.control u).Inside := by
    intro u hu
    rw [hcontrol] at hu
    by_cases hne : u = tid
    · subst hne
      simp [Control.Inside] at hu
    · rw [update_of_ne hne] at hu
      exact ⟨hne, hu⟩
  refine ⟨fun u hu => hlisted u (hcases u hu).1 (hcases u hu).2,
    fun u v hu hv => h.unique u v (hcases u hu).2 (hcases v hv).2, fun u v hu => ?_,
    fun u v hu hne => ?_⟩
  · have hin : (t.control u).Inside := by rw [hu]; trivial
    rw [hcontrol, update_of_ne (hcases u hin).1] at hu
    rw [hexit]
    exact h.woken u v hu
  · rw [hexit]
    rw [hcontrol] at hu
    by_cases htid : u = tid
    · subst htid
      rw [update_self] at hu
      cases hu
      exact hvalue hne
    · rw [update_of_ne htid] at hu
      exact h.reports u v hu hne

lemma Solo.enter (h : Solo s) (tid : ℕ) (pids : List ℕ)
    (halone : ∀ u, ¬(s.control u).Inside) (hlisted : s.listed) :
    Solo ({ s with waitingPids := pids }.setControl tid .waiting) := by
  have hin : ∀ u, (update s.control tid Control.waiting u).Inside → u = tid := by
    intro u hu
    by_contra hne
    rw [update_of_ne hne] at hu
    exact halone u hu
  refine ⟨fun _ _ => hlisted, fun u v hu hv => (hin u hu).trans (hin v hv).symm,
    fun u v hu => ?_, fun u v hu hne => ?_⟩
  · simp only [State.setControl] at hu
    obtain rfl : u = tid := hin u (by rw [hu]; trivial)
    rw [update_self] at hu
    cases hu
  · simp only [State.setControl] at hu
    by_cases htid : u = tid
    · subst htid
      rw [update_self] at hu
      cases hu
    · rw [update_of_ne htid] at hu
      exact h.reports u v hu hne

lemma Solo.waitForPid (h : Solo s)
    (halone : ∀ u, ¬(s.control u).Inside) : Solo (waitForPid s tid) := by
  unfold WaitForPid.waitForPid
  split
  · rename_i hlisted
    split
    · rename_i code hcode
      exact h.leave rfl rfl (fun _ => hcode) fun u _ hu => absurd hu (halone u)
    · exact h.enter tid _ halone hlisted
  · exact h.leave rfl rfl (fun hne => absurd rfl hne) fun u _ hu => h.listed u hu

lemma Solo.terminate (h : Solo s) {code : BitVec 32} (hnone : s.exitCode = none) :
    Solo (terminate s code) := by
  have hcases : ∀ u, ((WaitForPid.terminate s code).control u = .woken code ∧
      (s.control u).Inside) ∨ (WaitForPid.terminate s code).control u = s.control u := by
    intro u
    simp only [WaitForPid.terminate]
    split_ifs with hu
    · exact .inl ⟨rfl, by rw [hu.2]; trivial⟩
    · exact .inr rfl
  have hin : ∀ u, ((WaitForPid.terminate s code).control u).Inside → (s.control u).Inside := by
    intro u hu
    rcases hcases u with ⟨-, hs⟩ | he
    · exact hs
    · exact he ▸ hu
  refine ⟨fun u hu => h.listed u (hin u hu), fun u v hu hv => h.unique u v (hin u hu) (hin v hv),
    fun u v hu => ?_, fun u v hu hne => ?_⟩
  · rcases hcases u with ⟨he, -⟩ | he
    · rw [he] at hu
      cases hu
      rfl
    · -- nobody was woken before the exit
      have := h.woken u v (he ▸ hu)
      rw [hnone] at this
      cases this
  · rcases hcases u with ⟨he, -⟩ | he
    · rw [he] at hu
      cases hu
    · have := h.reports u v (he ▸ hu) hne
      rw [hnone] at this
      cases this

lemma Solo.step {e : Event} (h : Solo s) (hg : Alone s e) (ht : step s e = some t) : Solo t := by
  cases e with
  | waitForPid tid =>
    simp only [WaitForPid.step] at ht
    split at ht
    · cases ht
      exact h.waitForPid hg
    · cases ht
      exact h.waitForPid hg
    · cases ht
  | exit code =>
    simp only [WaitForPid.step] at ht
    split_ifs at ht with hcond
    cases ht
    exact h.terminate hcond.2
  | resume tid =>
    simp only [WaitForPid.step] at ht
    split at ht
    · rename_i value hwoken
      cases ht
      have hin : (s.control tid).Inside := by rw [hwoken]; trivial
      exact h.leave rfl rfl (fun _ => h.woken tid value hwoken) fun u hne hu =>
        absurd (h.unique u tid hu hin) hne
    · cases ht

lemma Solo.destroysListed (h : Solo s) (e : Event) : DestroysListed s e := by
  cases e with
  | resume tid =>
    intro hwoken
    refine h.listed tid ?_
    cases hc : s.control tid with
    | woken value => trivial
    | _ => simp [hc, Control.Woken] at hwoken
  | _ => trivial

/-- Calls that do not overlap collect the process once and report its exit code. -/
theorem collected_once (events : List Event) (h : Meets step Alone .boot events) :
    Meets step DestroysListed .boot events ∧ Always step Reports .boot events := by
  have hsolo : Always step Solo .boot events :=
    always_of_meets (fun s e t hs hg ht => hs.step hg ht) .boot h
  exact ⟨h.mono hsolo fun _ e hs _ => hs.destroysListed e, hsolo.mono fun _ hs => hs.reports⟩

/-- A thread waits and collects the process; a later call returns -1. -/
theorem collected_once_waiter :
    Meets step DestroysListed .boot [.waitForPid 1, .exit 5, .resume 1, .waitForPid 2] ∧
      Always step Reports .boot [.waitForPid 1, .exit 5, .resume 1, .waitForPid 2] := by
  refine collected_once _ (meets_cons.2 ⟨fun _ hin => hin, fun s hs => ?_⟩)
  cases hs
  refine meets_cons.2 ⟨trivial, fun s hs => ?_⟩
  cases hs
  refine meets_cons.2 ⟨trivial, fun s hs => ?_⟩
  cases hs
  refine meets_singleton.2 fun tid hin => ?_
  by_cases htid : tid = 1
  · subst htid
    exact hin
  · simp [collect, terminate, destroyProcess, State.setControl, waitForPid, State.boot, htid,
      Control.Inside] at hin

/-- Two waiters: the second destroys the process again. -/
theorem collected_twice :
    ¬Meets step DestroysListed .boot
      [.waitForPid 1, .waitForPid 2, .exit 5, .resume 1, .resume 2] :=
  not_meets_of_check (by decide +kernel)

end GzOS.WaitForPid
