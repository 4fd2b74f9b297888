import Mathlib.Logic.Function.Basic
import Mathlib.Data.List.Nodup
import Mathlib.Tactic

/-!
# The multi-level feedback queue policy

Five run levels, each with a FIFO of ready threads that was reserved with capacity ten;
a push onto a full queue returns false. Threads are numbered in the order of their
creation, the idle thread first. A failed assertion, a panic and an index outside the
run level table are the ways in which an operation does not return.
-/
namespace GzOS.Scheduling
open Function

inductive ThreadState
  | ready
  | running
  | suspended
  | terminated
  deriving DecidableEq, Repr

def runLevelDepth : ℕ := 10
def runLevels : ℕ := 5
def defaultQuantum : ℤ := 100

/-- With the inherited fields. -/
structure PolicyData where
  yieldRequested : Bool := false
  quantum : ℤ := defaultQuantum
  resetQuantum : ℤ := defaultQuantum
  runLevel : ℤ := -1
  isPinned : Bool := false
  deriving DecidableEq, Repr

structure Thread where
  state : ThreadState := .ready
  schedulerData : Option PolicyData := none
  deriving DecidableEq, Repr

/-- How an operation fails to return. -/
inductive Panic
  | chosenNull
  | chosenInvalidState
  | nullSchedulerData
  | runLevelIndex
  deriving DecidableEq, Repr

/-- `nextThread` is the next number; the ghost `registered` lists the threads added and not
removed since. -/
structure State where
  threads : ℕ → Thread
  queues : ℕ → List ℕ
  currentThread : Option ℕ
  nextThread : ℕ
  registered : List ℕ

def idleThread : ℕ := 0

variable {s : State} {i : ℕ}

namespace State

def data (s : State) (t : ℕ) : Option PolicyData := (s.threads t).schedulerData
def state (s : State) (t : ℕ) : ThreadState := (s.threads t).state

def setData (s : State) (t : ℕ) (d : PolicyData) : State :=
  { s with threads := update s.threads t { s.threads t with schedulerData := some d } }

def setState (s : State) (t : ℕ) (st : ThreadState) : State :=
  { s with threads := update s.threads t { s.threads t with state := st } }

/-- The result of the push is `!full`. -/
def full (s : State) (i : ℕ) : Bool := (s.queues i).length == runLevelDepth

def push (s : State) (i t : ℕ) : State :=
  if s.full i then s
  else { s with queues := update s.queues i (s.queues i ++ [t]) }

/-- `basic_queue::remove` with the comparison `item == thread`. -/
def removeFrom (s : State) (i t : ℕ) : State :=
  { s with queues := update s.queues i ((s.queues i).filter (· ≠ t)) }

def setCurrent (s : State) (c : Option ℕ) : State := { s with currentThread := c }

@[simp] lemma data_setData (s : State) (t u : ℕ) (d : PolicyData) :
    (s.setData t d).data u = if u = t then some d else s.data u := by
  by_cases h : u = t
  · subst h; simp [setData, data]
  · simp [setData, data, h]

@[simp] lemma state_setData (s : State) (t u : ℕ) (d : PolicyData) :
    (s.setData t d).state u = s.state u := by
  by_cases h : u = t
  · subst h; simp [setData, state]
  · simp [setData, state, update_of_ne h]

@[simp] lemma data_setState (s : State) (t u : ℕ) (st : ThreadState) :
    (s.setState t st).data u = s.data u := by
  by_cases h : u = t
  · subst h; simp [setState, data]
  · simp [setState, data, update_of_ne h]

@[simp] lemma state_setState (s : State) (t u : ℕ) (st : ThreadState) :
    (s.setState t st).state u = if u = t then st else s.state u := by
  by_cases h : u = t
  · subst h; simp [setState, state]
  · simp [setState, state, h]

@[simp] lemma data_push (s : State) (i t u : ℕ) : (s.push i t).data u = s.data u := by
  unfold push; split <;> rfl

@[simp] lemma state_push (s : State) (i t u : ℕ) : (s.push i t).state u = s.state u := by
  unfold push; split <;> rfl

@[simp] lemma data_removeFrom (s : State) (i t u : ℕ) : (s.removeFrom i t).data u = s.data u := rfl

@[simp] lemma state_removeFrom (s : State) (i t u : ℕ) :
    (s.removeFrom i t).state u = s.state u := rfl

@[simp] lemma data_setCurrent (s : State) (c : Option ℕ) (u : ℕ) :
    (s.setCurrent c).data u = s.data u := rfl

@[simp] lemma state_setCurrent (s : State) (c : Option ℕ) (u : ℕ) :
    (s.setCurrent c).state u = s.state u := rfl

@[simp] lemma queues_setData (s : State) (t : ℕ) (d : PolicyData) :
    (s.setData t d).queues = s.queues := rfl

@[simp] lemma queues_setState (s : State) (t : ℕ) (st : ThreadState) :
    (s.setState t st).queues = s.queues := rfl

@[simp] lemma currentThread_push (s : State) (i t : ℕ) :
    (s.push i t).currentThread = s.currentThread := by unfold push; split <;> rfl

@[simp] lemma currentThread_setCurrent (s : State) (c : Option ℕ) :
    (s.setCurrent c).currentThread = c := rfl

@[simp] lemma nextThread_push (s : State) (i t : ℕ) :
    (s.push i t).nextThread = s.nextThread := by unfold push; split <;> rfl

@[simp] lemma registered_setData (s : State) (t : ℕ) (d : PolicyData) :
    (s.setData t d).registered = s.registered := rfl

@[simp] lemma registered_setState (s : State) (t : ℕ) (st : ThreadState) :
    (s.setState t st).registered = s.registered := rfl

@[simp] lemma registered_push (s : State) (i t : ℕ) :
    (s.push i t).registered = s.registered := by unfold push; split <;> rfl

lemma queues_push_of_not_full (h : s.full i = false) (t j : ℕ) :
    (s.push i t).queues j = if j = i then s.queues i ++ [t] else s.queues j := by
  by_cases hj : j = i
  · subst hj; simp [push, h]
  · simp [push, h, hj]

lemma push_of_full (h : s.full i) (t : ℕ) : s.push i t = s := by
  simp [push, h]

lemma mem_push {j t u : ℕ} (h : u ∈ (s.push i t).queues j) :
    u ∈ s.queues j ∨ (u = t ∧ j = i) := by
  cases hf : s.full i with
  | true => rw [push_of_full hf] at h; exact .inl h
  | false =>
    rw [queues_push_of_not_full hf] at h
    split_ifs at h with hj
    · subst hj
      simpa using h
    · exact .inl h

lemma mem_push_of_mem {j t u : ℕ} (h : u ∈ s.queues j) : u ∈ (s.push i t).queues j := by
  cases hf : s.full i with
  | true => rw [push_of_full hf]; exact h
  | false =>
    rw [queues_push_of_not_full hf]
    split_ifs with hj
    · subst hj; exact List.mem_append_left _ h
    · exact h

lemma mem_push_self (h : s.full i = false) (t : ℕ) : t ∈ (s.push i t).queues i := by
  rw [queues_push_of_not_full h]
  simp

@[simp] lemma mem_removeFrom {s : State} {i j t u : ℕ} :
    u ∈ (s.removeFrom i t).queues j ↔ u ∈ s.queues j ∧ (j = i → u ≠ t) := by
  by_cases hj : j = i
  · subst hj; simp [removeFrom]
  · simp [removeFrom, hj]

end State

def levelQuantum (i : ℕ) : ℤ := defaultQuantum + 20 * i

def dataFromThread (s : State) (t : ℕ) : Except Panic PolicyData :=
  match s.data t with
  | some d => .ok d
  | none => .error .nullSchedulerData

/-- The index expression `_runLevels[data.runLevel]`. -/
def runLevelIndex (l : ℤ) : Except Panic ℕ :=
  if 0 ≤ l ∧ l < runLevels then .ok l.toNat else .error .runLevelIndex

/-- `Thread::yield` only leaves a request. -/
def threadYield (s : State) (t : ℕ) : State :=
  match s.data t with
  | some d => s.setData t { d with yieldRequested := true }
  | none => s

def yieldCurrent (s : State) : State :=
  match s.currentThread with
  | some c => threadYield s c
  | none => s

def addedData : PolicyData :=
  { quantum := levelQuantum 0, resetQuantum := levelQuantum 0, runLevel := 0 }

/-- With the result of its push. -/
def policyAdd (s : State) (t : ℕ) : State × Bool :=
  let s₁ := (yieldCurrent (s.setData t addedData)).setState t .ready
  (s₁.push 0 t, !s₁.full 0)

/-- `false` if it was removed before. -/
def policyRemove (s : State) (t : ℕ) : Except Panic (State × Bool) := do
  let d ← dataFromThread s t
  if 0 > d.runLevel then
    .ok (s, false)
  else
    let i ← runLevelIndex d.runLevel
    .ok ((s.removeFrom i t).setData t { d with runLevel := -1 }, true)

def setIdleThread (s : State) (t : ℕ) : State :=
  let i := runLevels - 1
  let s₁ := s.setData t
    { quantum := levelQuantum i, resetQuantum := levelQuantum i, runLevel := i, isPinned := true }
  (s₁.setState t .ready).push i t

def chooseFrom (s : State) : List ℕ → Option ℕ × State
  | [] => (none, s)
  | i :: is =>
    match s.queues i with
    | [] => chooseFrom s is
    | t :: rest => (some t, { s with queues := update s.queues i rest })

def choose (s : State) : Option ℕ × State := chooseFrom s (List.range runLevels)

def policyYield (s : State) (t : ℕ) : Except Panic (Option ℕ × State) := do
  let d ← dataFromThread s t
  let s₁ := s.setData t { d with quantum := d.resetQuantum, yieldRequested := false }
  let i ← runLevelIndex d.runLevel
  .ok (choose ((s₁.setState t .ready).push i t))

def bumpedLevel (d : PolicyData) : ℤ :=
  let newRunLevel := if d.runLevel ≥ (runLevels : ℤ) - 1 then d.runLevel else d.runLevel + 1
  if d.isPinned = false ∧ newRunLevel ≠ d.runLevel then newRunLevel else d.runLevel

def evaluateAndChoose (s : State) (t : ℕ) : Except Panic (Option ℕ × State) := do
  let d ← dataFromThread s t
  let d₁ := { d with quantum := d.quantum - 1 }
  let s₁ := s.setData t d₁
  if d₁.yieldRequested then
    policyYield s₁ t
  else if 0 ≥ d₁.quantum then
    let i ← runLevelIndex (bumpedLevel d₁)
    let s₂ := s₁.setData t { d₁ with
      runLevel := bumpedLevel d₁, quantum := levelQuantum i, resetQuantum := levelQuantum i }
    .ok (choose ((s₂.setState t .ready).push i t))
  else
    .ok (some t, s₁)

def policySuspend (s : State) (t : ℕ) : Except Panic State := do
  let d ← dataFromThread s t
  let i ← runLevelIndex d.runLevel
  .ok ((s.setState t .suspended).removeFrom i t)

def resumedLevel (d : PolicyData) : ℤ :=
  if d.isPinned = false ∧ 0 < d.runLevel then d.runLevel - 1 else d.runLevel

def yieldCurrentAbove (s : State) (l : ℤ) : State :=
  match s.currentThread with
  | some c =>
    match s.data c with
    | some d => if d.runLevel > l then threadYield s c else s
    | none => s
  | none => s

def policyResume (s : State) (t : ℕ) : Except Panic State := do
  let d ← dataFromThread s t
  let i ← runLevelIndex (resumedLevel d)
  let s₁ := s.setData t { d with
    runLevel := resumedLevel d, quantum := levelQuantum i, resetQuantum := levelQuantum i }
  .ok ((yieldCurrentAbove (s₁.setState t .ready) (resumedLevel d)).push i t)

end GzOS.Scheduling
