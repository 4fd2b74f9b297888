import GzOS.FeedbackQueue
import GzOS.Runs

/-!
# The scheduler over the feedback queue

The operations run with interrupts off, so each of them is one step; a suspension of the
current thread is followed by `schedule` in the same step. The register frames, the
address space switch and the kernel stack range check are not part of the model: no
scheduling decision reads them.
-/
namespace GzOS.Scheduling
open Runs List Except State

/-- The tail of `schedule` from the label `switch_to_proc` on. -/
def switchToProc : Option ℕ × State → Except Panic State
  | (none, _) => .error .chosenNull
  | (some t, s) =>
    if s.state t ≠ .ready ∧ s.state t ≠ .running then .error .chosenInvalidState
    else .ok ((s.setCurrent (some t)).setState t .running)

def schedule (s : State) : Except Panic State :=
  match s.currentThread with
  | none => switchToProc (choose s)
  | some c =>
    if s.state c = .terminated ∨ s.state c = .suspended then switchToProc (choose s)
    else do
      let r ← evaluateAndChoose s c
      switchToProc r

/-- Up to the `SCHEDULE` call at its end. -/
def suspendOnly (s : State) (t : ℕ) : Except Panic State :=
  match s.state t with
  | .ready | .running => policySuspend s t
  | .suspended | .terminated => .ok s

def suspend (s : State) (t : ℕ) : Except Panic State := do
  let s₁ ← suspendOnly s t
  if (s.state t = .ready ∨ s.state t = .running) ∧ s.currentThread = some t then schedule s₁
  else .ok s₁

/-- `Scheduler::suspend` of a process with the given threads. -/
def suspendProcess (s : State) (ts : List ℕ) : Except Panic State := do
  let s₁ ← ts.foldlM suspendOnly s
  match s.currentThread with
  | some c => if c ∈ ts then schedule s₁ else .ok s₁
  | none => .ok s₁

def resume (s : State) (t : ℕ) : Except Panic State :=
  if s.state t ≠ .suspended then .ok s else policyResume s t

/-- The thread stays queued; the caller's `SCHEDULE` is a step of its own. -/
def kill (s : State) (t : ℕ) : State :=
  if s.state t = .terminated then s else s.setState t .terminated

def addThread (s : State) : State :=
  let t := s.nextThread
  let r := policyAdd { s with nextThread := t + 1 } t
  if r.2 then { r.1 with registered := t :: r.1.registered } else r.1

def State.unregister (s : State) (t : ℕ) : State :=
  { s with registered := s.registered.filter (· ≠ t) }

def State.releaseCurrent (s : State) (t : ℕ) : State :=
  if s.currentThread = some t then s.setCurrent none else s

def removeThread (s : State) (t : ℕ) : Except Panic State := do
  let r ← policyRemove s t
  if r.2 then .ok ((r.1.unregister t).releaseCurrent t) else .ok r.1

inductive Op
  | addThread
  | removeThread (t : ℕ)
  | schedule
  | yield (t : ℕ)
  | suspend (t : ℕ)
  | suspendProcess (ts : List ℕ)
  | resume (t : ℕ)
  | kill (t : ℕ)
  deriving DecidableEq, Repr

def step (s : State) : Op → Except Panic State
  | .addThread => .ok (addThread s)
  | .removeThread t => removeThread s t
  | .schedule => schedule s
  | .yield t => .ok (threadYield s t)
  | .suspend t => suspend s t
  | .suspendProcess ts => suspendProcess s ts
  | .resume t => resume s t
  | .kill t => .ok (kill s t)

/-- The step as a partial function; a panic has no next state. -/
def next (s : State) (op : Op) : Option State := (step s op).toOption

/-- Only the idle thread exists and is queued. -/
def initial : State :=
  setIdleThread
    { threads := fun _ => {}, queues := fun _ => [], currentThread := none, nextThread := 1,
      registered := [] } idleThread

variable {s s' : State}

lemma next_eq_some {t : State} {op : Op} : next s op = some t ↔ step s op = .ok t := by
  unfold next
  cases step s op <;> simp [Except.toOption]

lemma dataFromThread_ok {t : ℕ} {d : PolicyData} :
    dataFromThread s t = .ok d ↔ s.data t = some d := by
  unfold dataFromThread
  cases s.data t <;> simp

lemma runLevelIndex_ok {l : ℤ} {i : ℕ} : runLevelIndex l = .ok i ↔ l = i ∧ i < runLevels := by
  unfold runLevelIndex runLevels
  split_ifs with h
  · simp only [ok.injEq]; omega
  · simp only [false_iff]; omega

lemma chooseFrom_cases {is : List ℕ} {r : Option ℕ} (h : chooseFrom s is = (r, s')) :
    (r = none ∧ s' = s ∧ ∀ i ∈ is, s.queues i = []) ∨
      ∃ pre i post t rest, is = pre ++ i :: post ∧ (∀ j ∈ pre, s.queues j = []) ∧
        s.queues i = t :: rest ∧ r = some t ∧
        s' = { s with queues := Function.update s.queues i rest } := by
  induction is with
  | nil =>
    obtain ⟨rfl, rfl⟩ := Prod.mk.inj h
    exact .inl ⟨rfl, rfl, by simp⟩
  | cons i is ih =>
    rw [chooseFrom] at h
    cases hq : s.queues i with
    | nil =>
      simp only [hq] at h
      rcases ih h with ⟨hr, hs, hall⟩ | ⟨pre, j, post, t, rest, rfl, hpre, hj, hr, hs⟩
      · exact .inl ⟨hr, hs, by simpa [hq] using hall⟩
      · exact .inr ⟨i :: pre, j, post, t, rest, rfl, by simpa [hq] using hpre, hj, hr, hs⟩
    | cons t rest =>
      simp only [hq] at h
      obtain ⟨rfl, rfl⟩ := Prod.mk.inj h
      exact .inr ⟨[], i, is, t, rest, rfl, by simp, hq, rfl, rfl⟩

/-- `choose` popped `t` from level `i`, the first level with a thread. -/
structure Popped (s : State) (t i : ℕ) (rest : List ℕ) : Prop where
  level : i < runLevels
  above : ∀ j < i, s.queues j = []
  head : s.queues i = t :: rest

def State.pop (s : State) (i : ℕ) (rest : List ℕ) : State :=
  { s with queues := Function.update s.queues i rest }

@[simp] lemma data_pop (s : State) (i : ℕ) (rest : List ℕ) (u : ℕ) :
    (s.pop i rest).data u = s.data u := rfl

@[simp] lemma state_pop (s : State) (i : ℕ) (rest : List ℕ) (u : ℕ) :
    (s.pop i rest).state u = s.state u := rfl

@[simp] lemma queues_pop (s : State) (i : ℕ) (rest : List ℕ) (j : ℕ) :
    (s.pop i rest).queues j = if j = i then rest else s.queues j := by
  by_cases h : j = i
  · subst h; simp [pop]
  · simp [pop, h]

lemma choose_some {t : ℕ} (h : choose s = (some t, s')) :
    ∃ i rest, Popped s t i rest ∧ s' = s.pop i rest := by
  rcases chooseFrom_cases h with ⟨hr, _⟩ | ⟨pre, i, post, u, rest, hsplit, hpre, hq, hr, hs⟩
  · cases hr
  cases hr
  have hlen : pre.length < runLevels := by
    have := congrArg length hsplit
    simp only [length_range, length_append, length_cons] at this
    omega
  have hget : ∀ k, k < runLevels → (pre ++ i :: post)[k]? = some k := by
    intro k hk
    rw [← hsplit]
    simp [hk]
  have hi : i = pre.length := by simpa using hget pre.length hlen
  refine ⟨i, rest, ⟨hi ▸ hlen, fun j hj => hpre j ?_, hq⟩, hs⟩
  have := hget j (by omega)
  rw [getElem?_append_left (by omega)] at this
  exact mem_of_getElem? this

lemma choose_none (h : choose s = (none, s')) : ∀ i < runLevels, s.queues i = [] := by
  rcases chooseFrom_cases h with ⟨_, _, hall⟩ | ⟨_, _, _, _, _, _, _, _, hr, _⟩
  · exact fun i hi => hall i (mem_range.2 hi)
  · cases hr

def State.requeue (s : State) (t : ℕ) (d : PolicyData) (i : ℕ) : State :=
  ((s.setData t d).setState t .ready).push i t

@[simp] lemma setData_setData (s : State) (t : ℕ) (d e : PolicyData) :
    (s.setData t d).setData t e = s.setData t e := by
  simp [setData]

def yieldedData (d : PolicyData) : PolicyData :=
  { d with quantum := d.resetQuantum, yieldRequested := false }

def expiredData (d : PolicyData) (i : ℕ) : PolicyData :=
  { d with runLevel := bumpedLevel d, quantum := levelQuantum i, resetQuantum := levelQuantum i }

/-- What `schedule` does to the queues before it chooses. -/
inductive Prepared (s : State) : State → Prop
  | vacant (h : ∀ c, s.currentThread = some c →
      s.state c = .terminated ∨ s.state c = .suspended) : Prepared s s
  | yielded {c i : ℕ} {d : PolicyData} (hc : s.currentThread = some c)
      (ha : ¬ (s.state c = .terminated ∨ s.state c = .suspended)) (hd : s.data c = some d)
      (hy : d.yieldRequested = true) (hl : d.runLevel = i) (hi : i < runLevels) :
      Prepared s (s.requeue c (yieldedData d) i)
  | expired {c i : ℕ} {d : PolicyData} (hc : s.currentThread = some c)
      (ha : ¬ (s.state c = .terminated ∨ s.state c = .suspended)) (hd : s.data c = some d)
      (hy : d.yieldRequested = false) (hq : d.quantum ≤ 1) (hl : bumpedLevel d = i)
      (hi : i < runLevels) : Prepared s (s.requeue c (expiredData d i) i)

structure Continues (s : State) (c : ℕ) (d : PolicyData) : Prop where
  current : s.currentThread = some c
  active : ¬ (s.state c = .terminated ∨ s.state c = .suspended)
  data : s.data c = some d
  noYield : d.yieldRequested = false
  quantum : 1 < d.quantum

def State.dispatch (s : State) (t : ℕ) : State := (s.setCurrent (some t)).setState t .running

/-- All that `schedule` can do: dispatch the first waiting thread, or continue. -/
lemma schedule_cases (h : schedule s = .ok s') :
    (∃ s0 t i rest, Prepared s s0 ∧ Popped s0 t i rest ∧
        (s0.state t = .ready ∨ s0.state t = .running) ∧ s' = (s0.pop i rest).dispatch t) ∨
      ∃ c d, Continues s c d ∧
        s' = (s.setData c { d with quantum := d.quantum - 1 }).dispatch c := by
  have hswitch : ∀ s0, Prepared s s0 → switchToProc (choose s0) = .ok s' →
      ∃ s0 t i rest, Prepared s s0 ∧ Popped s0 t i rest ∧
        (s0.state t = .ready ∨ s0.state t = .running) ∧ s' = (s0.pop i rest).dispatch t := by
    intro s0 hp hs
    cases hc : choose s0 with
    | mk r s1 =>
      rw [hc] at hs
      cases r with
      | none => cases hs
      | some t =>
        simp only [switchToProc] at hs
        split_ifs at hs with hst
        obtain ⟨i, rest, hpop, rfl⟩ := choose_some hc
        refine ⟨s0, t, i, rest, hp, hpop, ?_, (ok.inj hs).symm⟩
        tauto
  unfold schedule at h
  split at h
  · next hc => exact .inl (hswitch s (.vacant (by simp [hc])) h)
  next c hc =>
  split_ifs at h with ha
  · refine .inl (hswitch s (.vacant ?_) h)
    intro c' hc'
    obtain rfl : c = c' := by simpa [hc] using hc'
    exact ha
  · obtain ⟨r, hr, hs⟩ := bind_ok.1 h
    obtain ⟨d, hd, hr⟩ := bind_ok.1 hr
    rw [dataFromThread_ok] at hd
    simp only at hr
    split_ifs at hr with hy hq
    · obtain ⟨d1, hd1, hr⟩ := bind_ok.1 hr
      obtain rfl : { d with quantum := d.quantum - 1 } = d1 := by
        simpa [dataFromThread_ok] using hd1
      obtain ⟨i, hi, hr⟩ := bind_ok.1 hr
      rw [runLevelIndex_ok] at hi
      cases hr
      refine .inl (hswitch _ (.yielded hc ha hd hy hi.1 hi.2) ?_)
      simpa [requeue, yieldedData] using hs
    · obtain ⟨i, hi, hr⟩ := bind_ok.1 hr
      rw [runLevelIndex_ok] at hi
      cases hr
      refine .inl (hswitch _ (.expired hc ha hd (by simpa using hy) (by omega) hi.1 hi.2) ?_)
      simpa [requeue, expiredData, bumpedLevel] using hs
    · cases hr
      simp only [switchToProc] at hs
      split_ifs at hs
      exact .inr ⟨c, d, ⟨hc, ha, hd, by simpa using hy, by omega⟩, (ok.inj hs).symm⟩

end GzOS.Scheduling
