import GzOS.SystemTimer

/-!
# What a tick of the system timer calls

With a clock that stands still `executeTimers` calls every due timer that has a callback
once, in list order, and keeps the others as they are.

`scheduler_set_timeout` casts functions of two parameters to functions of one. A callback
that reads its second parameter gets whatever the second register happens to hold.
-/
namespace GzOS.SystemTimer
open Runs List

variable {κ α σ : Type}

/-! ## One walk -/

/-- The clock shows `now` during the walk. -/
def Env.during (now : BitVec 64) (call : κ → α → σ → Bool × σ) : Env κ α σ where
  clockGetMs s := (now, s)
  call := call

/-- The callbacks leave a record of their calls and results. -/
def recorded (call : κ → α → σ → Bool × σ) (cb : κ) (arg : α) (s : σ × List (κ × α × Bool)) :
    Bool × σ × List (κ × α × Bool) :=
  let (stays, s') := call cb arg s.1
  (stays, s', s.2 ++ [(cb, arg, stays)])

lemma executeTimers_recorded (now : BitVec 64) (call : κ → α → σ → Bool × σ)
    (ts : List (TimerControlBlock κ α)) (s : σ) (l : List (κ × α × Bool)) :
    (executeTimers (.during now (recorded call)) ts (s, l)).1 =
        (executeTimers (.during now call) ts s).1 ∧
      (executeTimers (.during now (recorded call)) ts (s, l)).2.1 =
        (executeTimers (.during now call) ts s).2 := by
  induction ts generalizing s l with
  | nil => exact ⟨rfl, rfl⟩
  | cons t ts ih =>
    have hvisit : (visit (.during now (recorded call)) t (s, l)).1 =
          (visit (.during now call) t s).1 ∧ (visit (.during now (recorded call)) t (s, l)).2.1 =
          (visit (.during now call) t s).2 := by
      unfold visit Env.during recorded
      dsimp only
      split_ifs <;> cases t.callbackFunc <;> exact ⟨rfl, rfl⟩
    obtain ⟨⟨s', l'⟩, hs'⟩ : ∃ p, (visit (.during now (recorded call)) t (s, l)).2 = p := ⟨_, rfl⟩
    obtain ⟨hfirst, hsecond⟩ := hvisit
    obtain ⟨hlist, hstate⟩ := ih s' l'
    simp only [executeTimers, hs', hfirst, ← hsecond, hlist, hstate]
    exact ⟨trivial, trivial⟩

/-- The time has come, and there is a callback. -/
def Due (now : BitVec 64) (t : TimerControlBlock κ α) : Prop :=
  t.targetMs ≤ now ∧ t.callbackFunc.isSome = true

def called : TimerControlBlock κ α × Option Bool → Option (κ × α × Bool)
  | (t, some stays) => t.callbackFunc.map fun cb => (cb, t.arg, stays)
  | (_, none) => none

def settled (now : BitVec 64) :
    TimerControlBlock κ α × Option Bool → Option (TimerControlBlock κ α)
  | (t, none) => some t
  | (t, some true) => some { t with targetMs := now + t.timeoutMs }
  | (_, some false) => none

lemma visit_outcome (now : BitVec 64) (call : κ → α → σ → Bool × σ)
    (t : TimerControlBlock κ α) (s : σ × List (κ × α × Bool)) :
    ∃ result : Option Bool, (result.isSome ↔ Due now t) ∧
      (visit (.during now (recorded call)) t s).1 = settled now (t, result) ∧
      (visit (.during now (recorded call)) t s).2.2 = s.2 ++ (called (t, result)).toList := by
  by_cases htarget : t.targetMs ≤ now
  · cases hcb : t.callbackFunc with
    | none =>
      refine ⟨none, by simp [Due, hcb], ?_, ?_⟩
      · simp [visit, hcb, settled]
      · simp [visit, Env.during, hcb, called]
    | some cb =>
      refine ⟨some (call cb t.arg s.1).1, by simp [Due, hcb, htarget], ?_, ?_⟩
      · cases hstays : (call cb t.arg s.1).1 <;>
          simp [visit, Env.during, htarget, hcb, recorded, hstays, settled]
      · simp [visit, Env.during, htarget, hcb, recorded, called]
  · refine ⟨none, by simp [Due, htarget], ?_, ?_⟩
    · simp [visit, Env.during, htarget, settled]
    · simp [visit, Env.during, htarget, called]

lemma walk_outcomes (now : BitVec 64) (call : κ → α → σ → Bool × σ)
    (ts : List (TimerControlBlock κ α)) (s : σ × List (κ × α × Bool)) :
    ∃ outcomes : List (TimerControlBlock κ α × Option Bool),
      outcomes.map (·.1) = ts ∧ (∀ x ∈ outcomes, x.2.isSome ↔ Due now x.1) ∧
      (executeTimers (.during now (recorded call)) ts s).1 = outcomes.filterMap (settled now) ∧
      (executeTimers (.during now (recorded call)) ts s).2.2 =
        s.2 ++ outcomes.filterMap called := by
  induction ts generalizing s with
  | nil => exact ⟨[], rfl, by simp, rfl, (append_nil _).symm⟩
  | cons t ts ih =>
    obtain ⟨result, hdue, hkept, hcalls⟩ := visit_outcome now call t s
    obtain ⟨outcomes, hmap, hall, hlist, hrest⟩ :=
      ih (visit (.during now (recorded call)) t s).2
    refine ⟨(t, result) :: outcomes, by simp [hmap], ?_, ?_, ?_⟩
    · intro x hx
      rcases mem_cons.1 hx with rfl | hx
      · exact hdue
      · exact hall x hx
    · simp only [executeTimers, hkept, hlist, filterMap_cons]
      cases settled now (t, result) <;> rfl
    · simp only [executeTimers, hrest, hcalls, filterMap_cons, append_assoc]
      cases called (t, result) <;> rfl

/-- With a clock that stands still and callbacks that leave the timers alone, a walk
gives every timer an outcome: those that are due and have a callback are called once,
in list order, and dropped or given a new target as the callback says; the others stay
as they are. -/
theorem executeTimers_exact (now : BitVec 64) (call : κ → α → σ → Bool × σ)
    (ts : List (TimerControlBlock κ α)) (s : σ) :
    ∃ outcomes : List (TimerControlBlock κ α × Option Bool),
      outcomes.map (·.1) = ts ∧ (∀ x ∈ outcomes, x.2.isSome = true ↔ Due now x.1) ∧
      (executeTimers (.during now call) ts s).1 = outcomes.filterMap (settled now) ∧
      (executeTimers (.during now (recorded call)) ts (s, [])).2 =
        ((executeTimers (.during now call) ts s).2, outcomes.filterMap called) := by
  obtain ⟨outcomes, hmap, hall, hlist, hcalls⟩ := walk_outcomes now call ts (s, [])
  obtain ⟨hsame, hstate⟩ := executeTimers_recorded now call ts s []
  exact ⟨outcomes, hmap, hall, hsame ▸ hlist, Prod.ext hstate (by simpa using hcalls)⟩

def silentTimer : TimerControlBlock Unit Unit := ⟨1000, 5, 10, none, (), 0⟩

/-- It is due, and it is neither called nor given a new target. -/
theorem silent_timer_not_called :
    silentTimer.targetMs ≤ 10 ∧
      (executeTimers (.during 10 (recorded fun _ _ (u : Unit) => (true, u)))
        [silentTimer] ((), [])).2.2 = [] ∧
      ((executeTimers (.during 10 fun _ _ (u : Unit) => (true, u)) [silentTimer] ()).1.map
        (·.targetMs)) = [10] := by decide

/-! ## Runs -/

abbrev Word := BitVec 32

abbrev Registers := Fin 4 → Word

/-- A function with one parameter: the other registers are left. -/
def callSite (arg : Word) (held : Registers) : Registers := Function.update held 0 arg

structure Invocation (κ : Type) where
  callback : κ
  arg : Word
  registers : Registers

/-- The parameters of `timeout_callback_t`. -/
def Invocation.scheduler (inv : Invocation κ) : Word := inv.registers 0
def Invocation.secondParameter (inv : Invocation κ) : Word := inv.registers 1

structure Calls (κ : Type) where
  reads : ℕ
  invocations : List (Invocation κ)

/-- With, for each call, what the registers held and what the callback returns. -/
def calling (clock : ℕ → BitVec 64) (held : ℕ → Registers) (result : ℕ → Bool) :
    Env κ Word (Calls κ) where
  clockGetMs w := (clock w.reads, { w with reads := w.reads + 1 })
  call cb arg w :=
    (result w.invocations.length, { w with invocations := w.invocations ++
          [⟨cb, arg, callSite arg (held w.invocations.length)⟩] })

structure Callbacks (κ : Type) where
  timers : Timers κ Word
  invocations : List (Invocation κ)
  registered : List (κ × Word)

def Callbacks.init : Callbacks κ := ⟨Timers.init, [], []⟩

inductive CallbackEvent (κ : Type)
  | setTimeout (now : BitVec 64) (timeoutMs : BitVec 32) (callback : κ) (arg : Word)
  | unsetTimeout (timeoutId : BitVec 32)
  | tick (clock : ℕ → BitVec 64) (held : ℕ → Registers) (result : ℕ → Bool)

def Callbacks.walk (s : Callbacks κ) (clock : ℕ → BitVec 64) (held : ℕ → Registers)
    (result : ℕ → Bool) : List (TimerControlBlock κ Word) × Calls κ :=
  executeTimers (calling clock held result) s.timers.timers ⟨0, []⟩

def callbackStep (s : Callbacks κ) : CallbackEvent κ → Option (Callbacks κ)
  | .setTimeout now timeoutMs callback arg =>
    some { s with
      timers := (addTimer s.timers now timeoutMs (some callback) arg).2
      registered := s.registered ++ [(callback, arg)] }
  | .unsetTimeout timeoutId => some { s with timers := removeTimer s.timers timeoutId }
  | .tick clock held result =>
    let (timers, w) := s.walk clock held result
    some { s with
      timers := { s.timers with timers := timers }
      invocations := s.invocations ++ w.invocations }

def Passed (inv : Invocation κ) : Prop := inv.secondParameter = inv.arg

def SecondHeld (s : Callbacks κ) : CallbackEvent κ → Prop
  | .tick clock held result => ∀ n inv,
      (s.walk clock held result).2.invocations[n]? = some inv → held n 1 = inv.arg
  | _ => True

lemma walk_registers (s : Callbacks κ) (clock : ℕ → BitVec 64) (held : ℕ → Registers)
    (result : ℕ → Bool) {n : ℕ} {inv : Invocation κ}
    (h : (s.walk clock held result).2.invocations[n]? = some inv) :
    inv.registers = callSite inv.arg (held n) := by
  refine executeTimers_keeps (I := fun w : Calls κ => ∀ n (inv : Invocation κ),
    w.invocations[n]? = some inv → inv.registers = callSite inv.arg (held n))
    (calling clock held result) s.timers.timers (fun _ hw => hw) ?_ (by simp) n inv h
  intro t _ cb _ w hw m i hi
  simp only [calling, getElem?_append, getElem?_singleton] at hi
  split_ifs at hi with hm hlen
  · exact hw m i hi
  · cases hi
    have heq : m = w.invocations.length := by omega
    rw [heq]

lemma walk_called (s : Callbacks κ) (clock : ℕ → BitVec 64) (held : ℕ → Registers)
    (result : ℕ → Bool) : ∀ inv ∈ (s.walk clock held result).2.invocations,
      ∃ t ∈ s.timers.timers, t.callbackFunc = some inv.callback ∧ t.arg = inv.arg := by
  refine executeTimers_keeps (I := fun w : Calls κ => ∀ inv ∈ w.invocations,
    ∃ t ∈ s.timers.timers, t.callbackFunc = some inv.callback ∧ t.arg = inv.arg)
    (calling clock held result) s.timers.timers (fun _ hw => hw) ?_ (by simp)
  intro t ht cb hcb w hw inv hinv
  rcases mem_append.1 hinv with hinv | hinv
  · exact hw inv hinv
  · rw [mem_singleton.1 hinv]
    exact ⟨t, ht, hcb, rfl⟩

structure Recorded (s : Callbacks κ) : Prop where
  timers : ∀ t ∈ s.timers.timers, ∃ cb, t.callbackFunc = some cb ∧ (cb, t.arg) ∈ s.registered
  invocations : ∀ inv ∈ s.invocations,
    (inv.callback, inv.arg) ∈ s.registered ∧ inv.scheduler = inv.arg

variable {s s' : Callbacks κ} {e : CallbackEvent κ}

lemma recorded_step (h : Recorded s) (hs : callbackStep s e = some s') : Recorded s' := by
  cases e with
  | setTimeout now timeoutMs callback arg =>
    cases hs
    constructor
    · intro t ht
      rcases mem_append.1 ht with ht | ht
      · obtain ⟨cb, hcb, hreg⟩ := h.timers t ht
        exact ⟨cb, hcb, mem_append_left _ hreg⟩
      · rw [mem_singleton.1 ht]
        exact ⟨callback, rfl, by simp⟩
    · intro inv hinv
      obtain ⟨hreg, hfirst⟩ := h.invocations inv hinv
      exact ⟨mem_append_left _ hreg, hfirst⟩
  | unsetTimeout timeoutId =>
    cases hs
    exact ⟨fun t ht => h.timers t (mem_of_mem_filter ht), h.invocations⟩
  | tick clock held result =>
    cases hs
    constructor
    · intro t ht
      have hsub := executeTimers_sublist (calling clock held result)
        (f := fun t => (t.callbackFunc, t.arg)) (fun _ _ => rfl) s.timers.timers ⟨0, []⟩
      obtain ⟨t0, ht0, heq⟩ := mem_map.1 (hsub.subset (mem_map_of_mem ht))
      obtain ⟨hcb0, harg0⟩ := Prod.mk.inj heq
      obtain ⟨cb, hcb, hreg⟩ := h.timers t0 ht0
      exact ⟨cb, hcb0 ▸ hcb, harg0 ▸ hreg⟩
    · intro inv hinv
      rcases mem_append.1 hinv with hinv | hinv
      · exact h.invocations inv hinv
      obtain ⟨n, hn⟩ := getElem?_of_mem hinv
      obtain ⟨t, ht, htcb, htarg⟩ := walk_called s clock held result inv hinv
      obtain ⟨cb, hcb, hreg⟩ := h.timers t ht
      obtain rfl := Option.some.inj (hcb.symm.trans htcb)
      refine ⟨htarg ▸ hreg, ?_⟩
      rw [Invocation.scheduler, walk_registers s clock held result hn]
      simp [callSite]

lemma walk_passed (s : Callbacks κ) (clock : ℕ → BitVec 64) (held : ℕ → Registers)
    (result : ℕ → Bool) :
    (∀ inv ∈ (s.walk clock held result).2.invocations, Passed inv) ↔
      SecondHeld s (.tick clock held result) := by
  have hsecond (n : ℕ) (inv : Invocation κ)
      (hn : (s.walk clock held result).2.invocations[n]? = some inv) :
      inv.secondParameter = held n 1 := by
    rw [Invocation.secondParameter, walk_registers s clock held result hn]
    simp [callSite]
  constructor
  · intro h n inv hn
    rw [← hsecond n inv hn]
    exact h inv (mem_of_getElem? hn)
  · intro h inv hinv
    obtain ⟨n, hn⟩ := getElem?_of_mem hinv
    exact (hsecond n inv hn).trans (h n inv hn)

lemma passed_step (h : ∀ inv ∈ s.invocations, Passed inv) (hs : callbackStep s e = some s') :
    (SecondHeld s e → ∀ inv ∈ s'.invocations, Passed inv) ∧
      ((∀ inv ∈ s'.invocations, Passed inv) → SecondHeld s e) := by
  cases e with
  | setTimeout now timeoutMs callback arg =>
    cases hs
    exact ⟨fun _ => h, fun _ => trivial⟩
  | unsetTimeout timeoutId =>
    cases hs
    exact ⟨fun _ => h, fun _ => trivial⟩
  | tick clock held result =>
    cases hs
    have hwalk := walk_passed s clock held result
    constructor
    · intro hg inv hinv
      rcases mem_append.1 hinv with hinv | hinv
      · exact h inv hinv
      · exact hwalk.2 hg inv hinv
    · intro hall
      exact hwalk.1 fun inv hinv => hall inv (mem_append_right _ hinv)

/-- In every run the callbacks get their argument as their second parameter exactly if
the second register holds it before each call. They are called with the argument they
were registered with, and get it as their first parameter. -/
theorem second_parameter_iff (events : List (CallbackEvent κ)) :
    (Always callbackStep (fun s => ∀ inv ∈ s.invocations, inv.secondParameter = inv.arg)
        Callbacks.init events ↔ Meets callbackStep SecondHeld Callbacks.init events) ∧
      Always callbackStep (fun s => ∀ inv ∈ s.invocations,
        (inv.callback, inv.arg) ∈ s.registered ∧ inv.scheduler = inv.arg)
        Callbacks.init events := by
  obtain ⟨u, hrun⟩ : ∃ u, exec callbackStep (Callbacks.init : Callbacks κ) events = some u := by
    refine exec_of_meets (I := fun _ => True) (G := fun _ _ => True) ?_ trivial
      fun _ _ _ _ _ => trivial
    intro s e _ _
    obtain ⟨s', hs'⟩ : ∃ s', callbackStep s e = some s' := by cases e <;> exact ⟨_, rfl⟩
    exact ⟨s', hs', trivial⟩
  constructor
  · exact always_iff_meets (I := fun s => ∀ inv ∈ s.invocations, Passed inv) (fun _ h => h)
      (fun _ _ _ h hs => passed_step h hs) (by simp [Callbacks.init]) hrun
  · exact (always_of_step (fun _ _ _ h hs => recorded_step h hs)
      ⟨by simp [Callbacks.init, Timers.init], by simp [Callbacks.init]⟩ events).mono
      fun _ h => h.invocations

def oneTimeout : List (CallbackEvent Unit) :=
  [.setTimeout 0 1 () 7, .tick (fun _ => 1) (fun _ _ => 0) fun _ => false]

/-- The callback that was registered with seven gets zero as its second parameter. -/
theorem second_parameter_lost :
    ∃ s : Callbacks Unit, exec callbackStep Callbacks.init oneTimeout = some s ∧
      s.invocations.map (fun inv => (inv.arg, inv.scheduler, inv.secondParameter)) =
        [(7, 7, 0)] := ⟨_, rfl, by decide⟩

end GzOS.SystemTimer
