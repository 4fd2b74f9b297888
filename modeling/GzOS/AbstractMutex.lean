import GzOS.Runs
import Mathlib.Logic.Function.Basic
import Mathlib.Tactic.Basic

/-!
# The kernel mutex and its two subclasses

`AbstractMutex::lock` retries a weak compare-exchange that writes the value it expects
back when it fails, so that value is part of the state of a thread. Each
compare-exchange, store, `onLockFailed` and `onUnlock` is one atomic step.
-/
namespace GzOS.AbstractMutex
open Runs

inductive MutexState
  | unlocked
  | locked
  deriving DecidableEq, Repr

inductive Subclass
  | spinlock
  | suspendable
  deriving DecidableEq, Repr

structure Exchange where
  success : Bool
  stored : MutexState
  expected : MutexState
  deriving DecidableEq, Repr

/-- Every failure, the spurious one too, sets the expected value to the stored one. -/
def compareExchangeWeak (stored expected desired : MutexState) (spurious : Bool) : Exchange :=
  if stored = expected ∧ spurious = false then ⟨true, desired, expected⟩
  else ⟨false, stored, stored⟩

/-- `oldValue` is the local variable of `lock`. -/
inductive Control
  | outside
  | exchange (oldValue : MutexState)
  | lockFailed (oldValue : MutexState)
  | waiting (oldValue : MutexState)
  | critical
  | stored
  deriving DecidableEq, Repr

/-- The mutex word, the threads by tid and `m_waitingPids`. -/
structure State where
  mutex : MutexState
  control : ℕ → Control
  waitingPids : List ℕ

def initial : State := ⟨.unlocked, fun _ => .outside, []⟩

def State.setControl (s : State) (tid : ℕ) (c : Control) : State :=
  { s with control := Function.update s.control tid c }

@[simp] lemma setControl_self (s : State) (tid : ℕ) (c : Control) :
    (s.setControl tid c).control tid = c := by simp [State.setControl]

variable {tid : ℕ} {k : Subclass}

lemma setControl_of_ne (s : State) (c : Control) {u : ℕ} (h : u ≠ tid) :
    (s.setControl tid c).control u = s.control u := by
  simp [State.setControl, Function.update_of_ne h]

/-- One step: enqueue the own tid unless it is there, then stop. -/
def State.wait (s : State) (tid : ℕ) (oldValue : MutexState) : State :=
  { s.setControl tid (.waiting oldValue) with
    waitingPids := if tid ∈ s.waitingPids then s.waitingPids else s.waitingPids ++ [tid] }

/-- One step. A thread that is not suspended ignores the signal. -/
def State.notifyOne (s : State) : State :=
  match s.waitingPids.getLast? with
  | none => s
  | some pid =>
    let s' := { s with waitingPids := s.waitingPids.dropLast }
    match s.control pid with
    | .waiting oldValue => s'.setControl pid (.exchange oldValue)
    | _ => s'

inductive Action
  | lock (tid : ℕ)
  | compareExchange (tid : ℕ) (spurious : Bool)
  | onLockFailed (tid : ℕ)
  | store (tid : ℕ)
  | onUnlock (tid : ℕ)
  deriving DecidableEq, Repr

def onLockFailed (k : Subclass) (s : State) (tid : ℕ) (oldValue : MutexState) : State :=
  match k with
  | .spinlock => s.setControl tid (.exchange oldValue)
  | .suspendable => s.wait tid oldValue

def onUnlock (k : Subclass) (s : State) (tid : ℕ) : State :=
  match k with
  | .spinlock => s.setControl tid .outside
  | .suspendable => (s.setControl tid .outside).notifyOne

/-- A thread that is not at the named point is stuck. -/
def step (k : Subclass) (s : State) : Action → Option State
  | .lock tid =>
    match s.control tid with
    | .outside => some (s.setControl tid (.exchange .unlocked))
    | _ => none
  | .compareExchange tid spurious =>
    match s.control tid with
    | .exchange oldValue =>
      let r := compareExchangeWeak s.mutex oldValue .locked spurious
      some { s.setControl tid (if r.success then .critical else .lockFailed r.expected) with
        mutex := r.stored }
    | _ => none
  | .onLockFailed tid =>
    match s.control tid with
    | .lockFailed oldValue => some (onLockFailed k s tid oldValue)
    | _ => none
  | .store tid =>
    match s.control tid with
    | .critical => some { s.setControl tid .stored with mutex := .unlocked }
    | _ => none
  | .onUnlock tid =>
    match s.control tid with
    | .stored => some (onUnlock k s tid)
    | _ => none

/-- At most one thread is in its critical section. -/
def MutualExclusion (s : State) : Prop :=
  ∀ t u, s.control t = .critical → s.control u = .critical → t = u

/-- No compare-exchange expects `locked`, finds `locked` and is not failed spuriously. -/
def NoStaleExchange (s : State) (a : Action) : Prop :=
  ∀ tid, a = .compareExchange tid false → s.control tid = .exchange .locked → s.mutex = .unlocked

structure Owned (s : State) : Prop where
  exclusive : MutualExclusion s
  word : s.mutex = .locked ↔ ∃ t, s.control t = .critical

lemma owned_initial : Owned initial where
  exclusive := by simp [MutualExclusion, initial]
  word := by simp [initial]

variable {s : State}

lemma Owned.frame {t : State} (h : Owned s) (hm : t.mutex = s.mutex)
    (hc : ∀ u, t.control u = .critical ↔ s.control u = .critical) : Owned t where
  exclusive := fun a b ha hb => h.exclusive a b ((hc a).1 ha) ((hc b).1 hb)
  word := by rw [hm, h.word]; simp only [hc]

lemma setControl_critical {c : Control} (hs : s.control tid ≠ .critical) (hc : c ≠ .critical)
    (u : ℕ) : (s.setControl tid c).control u = .critical ↔ s.control u = .critical := by
  by_cases hu : u = tid
  · subst hu; simp [hs, hc]
  · rw [setControl_of_ne _ _ hu]

lemma notifyOne_mutex (s : State) : s.notifyOne.mutex = s.mutex := by
  unfold State.notifyOne
  split
  · rfl
  · split <;> rfl

lemma notifyOne_critical (s : State) (u : ℕ) :
    s.notifyOne.control u = .critical ↔ s.control u = .critical := by
  unfold State.notifyOne
  split
  · rfl
  next pid _ =>
  split
  · next old hp => exact setControl_critical (by simp [hp]) (by simp) u
  · rfl

lemma owned_onLockFailed {old : MutexState} (h : Owned s) (hc : s.control tid = .lockFailed old) :
    Owned (onLockFailed k s tid old) := by
  cases k with
  | spinlock => exact h.frame rfl (setControl_critical (by simp [hc]) (by simp))
  | suspendable => exact h.frame rfl (setControl_critical (by simp [hc]) (by simp))

lemma owned_onUnlock (h : Owned s) (hc : s.control tid = .stored) : Owned (onUnlock k s tid) := by
  have hout := setControl_critical (c := .outside) (show s.control tid ≠ .critical by simp [hc])
    (by simp)
  cases k with
  | spinlock => exact h.frame rfl hout
  | suspendable =>
    refine h.frame (notifyOne_mutex _) fun u => ?_
    simp only [onUnlock, notifyOne_critical, hout]

lemma owned_store (h : Owned s) (hc : s.control tid = .critical) :
    Owned { s.setControl tid .stored with mutex := .unlocked } := by
  have hnone : ∀ u, (s.setControl tid .stored).control u ≠ .critical := by
    intro u hu
    by_cases he : u = tid
    · subst he; simp at hu
    · rw [setControl_of_ne _ _ he] at hu
      exact he (h.exclusive u tid hu hc)
  exact ⟨fun a _ ha => absurd ha (hnone a), by simp [hnone]⟩

lemma owned_enter (tid : ℕ) (h : Owned s) (hm : s.mutex = .unlocked) :
    Owned { s.setControl tid .critical with mutex := .locked } := by
  have hfree : ∀ u, s.control u ≠ .critical := by
    intro u hu
    have := h.word.2 ⟨u, hu⟩
    simp [hm] at this
  have honly : ∀ u, (s.setControl tid .critical).control u = .critical → u = tid := by
    intro u hu
    by_contra hne
    rw [setControl_of_ne _ _ hne] at hu
    exact hfree u hu
  refine ⟨fun a b ha hb => (honly a ha).trans (honly b hb).symm, ?_⟩
  simp only [true_iff]
  exact ⟨tid, by simp⟩

lemma owned_compareExchange {old : MutexState} {spurious : Bool} (h : Owned s)
    (hc : s.control tid = .exchange old) (hg : NoStaleExchange s (.compareExchange tid spurious)) :
    Owned { s.setControl tid
        (if (compareExchangeWeak s.mutex old .locked spurious).success then .critical
          else .lockFailed (compareExchangeWeak s.mutex old .locked spurious).expected) with
      mutex := (compareExchangeWeak s.mutex old .locked spurious).stored } := by
  by_cases hs : s.mutex = old ∧ spurious = false
  · have hm : s.mutex = .unlocked := by
      cases old with
      | unlocked => exact hs.1
      | locked => exact hg tid (by rw [hs.2]) hc
    simpa [compareExchangeWeak, hs] using owned_enter tid h hm
  · simp only [compareExchangeWeak, if_neg hs]
    exact h.frame rfl (setControl_critical (by simp [hc]) (by simp))

lemma owned_step (s : State) (a : Action) (t : State) (h : Owned s) (hg : NoStaleExchange s a)
    (ht : step k s a = some t) : Owned t := by
  cases a with
  | lock tid =>
    simp only [step] at ht
    split at ht
    · next hc =>
      cases ht
      exact h.frame rfl (setControl_critical (by simp [hc]) (by simp))
    · cases ht
  | compareExchange tid spurious =>
    simp only [step] at ht
    split at ht
    · next old hc =>
      cases ht
      exact owned_compareExchange h hc hg
    · cases ht
  | onLockFailed tid =>
    simp only [step] at ht
    split at ht
    · next old hc => exact Option.some.inj ht ▸ owned_onLockFailed h hc
    · cases ht
  | store tid =>
    simp only [step] at ht
    split at ht
    · next hc => exact Option.some.inj ht ▸ owned_store h hc
    · cases ht
  | onUnlock tid =>
    simp only [step] at ht
    split at ht
    · next hc => exact Option.some.inj ht ▸ owned_onUnlock h hc
    · cases ht

lemma stale_breaks_exclusion (h : Owned s) (hc : s.control tid = .exchange .locked)
    (hm : s.mutex = .locked) :
    ∃ t, step k s (.compareExchange tid false) = some t ∧ ¬ MutualExclusion t := by
  obtain ⟨u, hu⟩ := h.word.1 hm
  have hne : u ≠ tid := by
    rintro rfl
    simp [hc] at hu
  refine ⟨_, by simp only [step, hc, hm, compareExchangeWeak]; rfl, fun hex => hne ?_⟩
  refine hex u tid ?_ ?_
  · simpa [setControl_of_ne _ _ hne] using hu
  · simp

lemma meets_of_exclusion {as : List Action} (h : Owned s)
    (hex : Always (step k) MutualExclusion s as) : Meets (step k) NoStaleExchange s as := by
  induction as generalizing s with
  | nil => exact meets_nil _ _ _
  | cons a as ih =>
    obtain ⟨_, hrest⟩ := always_cons.1 hex
    have hg : NoStaleExchange s a := by
      rintro tid rfl hc
      cases hm : s.mutex with
      | unlocked => rfl
      | locked =>
        obtain ⟨t, ht, hbad⟩ := stale_breaks_exclusion h hc hm
        exact absurd (hrest t ht).head hbad
    exact meets_cons.2 ⟨hg, fun t ht => ih (owned_step s a t h hg ht) (hrest t ht)⟩

/-- A run of either mutex keeps mutual exclusion in every state it visits
exactly when none of its compare-exchanges expects `locked` and meets a locked
word. -/
theorem mutualExclusion_iff_noStaleExchange (k : Subclass) (as : List Action) :
    Always (step k) MutualExclusion initial as ↔ Meets (step k) NoStaleExchange initial as := by
  constructor
  · exact meets_of_exclusion owned_initial
  · intro h
    exact (always_of_meets owned_step owned_initial h).mono fun _ ht => ht.exclusive

/-- Thread 1 fails once while thread 0 holds the mutex, which leaves `locked` in
its local expected value; its retry then succeeds against the locked word. With
the suspendable mutex the retry comes after the notification of `unlock`. -/
theorem mutualExclusion_violated :
    ¬ Always (step .spinlock) MutualExclusion initial
        [.lock 0, .compareExchange 0 false, .lock 1, .compareExchange 1 false,
          .onLockFailed 1, .compareExchange 1 false] ∧
      ¬ Always (step .suspendable) MutualExclusion initial
        [.lock 0, .compareExchange 0 false, .lock 1, .compareExchange 1 false,
          .onLockFailed 1, .store 0, .onUnlock 0, .lock 0, .compareExchange 0 false,
          .compareExchange 1 false] := by
  constructor
  · intro h
    exact absurd (h.last rfl 0 1 rfl rfl) (by decide)
  · intro h
    exact absurd (h.last rfl 0 1 rfl rfl) (by decide)

end GzOS.AbstractMutex
