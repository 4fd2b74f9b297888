import GzOS.SchedulerInvariant

/-!
# Waiting and notifying on a `Suspendable`

`Suspendable::wait` puts its own tid into `m_waitingPids` and then sends itself a
SIG_STOP; `notifyOne` and `notifyAll` take tids out and then send a SIG_CONT to each.
Each critical section and each signal is one atomic step. A SIG_CONT that comes between
the two steps of `wait` is lost.
-/
namespace GzOS.Suspendable
open Runs Scheduling List Option

/-- `Scheduler::suspend` on the state of its thread. -/
def stopState : ThreadState → ThreadState
  | .ready | .running => .suspended
  | .suspended => .suspended
  | .terminated => .terminated

/-- `Scheduler::resume` on the state of its thread. -/
def contState : ThreadState → ThreadState
  | .suspended => .ready
  | st => st

variable {t tid : ℕ}

theorem suspendOnly_stopState {s s' : Scheduling.State} (h : suspendOnly s t = .ok s') (u : ℕ) :
    s'.state u = if u = t then stopState (s.state t) else s.state u := by
  by_cases hut : u = t
  · subst hut
    rcases suspendOnly_ok h with ⟨hst | hst, rfl⟩ | ⟨hst | hst, i, _, _, rfl⟩ <;>
      simp [stopState, hst]
  · rw [if_neg hut, suspendOnly_state_of_ne h hut]

theorem resume_contState {s s' : Scheduling.State} (h : resume s t = .ok s') (u : ℕ) :
    s'.state u = if u = t then contState (s.state t) else s.state u := by
  rcases resume_ok h with ⟨hst, rfl⟩ | ⟨hst, d, i, _, _, _, rfl⟩
  · split_ifs with hut
    · subst hut
      cases hs : s'.state u <;> simp_all [contState]
    · rfl
  · simp [(nudged_resumed s t d i).state, hst, contState]

/-- `stopping` is between the two steps of `wait`, `waiting` inside its SIG_STOP;
`signalling` holds the tids not signalled yet. -/
inductive Control
  | outside
  | stopping
  | waiting
  | signalling (pids : List ℕ)
  deriving DecidableEq, Repr

structure State where
  waitingPids : List ℕ
  control : ℕ → Control
  threads : ℕ → ThreadState

def initial : State := ⟨[], fun _ => .outside, fun _ => .ready⟩

def State.setControl (s : State) (tid : ℕ) (c : Control) : State :=
  { s with control := Function.update s.control tid c }

def State.setThread (s : State) (tid : ℕ) (st : ThreadState) : State :=
  { s with threads := Function.update s.threads tid st }

@[simp] lemma control_setControl (s : State) (tid u : ℕ) (c : Control) :
    (s.setControl tid c).control u = if u = tid then c else s.control u := by
  by_cases h : u = tid
  · subst h; simp [State.setControl]
  · simp [State.setControl, h]

@[simp] lemma threads_setControl (s : State) (tid : ℕ) (c : Control) :
    (s.setControl tid c).threads = s.threads := rfl

@[simp] lemma threads_setThread (s : State) (tid u : ℕ) (st : ThreadState) :
    (s.setThread tid st).threads u = if u = tid then st else s.threads u := by
  by_cases h : u = tid
  · subst h; simp [State.setThread]
  · simp [State.setThread, h]

@[simp] lemma control_setThread (s : State) (tid : ℕ) (st : ThreadState) :
    (s.setThread tid st).control = s.control := rfl

inductive Action
  | enqueue (tid : ℕ)
  | stop (tid : ℕ)
  | waitReturns (tid : ℕ)
  | notifyOne (tid : ℕ)
  | notifyAll (tid : ℕ)
  | cont (tid : ℕ)
  deriving DecidableEq, Repr

def notifying : List ℕ → Control
  | [] => .outside
  | pids => .signalling pids

/-- A thread not at the named point is stuck; `wait` does not return while suspended. -/
def step (s : State) : Action → Option State
  | .enqueue tid =>
    match s.control tid with
    | .outside =>
      some { s.setControl tid .stopping with
        waitingPids := if tid ∈ s.waitingPids then s.waitingPids else s.waitingPids ++ [tid] }
    | _ => none
  | .stop tid =>
    match s.control tid with
    | .stopping => some ((s.setThread tid (stopState (s.threads tid))).setControl tid .waiting)
    | _ => none
  | .waitReturns tid =>
    match s.control tid with
    | .waiting => if s.threads tid = .suspended then none else some (s.setControl tid .outside)
    | _ => none
  | .notifyOne tid =>
    match s.control tid with
    | .outside =>
      match s.waitingPids.getLast? with
      | none => some s
      | some pid =>
        some { s.setControl tid (.signalling [pid]) with
          waitingPids := s.waitingPids.dropLast }
    | _ => none
  | .notifyAll tid =>
    match s.control tid with
    | .outside =>
      some { s.setControl tid (notifying s.waitingPids) with waitingPids := [] }
    | _ => none
  | .cont tid =>
    match s.control tid with
    | .signalling (pid :: pids) =>
      some ((s.setThread pid (contState (s.threads pid))).setControl tid (notifying pids))
    | _ => none

def Pending (s : State) (t : ℕ) : Prop := ∃ u pids, s.control u = .signalling pids ∧ t ∈ pids

/-- A thread suspended by its `wait` is still known to a notifier. -/
def NoLostWakeup (s : State) : Prop :=
  ∀ t, s.control t = .waiting → s.threads t = .suspended → t ∈ s.waitingPids ∨ Pending s t

/-- No SIG_CONT goes to a thread between the two steps of its `wait`. -/
def NoEarlyCont (s : State) (a : Action) : Prop :=
  ∀ tid pid pids, a = .cont tid → s.control tid = .signalling (pid :: pids) →
    s.control pid ≠ .stopping

def Known (s : State) : Prop :=
  ∀ t, (s.control t = .stopping ∨ (s.control t = .waiting ∧ s.threads t = .suspended)) →
    t ∈ s.waitingPids ∨ Pending s t

lemma mem_notifying {pids : List ℕ} (ht : t ∈ pids) : notifying pids = .signalling pids := by
  cases pids with
  | nil => cases ht
  | cons p ps => rfl

variable {s : State}

lemma Pending.setControl {c : Control} (h : Pending s t)
    (hc : ∀ pids, s.control tid ≠ .signalling pids) : Pending (s.setControl tid c) t := by
  obtain ⟨u, pids, hu, ht⟩ := h
  have hne : u ≠ tid := by
    rintro rfl
    exact hc pids hu
  exact ⟨u, pids, by simp [hne, hu], ht⟩

lemma known_enqueue (h : Known s) (hc : s.control tid = .outside) :
    Known { s.setControl tid .stopping with
      waitingPids := if tid ∈ s.waitingPids then s.waitingPids else s.waitingPids ++ [tid] } := by
  intro t ht
  by_cases htt : t = tid
  · subst htt
    refine .inl ?_
    split_ifs with hmem
    · exact hmem
    · simp
  · have hold := h t (by simpa [htt] using ht)
    rcases hold with hw | hp
    · refine .inl ?_
      split_ifs
      · exact hw
      · exact mem_append_left _ hw
    · exact .inr (hp.setControl (by simp [hc]))

lemma known_stop (h : Known s) (hc : s.control tid = .stopping) :
    Known ((s.setThread tid (stopState (s.threads tid))).setControl tid .waiting) := by
  intro t ht
  have hold : t ∈ s.waitingPids ∨ Pending s t := by
    by_cases htt : t = tid
    · exact h t (.inl (htt ▸ hc))
    · exact h t (by simpa [htt] using ht)
  refine hold.imp id fun hp => ?_
  exact Pending.setControl (s := s.setThread tid (stopState (s.threads tid))) hp (by simp [hc])

lemma known_waitReturns (h : Known s) (hc : s.control tid = .waiting) :
    Known (s.setControl tid .outside) := by
  intro t ht
  have htt : t ≠ tid := by
    rintro rfl
    simp at ht
  exact (h t (by simpa [htt] using ht)).imp id fun hp => hp.setControl (by simp [hc])

lemma known_take {pids rest : List ℕ} (h : Known s) (hc : s.control tid = .outside)
    (hsplit : ∀ t ∈ s.waitingPids, t ∈ rest ∨ t ∈ pids) :
    Known { s.setControl tid (notifying pids) with waitingPids := rest } := by
  intro t ht
  have htt : t ≠ tid := by
    rintro rfl
    cases pids <;> simp [notifying] at ht
  rcases h t (by simpa [htt] using ht) with hw | hp
  · rcases hsplit t hw with hr | hp
    · exact .inl hr
    · exact .inr ⟨tid, pids, by simp [mem_notifying hp], hp⟩
  · exact .inr (hp.setControl (by simp [hc]))

lemma known_cont {pid : ℕ} {pids : List ℕ} (h : Known s)
    (hc : s.control tid = .signalling (pid :: pids)) (hpid : s.control pid ≠ .stopping) :
    Known ((s.setThread pid (contState (s.threads pid))).setControl tid (notifying pids)) := by
  intro t ht
  have htt : t ≠ tid := by
    rintro rfl
    cases pids <;> simp [notifying] at ht
  have htp : t ≠ pid := by
    rintro rfl
    simp only [control_setControl, if_neg htt, control_setThread, hpid] at ht
    cases hst : s.threads t <;> simp [hst, contState] at ht
  rcases h t (by simpa [htt, htp] using ht) with hw | ⟨u, us, hu, hmem⟩
  · exact .inl hw
  refine .inr ?_
  by_cases hut : u = tid
  · subst hut
    obtain rfl : pid :: pids = us := by simpa [hc] using hu
    have hin : t ∈ pids := (mem_cons.1 hmem).resolve_left htp
    exact ⟨u, pids, by simp [mem_notifying hin], hin⟩
  · exact ⟨u, us, by simp [hut, hu], hmem⟩

lemma known_step {s' : State} {a : Action} (h : Known s) (hg : NoEarlyCont s a)
    (hs : step s a = some s') : Known s' := by
  cases a with
  | enqueue tid =>
    simp only [step] at hs
    split at hs
    · next hc => exact some.inj hs ▸ known_enqueue h hc
    · cases hs
  | stop tid =>
    simp only [step] at hs
    split at hs
    · next hc => exact some.inj hs ▸ known_stop h hc
    · cases hs
  | waitReturns tid =>
    simp only [step] at hs
    split at hs
    · next hc =>
      split_ifs at hs
      exact some.inj hs ▸ known_waitReturns h hc
    · cases hs
  | notifyOne tid =>
    simp only [step] at hs
    split at hs
    · next hc =>
      split at hs
      · exact some.inj hs ▸ h
      next pid hlast =>
      have hsplit : ∀ t ∈ s.waitingPids, t ∈ s.waitingPids.dropLast ∨ t ∈ [pid] := by
        intro t ht
        rw [← dropLast_append_getLast? pid hlast] at ht
        exact mem_append.1 ht
      exact some.inj hs ▸ known_take h hc hsplit
    · cases hs
  | notifyAll tid =>
    simp only [step] at hs
    split at hs
    · next hc => exact some.inj hs ▸ known_take h hc fun t ht => .inr ht
    · cases hs
  | cont tid =>
    simp only [step] at hs
    split at hs
    · next pid pids hc => exact some.inj hs ▸ known_cont h hc (hg tid pid pids rfl hc)
    · cases hs

/-- Without an early SIG_CONT no wakeup is lost. -/
theorem no_lost_wakeup (as : List Action) (h : Meets step NoEarlyCont initial as) :
    Always step NoLostWakeup initial as := by
  have hinit : Known initial := by
    intro t ht
    simp [initial] at ht
  exact (always_of_meets (fun _ _ _ hk hg hs => known_step hk hg hs) hinit h).mono
    fun s hk t hc hst => hk t (.inr ⟨hc, hst⟩)

theorem no_lost_wakeup_notified :
    Always step NoLostWakeup initial
      [.enqueue 0, .stop 0, .notifyOne 1, .cont 1, .waitReturns 0] := by
  refine no_lost_wakeup _ ?_
  simp only [meets_cons]
  refine ⟨by simp [NoEarlyCont], fun s1 h1 => ⟨by simp [NoEarlyCont], fun s2 h2 =>
    ⟨by simp [NoEarlyCont], fun s3 h3 => ⟨?_, fun s4 _ => ⟨by simp [NoEarlyCont], fun _ _ =>
      meets_nil _ _ _⟩⟩⟩⟩⟩
  cases h1
  cases h2
  cases h3
  rintro tid pid pids he hc
  obtain rfl := Action.cont.inj he
  have hlist : [0] = pid :: pids := Control.signalling.inj hc
  obtain ⟨rfl, _⟩ := cons.inj hlist
  decide

/-- The notifier takes the tid out and signals it before its thread has stopped
itself; the thread then sleeps and nobody knows it. -/
theorem wakeup_lost :
    ∃ s, exec step initial [.enqueue 0, .notifyOne 1, .cont 1, .stop 0] = some s ∧
      ¬ NoLostWakeup s := by
  refine ⟨_, rfl, fun h => ?_⟩
  rcases h 0 rfl rfl with hw | ⟨u, pids, hu, _⟩
  · cases hw
  by_cases h0 : u = 0
  · subst h0; cases hu
  · by_cases h1 : u = 1
    · subst h1; cases hu
    · simp [h0, h1, initial] at hu

end GzOS.Suspendable
