import GzOS.Rotation
import GzOS.RunLevels

/-!
# Quanta and the order of dispatch

Every operation of the scheduler is a short log of what it does to the queues. Replayed,
the log gives the queues and the remaining quantum of the current thread, so that the
bounds on rotations in general hold for the threads.
-/
namespace GzOS.Scheduling
open Runs State List Option Except

/-- Items are threads, queues are run levels. -/
abbrev LogEntry := Rotation.Event ℕ ℕ

def pushLog (s : State) (i t : ℕ) : List LogEntry := if s.full i then [] else [.append i t]

def chooseFromLog (s : State) : List ℕ → List LogEntry
  | [] => []
  | i :: is =>
    match s.queues i with
    | [] => chooseFromLog s is
    | t :: _ => [.take i t]

def chooseLog (s : State) : List LogEntry := chooseFromLog s (range runLevels)

/-- It is put back on level `l`, and the next one chosen. -/
def requeueLog (s : State) (t : ℕ) (l : ℤ) : List LogEntry :=
  match runLevelIndex l with
  | .ok i => pushLog s i t ++ chooseLog (s.push i t)
  | .error _ => []

def evaluateAndChooseLog (s : State) (t : ℕ) : List LogEntry :=
  match s.data t with
  | none => []
  | some d =>
    if d.yieldRequested then requeueLog s t d.runLevel
    else if 0 ≥ d.quantum - 1 then requeueLog s t (bumpedLevel d)
    else [.keep t]

def scheduleLog (s : State) : List LogEntry :=
  match s.currentThread with
  | none => chooseLog s
  | some c =>
    if s.state c = .terminated ∨ s.state c = .suspended then chooseLog s
    else evaluateAndChooseLog s c

def removeLog (s : State) (t : ℕ) : List LogEntry :=
  match s.level t with
  | none => []
  | some l =>
    match runLevelIndex l with
    | .ok i => [.drop i t]
    | .error _ => []

def suspendOnlyLog (s : State) (t : ℕ) : List LogEntry :=
  match s.state t with
  | .ready | .running => removeLog s t
  | .suspended | .terminated => []

def suspendLog (s : State) (t : ℕ) : List LogEntry :=
  suspendOnlyLog s t ++
    if (s.state t = .ready ∨ s.state t = .running) ∧ s.currentThread = some t then
      match suspendOnly s t with
      | .ok s₁ => scheduleLog s₁
      | .error _ => []
    else []

def suspendAllLog (s : State) : List ℕ → List LogEntry
  | [] => []
  | t :: ts =>
    suspendOnlyLog s t ++ match suspendOnly s t with
      | .ok s₁ => suspendAllLog s₁ ts
      | .error _ => []

def suspendProcessLog (s : State) (ts : List ℕ) : List LogEntry :=
  suspendAllLog s ts ++ match s.currentThread with
    | some c =>
      if c ∈ ts then
        match ts.foldlM suspendOnly s with
        | .ok s₁ => scheduleLog s₁
        | .error _ => []
      else []
    | none => []

def resumeLog (s : State) (t : ℕ) : List LogEntry :=
  if s.state t ≠ .suspended then []
  else
    match s.data t with
    | none => []
    | some d =>
      match runLevelIndex (resumedLevel d) with
      | .ok i => pushLog s i t
      | .error _ => []

def stepLog (s : State) : Op → List LogEntry
  | .addThread => pushLog s 0 s.nextThread
  | .removeThread t => removeLog s t
  | .schedule => scheduleLog s
  | .yield _ => []
  | .suspend t => suspendLog s t
  | .suspendProcess ts => suspendProcessLog s ts
  | .resume t => resumeLog s t
  | .kill _ => []

def log (s : State) : List Op → List LogEntry
  | [] => []
  | op :: ops =>
    stepLog s op ++ match next s op with
      | none => []
      | some s' => log s' ops

/-! The log of each operation that returns. -/

variable {s s' u s₀ : State} {i t : ℕ} {ts rest : List ℕ} {d : PolicyData} {op : Op}

lemma chooseFromLog_append {pre post : List ℕ} (hpre : ∀ j ∈ pre, s.queues j = [])
    (hi : s.queues i = t :: rest) : chooseFromLog s (pre ++ i :: post) = [.take i t] := by
  induction pre with
  | nil => simp [chooseFromLog, hi]
  | cons j pre ih =>
    have hj := hpre j (by simp)
    simp only [cons_append, chooseFromLog, hj]
    exact ih fun k hk => hpre k (mem_cons_of_mem j hk)

lemma chooseLog_popped (h : Popped s t i rest) : chooseLog s = [.take i t] := by
  have hi := h.level
  have hsplit : range runLevels = range i ++ i :: (range (runLevels - i - 1)).map (i + 1 + ·) := by
    have hlen : runLevels = i + 1 + (runLevels - i - 1) := by omega
    conv_lhs => rw [hlen, range_add, range_succ]
    simp
  unfold chooseLog
  rw [hsplit]
  exact chooseFromLog_append (fun j hj => h.above j (mem_range.1 hj)) h.head

lemma chooseLog_congr (h : s'.queues = s.queues) : chooseLog s' = chooseLog s := by
  have hfrom (is : List ℕ) : chooseFromLog s' is = chooseFromLog s is := by
    induction is with
    | nil => rfl
    | cons i is ih => simp only [chooseFromLog, h, ih]
  exact hfrom _

lemma queues_push (s : State) (i t : ℕ) : (s.push i t).queues =
      if s.full i then s.queues else Function.update s.queues i (s.queues i ++ [t]) := by
  unfold push
  split_ifs <;> rfl

lemma requeue_queues (s : State) (t : ℕ) (d : PolicyData) (i : ℕ) :
    (s.requeue t d i).queues = (s.push i t).queues := by
  unfold requeue
  rw [queues_push, queues_push]
  rfl

variable {l : ℤ} {c : ℕ} {s1 : State} {r : Rotation.Table ℕ ℕ}

lemma requeueLog_eq (hl : l = i) (hi : i < runLevels) (d : PolicyData) :
    requeueLog s t l = pushLog s i t ++ chooseLog (s.requeue t d i) := by
  have hok : runLevelIndex l = .ok i := runLevelIndex_ok.2 ⟨hl, hi⟩
  unfold requeueLog
  rw [hok, chooseLog_congr (requeue_queues s t d i)]

/-- What `schedule` logs for the thread it puts back. -/
def PreparedLog (s s₀ : State) (evs : List LogEntry) : Prop :=
  (evs = [] ∧ s₀ = s) ∨ ∃ c d i, s.currentThread = some c ∧ evs = pushLog s i c ∧
    s₀ = s.requeue c d i

lemma scheduleLog_prepared (h : Prepared s s₀) :
    ∃ evs, PreparedLog s s₀ evs ∧ scheduleLog s = evs ++ chooseLog s₀ := by
  cases h with
  | vacant hv =>
    refine ⟨[], .inl ⟨rfl, rfl⟩, ?_⟩
    unfold scheduleLog
    split
    · rfl
    · next c hc => rw [if_pos (hv c hc)]; rfl
  | @yielded c i d hc ha hd hy hl hi =>
    refine ⟨pushLog s i c, .inr ⟨c, _, i, hc, rfl, rfl⟩, ?_⟩
    simp only [scheduleLog, hc, evaluateAndChooseLog, hd, hy]
    rw [if_neg ha, if_pos trivial, requeueLog_eq hl hi]
  | @expired c i d hc ha hd hy hq hl hi =>
    refine ⟨pushLog s i c, .inr ⟨c, _, i, hc, rfl, rfl⟩, ?_⟩
    simp only [scheduleLog, hc, evaluateAndChooseLog, hd, hy]
    rw [if_neg ha, if_neg (by simp), if_pos (by omega), requeueLog_eq hl hi]

lemma scheduleLog_continues (h : Continues s c d) : scheduleLog s = [.keep c] := by
  have hq := h.quantum
  simp only [scheduleLog, h.current, evaluateAndChooseLog, h.data, h.noYield]
  rw [if_neg h.active, if_neg (by simp), if_neg (by omega)]

/-! Quanta. -/

def Funded (s : State) : Prop :=
  ∀ t d, s.data t = some d → 0 ≤ d.runLevel →
    d.quantum ≤ 100 + 20 * d.runLevel ∧ d.resetQuantum = 100 + 20 * d.runLevel

lemma levelQuantum_eq (h : l = i) : levelQuantum i = 100 + 20 * l := by
  unfold levelQuantum defaultQuantum
  rw [h]

lemma Funded.congr (h : Funded s) (hd : ∀ t, s'.data t = s.data t) :
    Funded s' := fun t d ht => h t d (hd t ▸ ht)

lemma Funded.setData (h : Funded s) (hd : 0 ≤ d.runLevel →
      d.quantum ≤ 100 + 20 * d.runLevel ∧ d.resetQuantum = 100 + 20 * d.runLevel) :
    Funded (s.setData t d) := by
  intro u e he
  rw [data_setData] at he
  split_ifs at he
  · exact some.inj he ▸ hd
  · exact h u e he

lemma Funded.nudged (h : Funded s) (hn : Nudged s s') : Funded s' := by
  intro t d hd
  rcases hn.data t with hsame | ⟨e, he, he'⟩
  · exact h t d (hsame ▸ hd)
  · obtain rfl := some.inj (he'.symm.trans hd)
    exact h t e he

lemma Funded.requeue (h : Funded s) (hd : 0 ≤ d.runLevel →
      d.quantum ≤ 100 + 20 * d.runLevel ∧ d.resetQuantum = 100 + 20 * d.runLevel) :
    Funded (s.requeue t d i) :=
  (h.setData (t := t) hd).congr fun u => by simp [State.requeue]

lemma Funded.prepared (h : Funded s) (hp : Prepared s s₀) : Funded s₀ := by
  cases hp with
  | vacant _ => exact h
  | @yielded c i d _ _ hd _ hl _ =>
    refine h.requeue fun hpos => ?_
    obtain ⟨_, hreset⟩ := h c d hd hpos
    exact ⟨hreset.le, hreset⟩
  | @expired c i d _ _ _ _ _ hl _ =>
    have hlevel := levelQuantum_eq hl
    exact h.requeue fun _ => ⟨hlevel.le, hlevel⟩

lemma funded_schedule (h : Funded s) (hs : schedule s = .ok s') : Funded s' := by
  rcases schedule_cases hs with ⟨s₀, t, i, rest, hp, _, _, rfl⟩ | ⟨c, d, hc, rfl⟩
  · exact (h.prepared hp).congr (by simp)
  have hset : Funded (s.setData c { d with quantum := d.quantum - 1 }) := by
    refine h.setData fun hpos => ?_
    obtain ⟨hle, hreset⟩ := h c d hc.data hpos
    exact ⟨by simp only; omega, hreset⟩
  exact hset.congr (by simp)

lemma funded_step (h : Funded s) (hs : step s op = .ok s') : Funded s' := by
  cases op with
  | addThread =>
    cases hs
    have hadd : Funded (setData { s with nextThread := s.nextThread + 1 } s.nextThread addedData) :=
      Funded.setData h fun _ => by decide
    refine (hadd.nudged (nudged_yieldCurrent _)).congr fun t => ?_
    rw [addThread_data]
    simp [added]
  | removeThread t =>
    obtain ⟨d, _, ⟨_, rfl⟩ | ⟨i, _, _, rfl⟩⟩ := removeThread_ok hs
    · exact h
    · have hset : Funded (s.setData t { d with runLevel := -1 }) :=
        h.setData fun hpos => absurd hpos (by simp)
      exact hset.congr fun u => by rw [removed_data, data_setData]
  | schedule => exact funded_schedule h hs
  | yield t => exact ok.inj hs ▸ h.nudged (nudged_threadYield s t)
  | suspend t => exact h.congr (suspend_suspends hs).data
  | suspendProcess ts => exact h.congr (suspendProcess_suspends hs).data
  | resume t =>
    rcases resume_ok hs with ⟨_, rfl⟩ | ⟨_, d, i, _, hl, _, rfl⟩
    · exact h
    have hlevel := levelQuantum_eq hl
    have hset : Funded (s.setData t (resumedData d i)) := h.setData fun _ => ⟨hlevel.le, hlevel⟩
    have hready : Funded ((s.setData t (resumedData d i)).setState t .ready) :=
      hset.congr (by simp)
    exact (hready.nudged (nudged_resumed s t d i)).congr (by simp)
  | kill t => exact ok.inj hs ▸ h.congr (kill_data s t)

lemma funded_initial : Funded initial := by
  intro t d hd
  rw [initial_data] at hd
  split_ifs at hd
  cases hd
  decide

/-! The scheduler follows its log. -/

def quantumOf (i : ℕ) : ℤ := levelQuantum i

structure Follows (s : State) (r : Rotation.Table ℕ ℕ) : Prop where
  queues : r.queues = s.queues
  current : ∀ c d, s.currentThread = some c →
    ¬ (s.state c = .terminated ∨ s.state c = .suspended) → s.data c = some d →
    r.owner = some c ∧ d.quantum ≤ r.left

def Leads (s : State) (evs : List LogEntry) (s' : State) : Prop :=
  ∀ r, Follows s r → ∃ r', exec (Rotation.apply quantumOf) r evs = some r' ∧ Follows s' r'

lemma Leads.append {s2 s3 : State} {l1 l2 : List LogEntry} (h1 : Leads s1 l1 s2)
    (h2 : Leads s2 l2 s3) : Leads s1 (l1 ++ l2) s3 := by
  intro r hr
  obtain ⟨r1, he1, hf1⟩ := h1 r hr
  obtain ⟨r2, he2, hf2⟩ := h2 r1 hf1
  exact ⟨r2, by rw [exec_append, he1, bind_some, he2], hf2⟩

lemma leads_nil (hq : s'.queues = s.queues) (hc : ∀ c d', s'.currentThread = some c →
      ¬ (s'.state c = .terminated ∨ s'.state c = .suspended) → s'.data c = some d' →
      s.currentThread = some c ∧ ¬ (s.state c = .terminated ∨ s.state c = .suspended) ∧
        ∃ d, s.data c = some d ∧ d'.quantum = d.quantum) : Leads s [] s' := by
  intro r hr
  refine ⟨r, rfl, hr.queues.trans hq.symm, fun c d' hcur hact hd' => ?_⟩
  obtain ⟨hcur0, hact0, d, hd, hquantum⟩ := hc c d' hcur hact hd'
  obtain ⟨howner, hle⟩ := hr.current c d hcur0 hact0 hd
  exact ⟨howner, hquantum ▸ hle⟩

lemma leads_refl (s : State) : Leads s [] s :=
  leads_nil rfl fun _ d hc ha hd => ⟨hc, ha, d, hd, rfl⟩

lemma leads_nudged (hn : Nudged s s') : Leads s [] s' := by
  refine leads_nil hn.queues fun c d' hc ha hd' => ?_
  rw [hn.currentThread] at hc
  rw [hn.state] at ha
  refine ⟨hc, ha, ?_⟩
  rcases hn.data c with hsame | ⟨e, he, he'⟩
  · exact ⟨d', hsame ▸ hd', rfl⟩
  · obtain rfl := some.inj (he'.symm.trans hd')
    exact ⟨e, he, rfl⟩

lemma leads_push (hout : ∀ j, t ∉ s.queues j) : Leads s (pushLog s i t) (s.push i t) := by
  intro r hr
  have hkeep {r' : Rotation.Table ℕ ℕ} (hq : r'.queues = (s.push i t).queues)
      (ho : r'.owner = r.owner) (hl : r'.left = r.left) : Follows (s.push i t) r' := by
    refine ⟨hq, fun c d hc ha hd => ?_⟩
    rw [ho, hl]
    exact hr.current c d (by simpa using hc) (by simpa using ha) (by simpa using hd)
  unfold pushLog
  split_ifs with hf
  · exact ⟨r, rfl, hkeep (by rw [queues_push, if_pos hf, hr.queues]) rfl rfl⟩
  · refine ⟨_, exec_cons_some.2 ⟨_, Rotation.apply_append (hr.queues ▸ hout), rfl⟩, ?_⟩
    exact hkeep (by rw [queues_push, if_neg hf, hr.queues]) rfl rfl

lemma follows_dispatch (hq : Queued s none) (hfund : Funded s) (hpop : Popped s t i rest)
    (hr : r.queues = s.queues) :
    ∃ r', exec (Rotation.apply quantumOf) r (chooseLog s) = some r' ∧
      Follows ((s.pop i rest).dispatch t) r' := by
  have hhead : r.queues i = t :: rest := hr ▸ hpop.head
  rw [chooseLog_popped hpop]
  refine ⟨_, exec_cons_some.2 ⟨_, Rotation.apply_take hhead, rfl⟩, ?_, ?_⟩
  · rw [hr]
    rfl
  intro c d hc _ hd
  obtain rfl : t = c := some.inj hc
  rw [dispatch_data, data_pop] at hd
  have hlevel := (hq.entry i t (by simp [hpop.head])).2
  have hrun : d.runLevel = i := by
    rw [level_of_data hd] at hlevel
    exact some.inj hlevel
  obtain ⟨hle, _⟩ := hfund t d hd (by omega)
  refine ⟨rfl, ?_⟩
  rw [quantumOf, levelQuantum_eq hrun]
  exact hle

lemma follows_prepared {evs : List LogEntry} (hq : Queued s s.currentThread)
    (hlog : PreparedLog s s₀ evs) (hr : Follows s r) :
    ∃ r', exec (Rotation.apply quantumOf) r evs = some r' ∧ r'.queues = s₀.queues := by
  rcases hlog with ⟨rfl, rfl⟩ | ⟨c, d, i, hc, rfl, rfl⟩
  · exact ⟨r, rfl, hr.queues⟩
  · obtain ⟨r', he, hf⟩ := leads_push (hq.current c hc).2 r hr
    exact ⟨r', he, by rw [hf.queues, requeue_queues]⟩

lemma leads_schedule {s s' : State} (hq : Queued s s.currentThread) (hfund : Funded s)
    (hs : schedule s = .ok s') : Leads s (scheduleLog s) s' := by
  rcases schedule_cases hs with ⟨s₀, t, i, rest, hp, hpop, _, rfl⟩ | ⟨c, d, hc, rfl⟩
  · obtain ⟨evs, hlog, heq⟩ := scheduleLog_prepared hp
    intro r hr
    obtain ⟨r1, he1, hr1⟩ := follows_prepared hq hlog hr
    obtain ⟨r2, he2, hf⟩ := follows_dispatch (hq.prepared hp) (hfund.prepared hp) hpop hr1
    exact ⟨r2, by rw [heq, exec_append, he1, bind_some, he2], hf⟩
  · rw [scheduleLog_continues hc]
    intro r hr
    obtain ⟨howner, hle⟩ := hr.current c d hc.current hc.active hc.data
    have hquantum := hc.quantum
    refine ⟨_, exec_cons_some.2 ⟨_, Rotation.apply_keep howner (by omega), rfl⟩, ?_, ?_⟩
    · exact hr.queues
    intro c' d' hc' _ hd'
    obtain rfl : c = c' := some.inj hc'
    rw [dispatch_data, data_setData, if_pos rfl] at hd'
    cases hd'
    exact ⟨howner, by simp only; omega⟩

lemma removeLog_eq (hl : s.level t = some (i : ℤ)) (hi : i < runLevels) :
    removeLog s t = [.drop i t] := by
  have hok : runLevelIndex (i : ℤ) = .ok i := runLevelIndex_ok.2 ⟨rfl, hi⟩
  simp only [removeLog, hl, hok]

lemma leads_suspendOnly (hs : suspendOnly s t = .ok s') : Leads s (suspendOnlyLog s t) s' := by
  rcases suspendOnly_ok hs with ⟨hst, rfl⟩ | ⟨hst, i, hl, hi, rfl⟩
  · have hnone : suspendOnlyLog s' t = [] := by
      unfold suspendOnlyLog
      rcases hst with hst | hst <;> rw [hst]
    rw [hnone]
    exact leads_refl s'
  · have hone : suspendOnlyLog s t = [.drop i t] := by
      unfold suspendOnlyLog
      rcases hst with hst | hst <;> rw [hst] <;> exact removeLog_eq hl hi
    intro r hr
    rw [hone]
    refine ⟨_, rfl, ?_, fun c d hc ha hd => ?_⟩
    · rw [hr.queues]
      rfl
    -- the suspended thread itself has no claim on the table
    have hne : c ≠ t := by
      rintro rfl
      exact ha (.inr (by simp))
    exact hr.current c d hc (by simpa [hne] using ha) (by simpa using hd)

lemma leads_suspendAll (hs : ts.foldlM suspendOnly s = .ok s') :
    Leads s (suspendAllLog s ts) s' := by
  induction ts generalizing s with
  | nil => exact ok.inj hs ▸ leads_refl s
  | cons t ts ih =>
    obtain ⟨s1, h1, hs⟩ := bind_ok.1 hs
    simp only [suspendAllLog, h1]
    exact (leads_suspendOnly h1).append (ih hs)

lemma leads_suspend (h : Settled s) (hfund : Funded s) (hs : suspend s t = .ok s') :
    Leads s (suspendLog s t) s' := by
  obtain ⟨s1, h1, hs⟩ := bind_ok.1 hs
  have hq : Queued s1 s1.currentThread := by
    rw [suspendOnly_currentThread h1]
    exact h.queued.suspendOnly h1
  have hfund1 := hfund.congr (suspendOnly_data h1)
  simp only [suspendLog, h1]
  refine (leads_suspendOnly h1).append ?_
  split_ifs at hs ⊢
  · exact leads_schedule hq hfund1 hs
  · exact ok.inj hs ▸ leads_refl s1

lemma leads_suspendProcess {s s' : State} {ts : List ℕ} (h : Settled s) (hfund : Funded s)
    (hs : suspendProcess s ts = .ok s') : Leads s (suspendProcessLog s ts) s' := by
  obtain ⟨s1, h1, hs⟩ := bind_ok.1 hs
  have hq := suspended_queued h h1
  have hfund1 : Funded s1 :=
    foldlM_suspendOnly (fun _ _ _ _ hu hv => hu.congr (suspendOnly_data hv)) hfund h1
  refine (leads_suspendAll h1).append ?_
  cases hc : s.currentThread with
  | some c =>
    simp only [hc] at hs
    simp only [h1]
    split_ifs at hs ⊢
    · exact leads_schedule hq hfund1 hs
    · exact ok.inj hs ▸ leads_refl s1
  | none =>
    simp only [hc] at hs
    exact ok.inj hs ▸ leads_refl s1

lemma leads_resume (h : Settled s) (hs : resume s t = .ok s') : Leads s (resumeLog s t) s' := by
  rcases resume_ok hs with ⟨hst, rfl⟩ | ⟨hst, d, i, hd, hl, hi, rfl⟩
  · simp only [resumeLog, if_pos hst]
    exact leads_refl s'
  have hok := runLevelIndex_ok.2 ⟨hl, hi⟩
  have hn := nudged_resumed s t d i
  have hqueues := hn.queues
  have hlog : resumeLog s t = [] ++ pushLog (s.resumed t d i) i t := by
    simp only [resumeLog, hst, hd, hok, pushLog, full, hqueues]
    simp
  have hset : Leads s [] ((s.setData t (resumedData d i)).setState t .ready) := by
    refine leads_nil rfl fun c d' hc ha hd' => ?_
    have hne : c ≠ t := by
      rintro rfl
      exact h.active c hc hst
    exact ⟨hc, by simpa [hne] using ha, d', by simpa [hne] using hd', rfl⟩
  rw [hlog]
  refine (hset.append (leads_nudged hn)).append (leads_push ?_)
  rw [hqueues]
  exact h.queued.suspended t hst

lemma added_quantum {d' : PolicyData} (hne : c ≠ s.nextThread)
    (hd' : s.added.data c = some d') : ∃ d, s.data c = some d ∧ d'.quantum = d.quantum := by
  have hother : (setData { s with nextThread := s.nextThread + 1 } s.nextThread
      addedData).data c = s.data c := by
    rw [data_setData, if_neg hne]
    rfl
  rw [added, data_setState] at hd'
  rcases (nudged_yieldCurrent (setData { s with nextThread := s.nextThread + 1 }
    s.nextThread addedData)).data c with hsame | ⟨e, he, he'⟩
  · exact ⟨d', by rw [← hother, ← hsame, hd'], rfl⟩
  · obtain rfl := some.inj (he'.symm.trans hd')
    exact ⟨e, hother ▸ he, rfl⟩

lemma leads_addThread (h : Settled s) : Leads s (pushLog s 0 s.nextThread) (addThread s) := by
  have hqueues := added_queues s
  have hlog : pushLog s 0 s.nextThread = [] ++ pushLog s.added 0 s.nextThread := by
    have hfull : s.added.full 0 = s.full 0 := by
      unfold full
      rw [hqueues]
    unfold pushLog
    rw [hfull, nil_append]
  have hadded : Leads s [] s.added := by
    refine leads_nil hqueues fun c d' hc ha hd' => ?_
    rw [added_currentThread] at hc
    have hne : c ≠ s.nextThread := by
      rintro rfl
      exact h.queued.not_current_fresh le_rfl hc
    rw [added_state, if_neg hne] at ha
    exact ⟨hc, ha, added_quantum hne hd'⟩
  have hout : ∀ j, s.nextThread ∉ s.added.queues j := by
    rw [hqueues]
    exact h.queued.not_queued_fresh le_rfl
  have hpush := hadded.append (leads_push (i := 0) hout)
  rw [hlog, addThread_eq]
  split_ifs with hf
  · rwa [push_of_full hf] at hpush
  · intro r hr
    obtain ⟨r', he, hfollows⟩ := hpush r hr
    exact ⟨r', he, hfollows.queues, hfollows.current⟩

lemma removed_state (s : State) (d : PolicyData) (i t c : ℕ) :
    ((((s.removeFrom i t).setData t d).unregister t).releaseCurrent t).state c = s.state c := by
  unfold releaseCurrent
  split_ifs <;> exact state_setData _ t c d

lemma leads_removeThread (hs : removeThread s t = .ok s') : Leads s (removeLog s t) s' := by
  obtain ⟨d, hd, ⟨hneg, rfl⟩ | ⟨i, hl, hi, rfl⟩⟩ := removeThread_ok hs
  · have hnone : removeLog s' t = [] := by
      have herr : runLevelIndex d.runLevel = .error .runLevelIndex := by
        unfold runLevelIndex
        rw [if_neg (by omega)]
      simp only [removeLog, level_of_data hd, herr]
    rw [hnone]
    exact leads_refl s'
  · rw [removeLog_eq (by rw [level_of_data hd, hl]) hi]
    intro r hr
    refine ⟨_, rfl, ?_, fun c e hc ha he => ?_⟩
    · rw [hr.queues]
      unfold releaseCurrent
      split_ifs <;> rfl
    · have hct : s.currentThread = some c ∧ c ≠ t := by
        unfold releaseCurrent at hc
        split_ifs at hc with hcur
        · cases hc
        · refine ⟨hc, ?_⟩
          rintro rfl
          exact hcur hc
      rw [removed_data, if_neg hct.2] at he
      rw [removed_state] at ha
      exact hr.current c e hct.1 ha he

lemma leads_step (h : Settled s) (hfund : Funded s) (hs : step s op = .ok s') :
    Leads s (stepLog s op) s' := by
  cases op with
  | addThread => exact ok.inj hs ▸ leads_addThread h
  | removeThread t => exact leads_removeThread hs
  | schedule => exact leads_schedule h.queued hfund hs
  | yield t => exact ok.inj hs ▸ leads_nudged (nudged_threadYield s t)
  | suspend t => exact leads_suspend h hfund hs
  | suspendProcess ts => exact leads_suspendProcess h hfund hs
  | resume t => exact leads_resume h hs
  | kill t =>
    cases hs
    unfold kill
    split_ifs
    · exact leads_refl s
    refine leads_nil rfl fun c d' hc ha hd' => ?_
    have hne : c ≠ t := by
      rintro rfl
      exact ha (.inl (by simp))
    exact ⟨hc, by simpa [hne] using ha, d', by simpa using hd', rfl⟩

def initialTable : Rotation.Table ℕ ℕ := ⟨initial.queues, none, 0⟩

lemma leads_log {ops : List Op} (h : Settled s) (hfund : Funded s)
    (hs : exec next s ops = some s') : Leads s (log s ops) s' := by
  induction ops generalizing s with
  | nil =>
    obtain rfl := some.inj hs
    exact leads_refl s
  | cons op ops ih =>
    obtain ⟨s1, h1, hs⟩ := exec_cons_some.1 hs
    have hstep := next_eq_some.1 h1
    simp only [log, h1]
    exact (leads_step h hfund hstep).append
      (ih (settled_step h hstep) (funded_step hfund hstep) hs)

lemma initialTable_single : Rotation.Single initialTable where
  nodup := settled_initial.queued.nodup
  one := by
    intro t i j hi hj
    have hli := (settled_initial.queued.entry i t hi).2
    have hlj := (settled_initial.queued.entry j t hj).2
    have heq := some.inj (hli.symm.trans hlj)
    omega

/-! What the entries of the log say about the scheduler. -/

def Told (s s' : State) : LogEntry → Prop
  | .take l t => s'.currentThread = some t ∧ s'.level t = some (l : ℤ)
  | .keep t => s.currentThread = some t ∧ s'.currentThread = some t
  | .append _ _ | .drop _ _ => True

lemma told_pushLog : ∀ e ∈ pushLog u i t, Told s s' e := by
  intro e he
  unfold pushLog at he
  split_ifs at he
  · cases he
  · rw [mem_singleton.1 he]
    trivial

lemma told_removeLog : ∀ e ∈ removeLog u t, Told s s' e := by
  intro e he
  unfold removeLog at he
  split at he
  · cases he
  split at he
  · rw [mem_singleton.1 he]
    trivial
  · cases he

lemma told_suspendOnlyLog : ∀ e ∈ suspendOnlyLog u t, Told s s' e := by
  intro e he
  unfold suspendOnlyLog at he
  split at he
  · exact told_removeLog e he
  · exact told_removeLog e he
  · cases he
  · cases he

lemma told_suspendAllLog : ∀ e ∈ suspendAllLog u ts, Told s s' e := by
  induction ts generalizing u with
  | nil =>
    intro e he
    cases he
  | cons t ts ih =>
    intro e he
    rcases mem_append.1 he with he | he
    · exact told_suspendOnlyLog e he
    · split at he
      · exact ih e he
      · cases he

lemma told_schedule (hq : Queued s s.currentThread) (hs : schedule s = .ok s') :
    ∀ e ∈ scheduleLog s, Told s s' e := by
  intro e he
  rcases schedule_cases hs with ⟨s₀, t, i, rest, hp, hpop, _, rfl⟩ | ⟨c, d, hc, rfl⟩
  · obtain ⟨evs, hlog, heq⟩ := scheduleLog_prepared hp
    rw [heq, chooseLog_popped hpop] at he
    rcases mem_append.1 he with he | he
    · rcases hlog with ⟨rfl, _⟩ | ⟨c, d, j, _, rfl, _⟩
      · cases he
      · exact told_pushLog e he
    · rw [mem_singleton.1 he]
      have hlevel := ((hq.prepared hp).entry i t (by simp [hpop.head])).2
      exact ⟨rfl, by rw [dispatch_level, level_pop, hlevel]⟩
  · rw [scheduleLog_continues hc] at he
    rw [mem_singleton.1 he]
    exact ⟨hc.current, rfl⟩

lemma Told.congr (h : s1.currentThread = s.currentThread) {e : LogEntry}
    (he : Told s1 s' e) : Told s s' e := by
  cases e with
  | append i t => trivial
  | take i t => exact he
  | drop i t => trivial
  | keep t => exact ⟨h ▸ he.1, he.2⟩

lemma told_suspend (h : Settled s) (hs : suspend s t = .ok s') :
    ∀ e ∈ suspendLog s t, Told s s' e := by
  obtain ⟨s1, h1, hs⟩ := bind_ok.1 hs
  have hcur := suspendOnly_currentThread h1
  have hq : Queued s1 s1.currentThread := hcur ▸ h.queued.suspendOnly h1
  intro e he
  simp only [suspendLog, h1] at he
  rcases mem_append.1 he with he | he
  · exact told_suspendOnlyLog e he
  · split_ifs at hs he
    · exact (told_schedule hq hs e he).congr hcur
    · cases he

lemma told_suspendProcess (h : Settled s) (hs : suspendProcess s ts = .ok s') :
    ∀ e ∈ suspendProcessLog s ts, Told s s' e := by
  obtain ⟨s1, h1, hs⟩ := bind_ok.1 hs
  have hq := suspended_queued h h1
  have hcur := suspended_currentThread h1
  intro e he
  rcases mem_append.1 he with he | he
  · exact told_suspendAllLog e he
  cases hc : s.currentThread with
  | some c =>
    simp only [hc] at hs
    simp only [hc, h1] at he
    split_ifs at hs he
    · exact (told_schedule hq hs e he).congr hcur
    · cases he
  | none =>
    simp only [hc] at he
    cases he

lemma told_step (h : Settled s) (hs : step s op = .ok s') : ∀ e ∈ stepLog s op, Told s s' e := by
  cases op with
  | addThread => exact told_pushLog
  | removeThread t => exact told_removeLog
  | schedule => exact told_schedule h.queued hs
  | yield t =>
    intro e he
    cases he
  | suspend t => exact told_suspend h hs
  | suspendProcess ts => exact told_suspendProcess h hs
  | resume t =>
    intro e he
    simp only [stepLog, resumeLog] at he
    split_ifs at he
    · cases he
    split at he
    · cases he
    · split at he
      · exact told_pushLog e he
      · cases he
  | kill t =>
    intro e he
    cases he

def WaitsAfter (before : List LogEntry) (l b : ℕ) : Prop :=
  ∃ r, exec (Rotation.apply quantumOf) initialTable before = some r ∧ b ∈ r.queues l

/-- In every run, from its dispatch to its next wait a thread is kept by at most as
many calls of `schedule` as the quantum of its run level, and it is not dispatched
from a queue before the threads that waited there when it was appended. The log by
which this is said ends with the queues of the scheduler, and its entries say what
happened in each step. -/
theorem quantum_and_round_robin {ops : List Op} {s : State}
    (hrun : exec next initial ops = some s) :
    (∀ t l before between after, log initial ops = before ++ .take l t :: between ++ after →
      (∀ j, .append j t ∉ between) → between.count (.keep t) ≤ 100 + 20 * l) ∧
    (∀ a b l before between after,
      log initial ops = before ++ (.append l a :: between ++ .take l a :: after) →
      WaitsAfter before l b → .take l b ∈ between ∨ .drop l b ∈ between) ∧
    (∃ r, exec (Rotation.apply quantumOf) initialTable (log initial ops) = some r ∧
      r.queues = s.queues) ∧
    (∀ done op s₁ s₂, done ++ [op] <+: ops → exec next initial done = some s₁ →
      next s₁ op = some s₂ → ∀ e ∈ stepLog s₁ op, Told s₁ s₂ e) := by
  obtain ⟨r, hr, hfollows⟩ :=
    leads_log settled_initial funded_initial hrun initialTable ⟨rfl, fun _ _ hc => by cases hc⟩
  refine ⟨?_, ?_, ⟨r, hr, hfollows.queues⟩, ?_⟩
  · intro t l before between after hlog hnone
    rw [hlog] at hr
    have hquantum : quantumOf l = 100 + 20 * (l : ℤ) := levelQuantum_eq rfl
    have hle := Rotation.keep_le_budget initialTable_single hr hnone (by omega)
    omega
  · intro a b l before between after hlog ⟨r1, hr1, hb⟩
    rw [hlog, exec_append, hr1, bind_some] at hr
    exact Rotation.no_overtaking hr hb
  · intro done op s₁ s₂ _ hdone hop
    have hsettled : Settled s₁ :=
      (always_of_step (fun _ _ _ hi ht => settled_step hi (next_eq_some.1 ht))
        settled_initial done).last hdone
    exact told_step hsettled (next_eq_some.1 hop)

def twoThreads : List Op :=
  [.addThread, .addThread, .schedule, .schedule, .yield 1, .schedule, .yield 2, .schedule]

theorem quantum_and_round_robin_two_threads :
    log initial twoThreads = [.append 0 1, .append 0 2, .take 0 1, .keep 1, .append 0 1,
      .take 0 2, .append 0 2, .take 0 1] ∧
    [Rotation.Event.keep (ι := ℕ) 1].count (.keep 1) ≤ 100 + 20 * 0 := by
  have hlog : log initial twoThreads = [.append 0 1, .append 0 2, .take 0 1, .keep 1, .append 0 1,
      .take 0 2, .append 0 2, .take 0 1] := by decide
  have hsome : (exec next initial twoThreads).isSome := by decide
  obtain ⟨s, hrun⟩ := isSome_iff_exists.1 hsome
  refine ⟨hlog, ?_⟩
  exact (quantum_and_round_robin hrun).1 1 0 [.append 0 1, .append 0 2] _
    [.append 0 1, .take 0 2, .append 0 2, .take 0 1] hlog (by simp)

end GzOS.Scheduling
