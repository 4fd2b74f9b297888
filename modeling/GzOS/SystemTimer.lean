import GzOS.IdAllocator
import GzOS.Runs

/-!
# The system timer

A tick walks over the pending timers once, calls what is due and drops a timer when its
callback returns false. Ids come from a range of a thousand numbers and are never given
back, so all timers from the thousand and first on have the id `-1`.
-/
namespace GzOS.SystemTimer
open Runs List

variable {κ α σ : Type}

/-- The code does not keep the number of the call that made it. -/
structure TimerControlBlock (κ α : Type) where
  id : BitVec 32
  timeoutMs : BitVec 64
  targetMs : BitVec 64
  callbackFunc : Option κ
  arg : α
  serial : ℕ

/-- The clock, and the callbacks, which return whether the timer stays. -/
structure Env (κ α σ : Type) where
  clockGetMs : σ → BitVec 64 × σ
  call : κ → α → σ → Bool × σ

/-- The timer that stays, if any. One that is due without a callback stays. -/
def visit (env : Env κ α σ) (t : TimerControlBlock κ α) (s : σ) :
    Option (TimerControlBlock κ α) × σ :=
  let (now, s) := env.clockGetMs s
  if t.targetMs ≤ now then
    match t.callbackFunc with
    | some cb =>
      let (stays, s) := env.call cb t.arg s
      (if stays then some { t with targetMs := now + t.timeoutMs } else none, s)
    | none => (some t, s)
  else (some t, s)

def executeTimers (env : Env κ α σ) :
    List (TimerControlBlock κ α) → σ → List (TimerControlBlock κ α) × σ
  | [], s => ([], s)
  | t :: ts, s =>
    let (kept, s) := visit env t s
    let (rest, s) := executeTimers env ts s
    (kept.toList ++ rest, s)

/-- The code keeps neither the number of calls nor the last call that returned an id. -/
structure Timers (κ α : Type) where
  timers : List (TimerControlBlock κ α)
  idAllocator : IdAllocator
  calls : ℕ
  last : BitVec 32 → Option ℕ

def Timers.init : Timers κ α := ⟨[], .new 1000 2000, 0, fun _ => none⟩

/-- The timeout is an `int` that is widened before it is added. -/
def addTimer (s : Timers κ α) (now : BitVec 64) (timeoutMs : BitVec 32) (cb : Option κ) (arg : α) :
    BitVec 32 × Timers κ α :=
  let (id, ids) := s.idAllocator.allocate
  let timeout := timeoutMs.signExtend 64
  (id, {
    timers := s.timers ++ [⟨id, timeout, now + timeout, cb, arg, s.calls⟩]
    idAllocator := ids
    calls := s.calls + 1
    last := Function.update s.last id (some s.calls) })

def removeTimer (s : Timers κ α) (timerId : BitVec 32) : Timers κ α :=
  { s with timers := s.timers.filter (·.id ≠ timerId) }

/-- The times it reads, and the results of the callbacks by timer. -/
def walk (clock : ℕ → BitVec 64) (result : ℕ → Bool) : Env κ α ℕ where
  clockGetMs i := (clock i, i + 1)
  call _ _ i := (result i, i)

inductive Event (κ α : Type)
  | add (now : BitVec 64) (timeoutMs : BitVec 32) (cb : Option κ) (arg : α)
  | remove (timerId : BitVec 32)
  | execute (clock : ℕ → BitVec 64) (result : ℕ → Bool)

def step (s : Timers κ α) : Event κ α → Option (Timers κ α)
  | .add now timeoutMs cb arg => some (addTimer s now timeoutMs cb arg).2
  | .remove timerId => some (removeTimer s timerId)
  | .execute clock result =>
    some { s with timers := (executeTimers (walk clock result) s.timers 0).1 }

/-- Pending ids differ, and `removeTimer` removes the timer for which its id was returned
last. -/
structure Identified (s : Timers κ α) : Prop where
  distinct : (s.timers.map (·.id)).Nodup
  removes : ∀ id, ∀ t ∈ s.timers, t ∉ (removeTimer s id).timers → s.last id = some t.serial

/-- It gets a number of its own, or no pending timer has the id `-1`. -/
def Numbered (s : Timers κ α) : Event κ α → Prop
  | .add _ _ _ _ => s.calls < 1000 ∨ ∀ t ∈ s.timers, t.id ≠ IdAllocator.exhausted
  | _ => True

/-! ## Walks -/

variable {t : TimerControlBlock κ α} {e : Event κ α}

variable {env : Env κ α σ} {I : σ → Prop} {n : ℕ} {now : BitVec 64} {timeoutMs : BitVec 32}
  {cb : Option κ} {arg : α}

lemma visit_some {t' : TimerControlBlock κ α} {s : σ}
    (h : (visit env t s).1 = some t') : ∃ target, t' = { t with targetMs := target } := by
  unfold visit at h
  split at h
  split at h
  · split at h
    · split at h
      split at h
      · exact ⟨_, (Option.some.inj h).symm⟩
      · cases h
    · exact ⟨t.targetMs, (Option.some.inj h).symm⟩
  · exact ⟨t.targetMs, (Option.some.inj h).symm⟩

lemma executeTimers_sublist {β : Type} (env : Env κ α σ) {f : TimerControlBlock κ α → β}
    (hf : ∀ t target, f { t with targetMs := target } = f t) (ts : List (TimerControlBlock κ α))
    (s : σ) : ((executeTimers env ts s).1.map f).Sublist (ts.map f) := by
  induction ts generalizing s with
  | nil => exact List.Sublist.refl _
  | cons t ts ih =>
    have hrest := ih (visit env t s).2
    simp only [executeTimers]
    cases hv : (visit env t s).1 with
    | none => exact hrest.cons _
    | some t' =>
      obtain ⟨target, rfl⟩ := visit_some hv
      simpa [hf] using hrest

lemma visit_keeps (hclock : ∀ s, I s → I (env.clockGetMs s).2)
    (hcall : ∀ cb, t.callbackFunc = some cb → ∀ s, I s → I (env.call cb t.arg s).2) {s : σ}
    (hs : I s) : I (visit env t s).2 := by
  have hnow := hclock s hs
  unfold visit
  simp only
  split
  · split
    · next cb hcb => exact hcall cb hcb _ hnow
    · exact hnow
  · exact hnow

lemma executeTimers_keeps (env : Env κ α σ) (ts : List (TimerControlBlock κ α))
    (hclock : ∀ s, I s → I (env.clockGetMs s).2)
    (hcall : ∀ t ∈ ts, ∀ cb, t.callbackFunc = some cb → ∀ s, I s → I (env.call cb t.arg s).2)
    {s : σ} (hs : I s) : I (executeTimers env ts s).2 := by
  induction ts generalizing s with
  | nil => exact hs
  | cons t ts ih =>
    have hvisit : I (visit env t s).2 := visit_keeps hclock (hcall t mem_cons_self) hs
    exact ih (fun u hu => hcall u (mem_cons_of_mem t hu)) hvisit

def key (t : TimerControlBlock κ α) : BitVec 32 × ℕ := (t.id, t.serial)

def Timers.keys (s : Timers κ α) : List (BitVec 32 × ℕ) := s.timers.map key

lemma keys_map_fst (s : Timers κ α) : s.keys.map (·.1) = s.timers.map (·.id) := by
  simp [Timers.keys, key]

variable {s : Timers κ α}

lemma mem_keys (ht : t ∈ s.timers) : (t.id, t.serial) ∈ s.keys := mem_map_of_mem ht

def idOf (n : ℕ) : BitVec 32 :=
  if n < 1000 then BitVec.ofNat 32 (1000 + n) else IdAllocator.exhausted

lemma idOf_injective {m : ℕ} (hm : m < 1000) (h : idOf m = idOf n) : m = n := by
  unfold idOf at h
  have hnat := congrArg BitVec.toNat h
  split_ifs at hnat with hn
  · simp only [BitVec.toNat_ofNat] at hnat
    omega
  · have hex : IdAllocator.exhausted.toNat = 4294967295 := by decide
    rw [BitVec.toNat_ofNat] at hnat
    omega

lemma idOf_exhausted (h : 1000 ≤ n) : idOf n = IdAllocator.exhausted := if_neg (by omega)

structure Issued (s : Timers κ α) : Prop where
  ids : s.idAllocator = IdAllocator.after 1000 1000 s.calls
  pending : ∀ e ∈ s.keys, e.2 < s.calls ∧ e.1 = idOf e.2

lemma Issued.init : Issued (Timers.init : Timers κ α) where
  ids := IdAllocator.new_eq_after 1000 1000
  pending := by simp [Timers.keys, Timers.init]

lemma Issued.addTimer (h : Issued s) (now : BitVec 64) (timeoutMs : BitVec 32) (cb : Option κ)
    (arg : α) :
    addTimer s now timeoutMs cb arg = (idOf s.calls, {
      timers := s.timers ++ [⟨idOf s.calls, timeoutMs.signExtend 64,
        now + timeoutMs.signExtend 64, cb, arg, s.calls⟩]
      idAllocator := IdAllocator.after 1000 1000 (s.calls + 1)
      calls := s.calls + 1
      last := Function.update s.last (idOf s.calls) (some s.calls) }) := by
  simp only [SystemTimer.addTimer, h.ids, IdAllocator.allocate_after]
  rfl

lemma Issued.keys_addTimer (h : Issued s) (now : BitVec 64) (timeoutMs : BitVec 32)
    (cb : Option κ) (arg : α) :
    (SystemTimer.addTimer s now timeoutMs cb arg).2.keys = s.keys ++ [(idOf s.calls, s.calls)] := by
  rw [h.addTimer]
  simp [Timers.keys, key]

lemma step_drops {t : Timers κ α} (ht : step s e = some t)
    (he : ∀ now timeoutMs cb arg, e ≠ .add now timeoutMs cb arg) :
    t.keys.Sublist s.keys ∧ t.idAllocator = s.idAllocator ∧ t.calls = s.calls ∧
      t.last = s.last := by
  cases e with
  | add now timeoutMs cb arg => exact absurd rfl (he now timeoutMs cb arg)
  | remove timerId =>
    cases ht
    exact ⟨filter_sublist.map _, rfl, rfl, rfl⟩
  | execute clock result =>
    cases ht
    exact ⟨executeTimers_sublist _ (fun _ _ => rfl) _ _, rfl, rfl, rfl⟩

lemma Issued.step {t : Timers κ α} (h : Issued s) (ht : step s e = some t) : Issued t := by
  by_cases he : ∀ now timeoutMs cb arg, e ≠ .add now timeoutMs cb arg
  · obtain ⟨hsub, hids, hcalls, -⟩ := step_drops ht he
    exact ⟨by rw [hids, h.ids, hcalls], fun e hin => hcalls ▸ h.pending e (hsub.subset hin)⟩
  push Not at he
  obtain ⟨now, timeoutMs, cb, arg, rfl⟩ := he
  cases ht
  refine ⟨by rw [h.addTimer], fun e hin => ?_⟩
  rw [h.keys_addTimer, mem_append, mem_singleton] at hin
  rcases hin with hin | rfl
  · exact ⟨Nat.lt_succ_of_lt (h.pending e hin).1, (h.pending e hin).2⟩
  · exact ⟨Nat.lt_succ_self _, rfl⟩

structure Current (s : Timers κ α) : Prop where
  distinct : (s.keys.map (·.1)).Nodup
  last : ∀ e ∈ s.keys, s.last e.1 = some e.2

lemma Current.init : Current (Timers.init : Timers κ α) where
  distinct := nodup_nil
  last := by simp [Timers.keys, Timers.init]

lemma Current.identified (h : Current s) : Identified s where
  distinct := keys_map_fst s ▸ h.distinct
  removes id t ht hnot := by
    have hid : t.id = id := by
      by_contra hne
      exact hnot (mem_filter.2 ⟨ht, by simpa using hne⟩)
    exact hid ▸ h.last _ (mem_keys ht)

lemma Numbered.fresh (h : Issued s) (hg : Numbered s (.add now timeoutMs cb arg)) :
    idOf s.calls ∉ s.keys.map (·.1) := by
  intro hin
  obtain ⟨e, he, hid⟩ := mem_map.1 hin
  obtain ⟨hlt, hof⟩ := h.pending e he
  by_cases hcalls : s.calls < 1000
  · have := idOf_injective hcalls (hid.symm.trans hof)
    omega
  · rw [idOf_exhausted (by omega)] at hid
    obtain ⟨t, ht, rfl⟩ := mem_map.1 he
    exact hg.resolve_left hcalls t ht hid

lemma Current.step {t : Timers κ α} (hi : Issued s) (h : Current s) (hg : Numbered s e)
    (ht : step s e = some t) : Current t := by
  by_cases he : ∀ now timeoutMs cb arg, e ≠ .add now timeoutMs cb arg
  · obtain ⟨hsub, -, -, hlast⟩ := step_drops ht he
    exact ⟨h.distinct.sublist (hsub.map _), fun e hin => hlast ▸ h.last e (hsub.subset hin)⟩
  push Not at he
  obtain ⟨now, timeoutMs, cb, arg, rfl⟩ := he
  have hfresh := Numbered.fresh hi hg
  cases ht
  refine ⟨?_, fun e hin => ?_⟩
  · rw [hi.keys_addTimer, map_append]
    refine nodup_append.2 ⟨h.distinct, nodup_singleton _, fun a ha b hb he => ?_⟩
    rw [he, mem_singleton.1 hb] at ha
    exact hfresh ha
  · rw [hi.keys_addTimer, mem_append, mem_singleton] at hin
    rw [hi.addTimer]
    rcases hin with hin | rfl
    · have hne : e.1 ≠ idOf s.calls := fun heq => hfresh (heq ▸ mem_map_of_mem hin)
      simpa only [Function.update_of_ne hne] using h.last e hin
    · simp

lemma Identified.numbered (hi : Issued s)
    (h : Identified (SystemTimer.addTimer s now timeoutMs cb arg).2) :
    Numbered s (.add now timeoutMs cb arg) := by
  by_cases hcalls : s.calls < 1000
  · exact .inl hcalls
  refine .inr fun t ht hid => ?_
  have hd := h.distinct
  rw [← keys_map_fst, hi.keys_addTimer, map_append, nodup_append] at hd
  refine hd.2.2 _ (mem_map_of_mem (mem_keys ht)) _ (mem_singleton_self _) ?_
  exact hid.trans (idOf_exhausted (by omega)).symm

/-- In every run the ids are those of the calls. -/
lemma ids_issued (events : List (Event κ α)) : Always step Issued Timers.init events :=
  always_of_step (fun _ _ _ h ht => h.step ht) .init events

/-- Pending timers keep their identity exactly in the runs that do not call
`addTimer` for the thousand and first time or later while a timer with the id
`-1` is pending. -/
theorem timer_identity_iff (events : List (Event κ α)) :
    Always step Identified Timers.init events ↔ Meets step Numbered Timers.init events := by
  constructor
  · intro h pre e hp s hs
    have hi := ids_issued events pre ((prefix_append _ _).trans hp) s hs
    cases e with
    | add now timeoutMs cb arg =>
      exact Identified.numbered hi (h _ hp _ (exec_concat hs rfl))
    | remove timerId => trivial
    | execute clock result => trivial
  · intro h
    have hboth : Always step (fun s => Issued s ∧ Current s) (Timers.init : Timers κ α) events :=
      always_of_meets (fun s e t hs hg ht => ⟨hs.1.step ht, hs.2.step hs.1 hg ht⟩)
        ⟨.init, .init⟩ h
    exact hboth.mono fun _ hs => hs.2.identified

def oneShot : List (Event Unit Unit) :=
  [.add 0 1 (some ()) (), .execute (fun _ => 1) fun _ => false]

def twoAfterThousand : List (Event Unit Unit) :=
  (replicate 1000 oneShot).flatten ++ [.add 0 1 (some ()) (), .add 0 1 (some ()) ()]

def Few (s : Timers Unit Unit) (_ : Event Unit Unit) : Prop := s.timers.length ≤ 1

lemma oneShot_run {s : Timers Unit Unit} (hi : Issued s) (hs : s.timers = []) :
    Meets step Few s oneShot ∧ ∃ t, exec step s oneShot = some t ∧ Issued t ∧ t.timers = [] ∧
      t.calls = s.calls + 1 := by
  have hadd := hi.addTimer 0 1 (some ()) ()
  constructor
  · refine meets_cons.2 ⟨by simp [Few, hs], fun t ht => meets_singleton.2 ?_⟩
    cases ht
    rw [hadd, hs]
    exact le_rfl
  · refine ⟨_, rfl, ?_, ?_, by rw [hadd]⟩
    · exact (hi.step (e := .add 0 1 (some ()) ()) rfl).step (e := .execute _ _) rfl
    · rw [hadd, hs]
      rfl

lemma oneShots_run (n : ℕ) {s : Timers Unit Unit} (hi : Issued s) (hs : s.timers = []) :
    Meets step Few s (replicate n oneShot).flatten ∧
      ∃ t, exec step s (replicate n oneShot).flatten = some t ∧ Issued t ∧ t.timers = [] ∧
        t.calls = s.calls + n := by
  induction n generalizing s with
  | zero => exact ⟨meets_nil _ _ _, s, rfl, hi, hs, rfl⟩
  | succ n ih =>
    obtain ⟨hfew, t, ht, hit, htimers, hcalls⟩ := oneShot_run hi hs
    obtain ⟨hfew', u, hu, hiu, hnil, hcalls'⟩ := ih hit htimers
    rw [replicate_succ, flatten_cons]
    refine ⟨meets_append.2 ⟨hfew, fun t' ht' => ?_⟩, u, ?_, hiu, hnil, by omega⟩
    · rw [ht] at ht'
      cases ht'
      exact hfew'
    · rw [exec_append, ht]
      exact hu

/-- The last two timers have the same id, and no others are pending. -/
theorem timer_ids_repeat :
    Meets step Few Timers.init twoAfterThousand ∧
      ¬Always step Identified Timers.init twoAfterThousand := by
  obtain ⟨hfew, s, hs, hi, hnil, hcalls⟩ := oneShots_run 1000 Issued.init rfl
  have hadd := hi.addTimer 0 1 (some ()) ()
  have hi' := hi.step (e := .add 0 1 (some ()) ()) rfl
  constructor
  · refine meets_append.2 ⟨hfew, fun t ht => ?_⟩
    rw [hs] at ht
    cases ht
    refine meets_cons.2 ⟨by simp [Few, hnil], fun t ht => meets_singleton.2 ?_⟩
    cases ht
    rw [hadd, hnil]
    exact le_rfl
  · intro h
    have hrun : exec step Timers.init twoAfterThousand =
        some (addTimer (addTimer s 0 1 (some ()) ()).2 0 1 (some ()) ()).2 := by
      rw [twoAfterThousand, exec_append, hs]
      rfl
    have hd := (h.last hrun).distinct
    rw [← keys_map_fst, hi'.keys_addTimer, hi.keys_addTimer, hadd, Timers.keys, hnil] at hd
    have hle : 1000 ≤ s.calls := by omega
    simp [idOf_exhausted hle, idOf_exhausted (Nat.le_succ_of_le hle)] at hd

end GzOS.SystemTimer
