import GzOS.Runs
import Mathlib.Order.Bounds.Basic
import Mathlib.Tactic.Ring

/-!
# The millisecond clock

The processor raises an interrupt when its count equals a second register, which the
handler moves on by whole milliseconds until it is at least a millisecond ahead. The
true count of ticks is a natural number of which the register holds the last 32 bits.
-/
namespace GzOS.Clock

open Runs Nat BitVec

@[irreducible] def ticksPerMs : ℕ := 100000

lemma ticksPerMs_bounds : 0 < ticksPerMs ∧ ticksPerMs < 2 ^ 20 := by
  unfold ticksPerMs
  decide

structure State where
  compare : BitVec 32
  timerMsCount : BitVec 64

/-- `clock_init`, which also sets the count to zero. -/
def clockInit : State := ⟨BitVec.ofNat 32 ticksPerMs, 0⟩

def diff (compare count : BitVec 32) : ℤ := (compare - count).toInt

lemma diff_add {compare count : BitVec 32} (h : diff compare count < ticksPerMs) :
    diff (compare + BitVec.ofNat 32 ticksPerMs) count = diff compare count + ticksPerMs := by
  have hlow := le_two_mul_toInt (x := compare - count)
  have hT := ticksPerMs_bounds
  simp only [diff] at h ⊢
  have hcomm : compare + BitVec.ofNat 32 ticksPerMs - count =
      (compare - count) + BitVec.ofNat 32 ticksPerMs := by bv_omega
  rw [hcomm, toInt_add, toInt_ofNat']
  rw [Int.add_bmod_bmod, Int.bmod_eq_of_le (by omega) (by omega)]

/-- The loop that catches up with the ticks that were missed. -/
def catchUp (count : BitVec 32) (c : State) : State :=
  if h : diff c.compare count < ticksPerMs then
    catchUp count ⟨c.compare + BitVec.ofNat 32 ticksPerMs, c.timerMsCount + 1⟩
  else c
termination_by (ticksPerMs - diff c.compare count).toNat
decreasing_by
  have hT := ticksPerMs_bounds
  rw [diff_add h]
  omega

/-- An early interrupt is ignored. -/
def hwIrq7 (c : State) (count : BitVec 32) : State :=
  if diff c.compare count > 0 then c else catchUp count c

/-! ## True time -/

structure Timeline where
  clock : State
  now : ℕ

def Timeline.boot : Timeline := ⟨clockInit, 0⟩

def Timeline.due (s : Timeline) : ℕ := s.now + (s.clock.compare - BitVec.ofNat 32 s.now).toNat

def interrupt (s : Timeline) (t : ℕ) : Option Timeline :=
  some ⟨hwIrq7 s.clock (BitVec.ofNat 32 t), t⟩

/-- It is taken early, or late by less than half the range of the count. -/
def Timely (s : Timeline) (t : ℕ) : Prop := s.now ≤ t ∧ t + ticksPerMs < s.due + 2 ^ 31

structure Exact (c : State) (t : ℕ) : Prop where
  compare : c.compare = BitVec.ofNat 32 ((c.timerMsCount.toNat + 1) * ticksPerMs)
  least : IsLeast {m : ℕ | t ≤ m * ticksPerMs} c.timerMsCount.toNat
  error : c.timerMsCount.toNat * ticksPerMs < t + ticksPerMs

/-- Interrupts are handled when the compare value is due, and the clock then is exact. -/
structure Tracks (s : Timeline) (t : ℕ) : Prop where
  handled : diff s.clock.compare (BitVec.ofNat 32 t) ≤ 0 ↔ s.due ≤ t
  exact : diff s.clock.compare (BitVec.ofNat 32 t) ≤ 0 → ∀ s', interrupt s t = some s' →
    Exact s'.clock t
  monotone : ∀ s', interrupt s t = some s' →
    s.clock.timerMsCount.toNat ≤ s'.clock.timerMsCount.toNat

/-! ## Milliseconds without a limit -/

def msCeil (t : ℕ) : ℕ := (t + (ticksPerMs - 1)) / ticksPerMs

lemma msCeil_le {t m : ℕ} : msCeil t ≤ m ↔ t ≤ m * ticksPerMs := by
  have hT := ticksPerMs_bounds
  rw [msCeil, ← Nat.lt_add_one_iff, Nat.div_lt_iff_lt_mul hT.1, add_one_mul]
  omega

lemma msCeil_mul_lt (t : ℕ) : msCeil t * ticksPerMs < t + ticksPerMs := by
  have hT := ticksPerMs_bounds
  have := div_mul_le_self (t + (ticksPerMs - 1)) ticksPerMs
  simp only [msCeil]
  omega

lemma msCeil_mul (m : ℕ) : msCeil (m * ticksPerMs) = m := by
  have hT := ticksPerMs_bounds
  refine le_antisymm (msCeil_le.2 le_rfl) ?_
  exact le_of_mul_le_mul_right (msCeil_le.1 le_rfl) hT.1

def shows (m : ℕ) : State := ⟨BitVec.ofNat 32 ((m + 1) * ticksPerMs), BitVec.ofNat 64 m⟩

lemma diff_shows {m t : ℕ} (hlate : t ≤ (m + 1) * ticksPerMs + 2 ^ 31)
    (hearly : (m + 1) * ticksPerMs < t + 2 ^ 31) :
    diff (shows m).compare (BitVec.ofNat 32 t) = ((m + 1) * ticksPerMs : ℕ) - t := by
  simp only [diff, shows]
  rw [BitVec.toInt_sub, BitVec.toInt_ofNat', BitVec.toInt_ofNat', Int.bmod_sub_bmod,
    Int.sub_bmod_bmod, Int.bmod_eq_of_le]
  · omega
  · omega

lemma shows_succ (m : ℕ) : State.mk ((shows m).compare + BitVec.ofNat 32 ticksPerMs)
    ((shows m).timerMsCount + 1) = shows (m + 1) := by
  simp only [shows, State.mk.injEq]
  constructor
  · rw [← BitVec.ofNat_add]
    congr 1
    ring
  · exact (BitVec.ofNat_add ..).symm

lemma catchUp_shows (m t : ℕ) (hlate : t ≤ (m + 1) * ticksPerMs + 2 ^ 31)
    (hm : m ≤ msCeil t) : catchUp (BitVec.ofNat 32 t) (shows m) = shows (msCeil t) := by
  have hT := ticksPerMs_bounds
  have hlt := msCeil_mul_lt t
  -- induction on the milliseconds that are missing
  induction hd : msCeil t - m generalizing m with
  | zero =>
    obtain rfl : m = msCeil t := by omega
    have hle := msCeil_le.1 (le_refl (msCeil t))
    have hdiff := diff_shows hlate (by rw [add_one_mul]; omega)
    rw [catchUp, dif_neg]
    rw [hdiff, add_one_mul]
    omega
  | succ d ih =>
    have hmore : ¬ t ≤ m * ticksPerMs := fun h => by
      have := msCeil_le.2 h
      omega
    have hdiff := diff_shows hlate (by rw [add_one_mul]; omega)
    rw [catchUp, dif_pos, shows_succ]
    · refine ih (m + 1) ?_ (by omega) (by omega)
      rw [add_one_mul]
      omega
    · rw [hdiff, add_one_mul]
      omega

structure Shows (s : Timeline) (m : ℕ) : Prop where
  clock : s.clock = shows m
  begun : m * ticksPerMs < s.now + ticksPerMs
  next : s.now < (m + 1) * ticksPerMs

variable {s s' : Timeline} {m t : ℕ}

lemma Shows.boot : Shows Timeline.boot 0 := by
  have hT := ticksPerMs_bounds
  constructor
  · simp [Timeline.boot, clockInit, shows]
  · simp [hT.1]
  · simp [Timeline.boot, hT.1]

lemma Shows.due (h : Shows s m) : s.due = (m + 1) * ticksPerMs := by
  have hT := ticksPerMs_bounds
  have hbegun := h.begun
  have hnext := h.next
  have hdiff := diff_shows (m := m) (t := s.now) (by omega) (by rw [add_one_mul]; omega)
  rw [Clock.diff, toInt_eq_toNat_cond] at hdiff
  rw [Timeline.due, h.clock]
  split at hdiff <;> omega

lemma Shows.diff (h : Shows s m) (ht : Timely s t) :
    diff s.clock.compare (BitVec.ofNat 32 t) = (s.due : ℤ) - t := by
  have hT := ticksPerMs_bounds
  have hbegun := h.begun
  obtain ⟨hnow, hlate⟩ := ht
  rw [h.due] at hlate ⊢
  rw [h.clock, diff_shows (by omega) (by rw [add_one_mul]; omega)]

lemma Shows.hwIrq7 (h : Shows s m) (ht : Timely s t) :
    hwIrq7 s.clock (BitVec.ofNat 32 t) = shows (if s.due ≤ t then msCeil t else m) := by
  have hT := ticksPerMs_bounds
  have hdiff := h.diff ht
  unfold Clock.hwIrq7
  by_cases hdue : s.due ≤ t
  · have hlate := ht.2
    rw [if_neg (by omega), if_pos hdue, h.clock]
    rw [h.due] at hdue hlate
    refine catchUp_shows m t (by omega) ?_
    have hle : ¬ msCeil t ≤ m := by
      rw [msCeil_le]
      rw [add_one_mul] at hdue
      omega
    omega
  · rw [if_pos (by omega), if_neg hdue, h.clock]

lemma Shows.step (h : Shows s m) (ht : Timely s t) (hs : interrupt s t = some s') :
    Shows s' (if s.due ≤ t then msCeil t else m) := by
  have hT := ticksPerMs_bounds
  have hdue := h.due
  cases hs
  refine ⟨h.hwIrq7 ht, ?_, ?_⟩
  · split
    · exact msCeil_mul_lt t
    have := h.begun
    have := ht.1
    simp only
    omega
  · split
    · have := msCeil_le.1 (le_refl (msCeil t))
      simp only [add_one_mul]
      omega
    · simp only
      omega

lemma Shows.tracks (h : Shows s m) (ht : Timely s t) (hmax : t ≤ (2 ^ 64 - 1) * ticksPerMs) :
    Tracks s t := by
  have hdiff := h.diff ht
  have hceil := msCeil_le.2 hmax
  have hms : (shows (msCeil t)).timerMsCount.toNat = msCeil t := by
    simp only [shows, BitVec.toNat_ofNat]
    omega
  constructor
  case handled => omega
  case exact =>
    intro hhandled s' hs
    have hclock := (h.step ht hs).clock
    rw [if_pos (by omega)] at hclock
    rw [hclock]
    refine ⟨?_, ?_, ?_⟩
    · rw [hms]
      rfl
    · rw [hms]
      exact ⟨msCeil_le.1 le_rfl, fun k hk => msCeil_le.2 hk⟩
    · rw [hms]
      exact msCeil_mul_lt t
  case monotone =>
    intro s' hs
    rw [(h.step ht hs).clock, h.clock]
    split
    case isTrue hdue =>
      have hle : ¬ msCeil t ≤ m := by
        have hT := ticksPerMs_bounds
        rw [h.due, add_one_mul] at hdue
        rw [msCeil_le]
        omega
      simp only [shows, BitVec.toNat_ofNat]
      omega
    case isFalse => exact le_rfl

/-! ## Runs -/

/-- While the milliseconds fit in the counter, the clock does not drift. -/
theorem clock_tracks (times : List ℕ)
    (h : Meets interrupt (fun s t => Timely s t ∧ t ≤ (2 ^ 64 - 1) * ticksPerMs)
      Timeline.boot times) :
    Meets interrupt Tracks Timeline.boot times := by
  have hinv : Always interrupt (fun s => ∃ m, Shows s m) Timeline.boot times :=
    always_of_meets (fun s t s' ⟨m, hm⟩ hg hs' => ⟨_, hm.step hg.1 hs'⟩) ⟨0, Shows.boot⟩ h
  refine h.mono hinv ?_
  rintro s t ⟨m, hm⟩ ⟨ht, hmax⟩
  exact hm.tracks ht hmax

lemma Shows.timely (h : Shows s m) (hnow : s.now ≤ t) (hlate : t < m * ticksPerMs + 2 ^ 31) :
    Timely s t := by
  refine ⟨hnow, ?_⟩
  rw [h.due, add_one_mul]
  omega

/-- An early interrupt, and one that is three milliseconds late. -/
theorem clock_tracks_late : Meets interrupt Tracks Timeline.boot [5, 400001] := by
  have hT : ticksPerMs = 100000 := by
    unfold ticksPerMs
    rfl
  refine clock_tracks _ (meets_cons.2 ⟨?_, fun s hs => meets_cons.2 ⟨?_, fun t _ => ?_⟩⟩)
  · exact ⟨Shows.boot.timely (zero_le _) (by omega), by omega⟩
  · have h := Shows.boot.step (Shows.boot.timely (zero_le 5) (by omega)) hs
    have hnow : s.now = 5 := by rw [← Option.some.inj hs]
    exact ⟨h.timely (by omega) (by omega), by omega⟩
  · exact meets_nil _ _ _

def onTime (n : ℕ) : List ℕ := (List.range n).map fun i => (i + 1) * ticksPerMs

lemma onTime_succ (n : ℕ) : onTime (n + 1) = onTime n ++ [(n + 1) * ticksPerMs] := by
  simp [onTime, List.range_succ]

lemma shows_onTime (n : ℕ) : Shows ⟨shows n, n * ticksPerMs⟩ n := by
  have hT := ticksPerMs_bounds
  refine ⟨rfl, ?_, ?_⟩
  · simp only
    omega
  · simp only [add_one_mul]
    omega

lemma timely_onTime (n : ℕ) : Timely ⟨shows n, n * ticksPerMs⟩ ((n + 1) * ticksPerMs) := by
  have hT := ticksPerMs_bounds
  refine (shows_onTime n).timely ?_ ?_
  · simp only [add_one_mul]
    omega
  · rw [add_one_mul]
    omega

lemma interrupt_onTime (n : ℕ) : interrupt ⟨shows n, n * ticksPerMs⟩ ((n + 1) * ticksPerMs) =
    some ⟨shows (n + 1), (n + 1) * ticksPerMs⟩ := by
  have hdue := (shows_onTime n).due
  rw [interrupt, (shows_onTime n).hwIrq7 (timely_onTime n), if_pos hdue.le, msCeil_mul]

lemma exec_onTime (n : ℕ) : exec interrupt Timeline.boot (onTime n) =
    some ⟨shows n, n * ticksPerMs⟩ := by
  induction n with
  | zero =>
    have hboot := Shows.boot.clock
    simp only [Timeline.boot] at hboot
    simp [onTime, Timeline.boot, hboot]
  | succ n ih =>
    rw [onTime_succ]
    exact exec_concat ih (interrupt_onTime n)

lemma meets_onTime (n : ℕ) : Meets interrupt Timely Timeline.boot (onTime n) := by
  induction n with
  | zero => exact meets_nil _ _ _
  | succ n ih =>
    rw [onTime_succ]
    refine meets_append.2 ⟨ih, fun t ht => meets_singleton.2 ?_⟩
    rw [exec_onTime] at ht
    exact Option.some.inj ht ▸ timely_onTime n

lemma not_tracks_onTime {n : ℕ} (hn : n + 1 = 2 ^ 64) :
    ¬ Meets interrupt Tracks Timeline.boot (onTime (n + 1)) := by
  intro h
  have hT := ticksPerMs_bounds
  rw [onTime_succ] at h
  have htracks := meets_singleton.1 ((meets_append.1 h).2 _ (exec_onTime n))
  have hdue := (shows_onTime n).due
  have hexact := htracks.exact (htracks.handled.2 hdue.le) _ (interrupt_onTime n)
  have hle := hexact.least.1
  simp only [shows, hn, BitVec.toNat_ofNat, Set.mem_ofPred_eq] at hle
  omega

/-- After `2 ^ 64` interrupts in time the millisecond count is zero again. -/
theorem clock_wraps : Meets interrupt Timely Timeline.boot (onTime (2 ^ 64)) ∧
    ¬ Meets interrupt Tracks Timeline.boot (onTime (2 ^ 64)) := by
  have hn : 2 ^ 64 - 1 + 1 = 2 ^ 64 := by norm_num
  exact ⟨meets_onTime _, hn ▸ not_tracks_onTime hn⟩

end GzOS.Clock
