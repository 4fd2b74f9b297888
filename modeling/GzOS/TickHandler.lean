import GzOS.Clock

/-!
# Calls of the tick handler

The handler of the clock interrupt calls the tick handler once. Its loop goes on while
the compare value is less than a millisecond ahead of the count, not only while it is
not ahead at all: an interrupt that is late by a single tick already skips the next
millisecond.
-/
namespace GzOS.Clock
open Runs Nat

structure Ticking where
  line : Timeline
  calls : ℕ

def Ticking.boot : Ticking := ⟨Timeline.boot, 0⟩

def Handled (s : Ticking) (t : ℕ) : Prop := diff s.line.clock.compare (BitVec.ofNat 32 t) ≤ 0

instance (s : Ticking) (t : ℕ) : Decidable (Handled s t) := inferInstanceAs (Decidable (_ ≤ _))

def tick (s : Ticking) (t : ℕ) : Option Ticking :=
  (interrupt s.line t).map fun line => ⟨line, s.calls + if Handled s t then 1 else 0⟩

def Prompt (s : Ticking) (t : ℕ) : Prop := s.line.now ≤ t ∧ t < s.line.due + ticksPerMs

/-- A handled interrupt programs the next millisecond and counts one, and the tick handler
was called as often as a millisecond has ended. -/
structure OneTick (s : Ticking) (t : ℕ) (s' : Ticking) : Prop where
  compare : ∃ k, IsLeast {k : ℕ | t < k * ticksPerMs} k ∧
    s'.line.clock.compare = BitVec.ofNat 32 (k * ticksPerMs)
  count : s'.line.clock.timerMsCount = s.line.clock.timerMsCount + 1
  calls : s'.calls = t / ticksPerMs

def TicksOnce (s : Ticking) (t : ℕ) : Prop :=
  Handled s t → ∀ s', tick s t = some s' → OneTick s t s'

def WithoutDelay (s : Ticking) (t : ℕ) : Prop := Handled s t → t = s.line.due

variable {s s' : Ticking} {m t : ℕ}

lemma Prompt.timely (h : Prompt s t) : Timely s.line t := by
  have hT := ticksPerMs_bounds
  exact ⟨h.1, by have := h.2; omega⟩

lemma handled_iff (hm : Shows s.line m) (h : Prompt s t) : Handled s t ↔ s.line.due ≤ t := by
  have hdiff := hm.diff h.timely
  unfold Handled
  omega

lemma tick_line (h : tick s t = some s') : interrupt s.line t = some s'.line := by
  obtain ⟨line, hline, rfl⟩ := Option.map_eq_some_iff.1 h
  exact hline

lemma tick_calls (h : tick s t = some s') :
    s'.calls = s.calls + if Handled s t then 1 else 0 := by
  obtain ⟨line, _, rfl⟩ := Option.map_eq_some_iff.1 h
  rfl

lemma msCeil_of_late (hlow : (m + 1) * ticksPerMs < t) (hhigh : t < (m + 2) * ticksPerMs) :
    msCeil t = m + 2 := by
  refine le_antisymm (msCeil_le.2 hhigh.le) ?_
  have hmore : ¬ msCeil t ≤ m + 1 := by
    rw [msCeil_le]
    omega
  omega

lemma on_due_of_count (hm : Shows s.line m) (h : Prompt s t) (hhandled : Handled s t)
    (hs : tick s t = some s')
    (hcount : s'.line.clock.timerMsCount = s.line.clock.timerMsCount + 1) :
    t = s.line.due := by
  have hdue := (handled_iff hm h).1 hhandled
  have hclock := (hm.step h.timely (tick_line hs)).clock
  have hlate := h.2
  rw [hm.due] at hdue hlate ⊢
  rw [if_pos (by rw [hm.due]; exact hdue)] at hclock
  by_contra hne
  have hceil : msCeil t = m + 2 := by
    refine msCeil_of_late (by omega) ?_
    rw [add_mul] at hlate ⊢
    omega
  rw [hclock, hm.clock, hceil] at hcount
  simp [shows, BitVec.ofNat_add] at hcount

def Counts (s : Ticking) : Prop := ∃ m, Shows s.line m ∧ s.calls = m

lemma shows_on_due (hm : Shows s.line m) (h : Prompt s t) (hdue : t = s.line.due)
    (hs : tick s t = some s') : Shows s'.line (m + 1) := by
  have hshows := hm.step h.timely (tick_line hs)
  rw [if_pos hdue.ge] at hshows
  have hceil : msCeil t = m + 1 := by rw [hdue, hm.due, msCeil_mul]
  rwa [hceil] at hshows

lemma counts_step (h : Counts s) (hp : Prompt s t) (hd : WithoutDelay s t)
    (hs : tick s t = some s') : Counts s' := by
  obtain ⟨m, hm, hcalls⟩ := h
  by_cases hhandled : Handled s t
  · refine ⟨m + 1, shows_on_due hm hp (hd hhandled) hs, ?_⟩
    rw [tick_calls hs, if_pos hhandled, hcalls]
  have hearly : ¬ s.line.due ≤ t := fun hdue => hhandled ((handled_iff hm hp).2 hdue)
  have hshows := hm.step hp.timely (tick_line hs)
  rw [if_neg hearly] at hshows
  refine ⟨m, hshows, ?_⟩
  rw [tick_calls hs, if_neg hhandled, hcalls, add_zero]

lemma oneTick_on_due (h : Counts s) (hp : Prompt s t) (hdue : t = s.line.due)
    (hhandled : Handled s t) (hs : tick s t = some s') : OneTick s t s' := by
  obtain ⟨m, hm, hcalls⟩ := h
  have hT := ticksPerMs_bounds
  have hshows := shows_on_due hm hp hdue hs
  have ht : t = (m + 1) * ticksPerMs := hdue.trans hm.due
  refine ⟨⟨m + 2, ⟨?_, ?_⟩, ?_⟩, ?_, ?_⟩
  · rw [ht]
    exact mul_lt_mul_of_pos_right (by omega) hT.1
  · intro k hk
    have hlt : (m + 1) * ticksPerMs < k * ticksPerMs := ht ▸ hk
    have := lt_of_mul_lt_mul_right hlt
    omega
  · rw [hshows.clock]
    rfl
  · rw [hshows.clock, hm.clock]
    exact BitVec.ofNat_add ..
  · rw [tick_calls hs, if_pos hhandled, hcalls, ht, Nat.mul_div_cancel _ hT.1]

/-- In every run of prompt interrupts each handled one programs the next millisecond,
counts one and gives it its call exactly if none of them is taken later than it becomes
due. -/
theorem one_tick_iff (times : List ℕ) (h : Meets tick Prompt Ticking.boot times) :
    Meets tick TicksOnce Ticking.boot times ↔ Meets tick WithoutDelay Ticking.boot times := by
  have hinv : Always tick (fun s => ∃ m, Shows s.line m) Ticking.boot times :=
    always_of_meets (fun s t s' ⟨m, hm⟩ hp hs => ⟨_, hm.step hp.timely (tick_line hs)⟩)
      ⟨0, Shows.boot⟩ h
  constructor
  · intro honce pre t hpre s hs hhandled
    obtain ⟨m, hm⟩ := hinv pre ((List.prefix_append _ _).trans hpre) s hs
    have hone := honce pre t hpre s hs hhandled _ rfl
    exact on_due_of_count hm (h pre t hpre s hs) hhandled rfl hone.count
  · intro hdelay
    have hcounts : Always tick Counts Ticking.boot times := by
      refine always_of_meets (G := fun s t => Prompt s t ∧ WithoutDelay s t)
        (fun _ _ _ hi hg hs => counts_step hi hg.1 hg.2 hs) ⟨0, Shows.boot, rfl⟩ ?_
      exact fun pre t hpre s hs => ⟨h pre t hpre s hs, hdelay pre t hpre s hs⟩
    intro pre t hpre s hs hhandled s' hs'
    have hi := hcounts pre ((List.prefix_append _ _).trans hpre) s hs
    exact oneTick_on_due hi (h pre t hpre s hs) (hdelay pre t hpre s hs hhandled) hhandled hs'

lemma boot_due : Ticking.boot.line.due = ticksPerMs := by
  have h := Shows.boot.due
  rw [Nat.one_mul] at h
  exact h

/-- The first two interrupts, in time. -/
theorem one_tick_iff_two :
    Meets tick TicksOnce Ticking.boot [ticksPerMs, 2 * ticksPerMs] := by
  have hT := ticksPerMs_bounds
  have hprompt : Prompt Ticking.boot ticksPerMs :=
    ⟨zero_le _, by rw [boot_due]; omega⟩
  have hsecond {s : Ticking} (hs : tick Ticking.boot ticksPerMs = some s) :
      s.line.due = 2 * ticksPerMs ∧ s.line.now < 2 * ticksPerMs := by
    have hm := shows_on_due Shows.boot hprompt boot_due.symm hs
    exact ⟨hm.due, hm.next⟩
  refine (one_tick_iff _ (meets_cons.2 ⟨hprompt, fun s hs => ?_⟩)).2
    (meets_cons.2 ⟨fun _ => boot_due.symm, fun s hs => ?_⟩)
  · obtain ⟨hdue, hnow⟩ := hsecond hs
    exact meets_singleton.2 ⟨hnow.le, by omega⟩
  · exact meets_singleton.2 fun _ => (hsecond hs).1.symm

/-- The first interrupt, one tick late: it counts two milliseconds with one call. -/
theorem late_tick_counts_twice :
    Prompt Ticking.boot (ticksPerMs + 1) ∧ ∃ s, tick Ticking.boot (ticksPerMs + 1) = some s ∧
      s.line.clock.timerMsCount = 2 ∧ s.calls = 1 ∧
      s.line.clock.compare = BitVec.ofNat 32 (3 * ticksPerMs) := by
  have hlarge : 1 < ticksPerMs := by
    unfold ticksPerMs
    decide
  have hprompt : Prompt Ticking.boot (ticksPerMs + 1) :=
    ⟨zero_le _, by rw [boot_due]; omega⟩
  have hhandled := (handled_iff Shows.boot hprompt).2 (by rw [boot_due]; omega)
  obtain ⟨s, hs⟩ : ∃ s, tick Ticking.boot (ticksPerMs + 1) = some s := ⟨_, rfl⟩
  have hm : Shows Ticking.boot.line 0 := Shows.boot
  have hclock := (hm.step hprompt.timely (tick_line hs)).clock
  have hceil : msCeil (ticksPerMs + 1) = 0 + 2 :=
    msCeil_of_late (by omega) (by omega)
  rw [if_pos (by rw [boot_due]; omega), hceil] at hclock
  refine ⟨hprompt, s, hs, ?_, ?_, ?_⟩
  · rw [hclock]
    rfl
  · rw [tick_calls hs, if_pos hhandled]
    rfl
  · rw [hclock]
    rfl

end GzOS.Clock
