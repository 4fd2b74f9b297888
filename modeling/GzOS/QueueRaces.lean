import GzOS.Runs
import Mathlib.Logic.Function.Basic
import Mathlib.Tactic

/-!
# Bounded queues and their tests

`push` and `pop` of a `basic_queue` test whether the queue is full or empty before they take
its lock, and do not test again under it. In every run in which the tested condition still
holds under the lock, the queue keeps its bound and its order, and so it does when one
thread pushes and one pops.

What the vector grows to when its capacity is exceeded is left open.
-/
namespace GzOS.QueueRaces
open Runs List Option

variable {α : Type}

/-- Where a thread is in its call: it has passed the test, or it makes none. -/
inductive Pc (α : Type)
  | idle
  | pushing (value : α)
  | popping

/-- `inserted` and `popped` are in the order of the locked sections; `underflow`: the front
of an empty vector was taken. -/
structure State (α : Type) where
  data : List α
  capacity : ℕ
  pc : ℕ → Pc α
  inserted : List α := []
  popped : List α := []
  underflow : Bool := false

def State.new (capacity : ℕ) : State α := ⟨[], capacity, fun _ => .idle, [], [], false⟩

inductive Event (α : Type)
  /-- The thread calls `push` and tests `full()`. -/
  | testFull (t : ℕ) (value : α)
  /-- It goes through the locked section. -/
  | pushBack (t : ℕ)
  | testEmpty (t : ℕ)
  | popFront (t : ℕ)

def State.full (s : State α) : Prop := s.capacity = s.data.length

instance (s : State α) : Decidable s.full := inferInstanceAs (Decidable (_ = _))

def State.goTo (s : State α) (t : ℕ) (pc : Pc α) : State α :=
  { s with pc := Function.update s.pc t pc }

/-- `grow` is the policy of the vector. -/
def State.pushBack (grow : ℕ → ℕ) (s : State α) (value : α) : State α :=
  { s with
    data := s.data ++ [value]
    capacity := if s.capacity = s.data.length then grow s.capacity else s.capacity
    inserted := s.inserted ++ [value] }

def State.popFront (s : State α) : State α :=
  match s.data with
  | [] => { s with underflow := true }
  | value :: rest => { s with data := rest, popped := s.popped ++ [value] }

/-- Without waiting: a call that finds the queue full or empty returns false. -/
def step (grow : ℕ → ℕ) (s : State α) (e : Event α) : Option (State α) :=
  if s.underflow then none
  else match e with
    | .testFull t value =>
      match s.pc t with
      | .idle => some (if s.full then s else s.goTo t (.pushing value))
      | _ => none
    | .pushBack t =>
      match s.pc t with
      | .pushing value => some ((s.pushBack grow value).goTo t .idle)
      | _ => none
    | .testEmpty t =>
      match s.pc t with
      | .idle => some (if s.data = [] then s else s.goTo t .popping)
      | _ => none
    | .popFront t =>
      match s.pc t with
      | .popping => some (s.popFront.goTo t .idle)
      | _ => none

/-- The bound is kept, nothing is taken from an empty vector, and the order is kept. -/
structure Safe (c : ℕ) (s : State α) : Prop where
  bound : s.data.length ≤ c
  front : s.underflow = false
  order : s.popped <+: s.inserted

/-- What was tested still holds under the lock. -/
def StillHolds (c : ℕ) (s : State α) : Event α → Prop
  | .pushBack _ => s.data.length < c
  | .popFront _ => s.data ≠ []
  | _ => True

instance (c : ℕ) (s : State α) (e : Event α) : Decidable (StillHolds c s e) := by
  cases e <;> unfold StillHolds <;> infer_instance

variable {grow : ℕ → ℕ} {c : ℕ} {s s' : State α} {t : ℕ}

/-! What one step does. -/

lemma testFull_some {value : α} (h : step grow s (.testFull t value) = some s') :
    s.pc t = .idle ∧ s' = if s.full then s else s.goTo t (.pushing value) := by
  unfold step at h
  split at h
  · cases h
  dsimp only at h
  split at h
  · next hpc => exact ⟨hpc, (some.inj h).symm⟩
  · cases h

lemma pushBack_some (h : step grow s (.pushBack t) = some s') :
    ∃ value, s.pc t = .pushing value ∧ s' = (s.pushBack grow value).goTo t .idle := by
  simp only [step] at h
  split_ifs at h
  split at h
  · next value hpc => exact ⟨value, hpc, (some.inj h).symm⟩
  · cases h

lemma testEmpty_some (h : step grow s (.testEmpty t) = some s') :
    s.pc t = .idle ∧ s' = if s.data = [] then s else s.goTo t .popping := by
  unfold step at h
  split at h
  · cases h
  dsimp only at h
  split at h
  · next hpc => exact ⟨hpc, (some.inj h).symm⟩
  · cases h

lemma popFront_some (h : step grow s (.popFront t) = some s') :
    s.pc t = .popping ∧ s' = s.popFront.goTo t .idle := by
  simp only [step] at h
  split_ifs at h
  split at h
  · next hpc => exact ⟨hpc, (some.inj h).symm⟩
  · cases h

lemma State.popFront_cons {value : α} {rest : List α} (h : s.data = value :: rest) :
    s.popFront = { s with data := rest, popped := s.popped ++ [value] } := by
  simp only [State.popFront, h]

structure Ordered (c : ℕ) (s : State α) : Prop where
  bound : s.data.length ≤ c
  front : s.underflow = false
  order : s.popped ++ s.data = s.inserted

lemma Ordered.safe (h : Ordered c s) : Safe c s := ⟨h.bound, h.front, ⟨s.data, h.order⟩⟩

lemma Ordered.goTo (h : Ordered c s) (t : ℕ) (pc : Pc α) : Ordered c (s.goTo t pc) :=
  ⟨h.bound, h.front, h.order⟩

lemma Ordered.pushBack (h : Ordered c s) (hroom : s.data.length < c) (value : α) :
    Ordered c (s.pushBack grow value) where
  bound := by
    simp only [State.pushBack, length_append, length_singleton]
    omega
  front := h.front
  order := by
    simp [State.pushBack, ← h.order]

lemma Ordered.popFront (h : Ordered c s) (hdata : s.data ≠ []) : Ordered c s.popFront := by
  obtain ⟨value, rest, hd⟩ := exists_cons_of_ne_nil hdata
  rw [State.popFront_cons hd]
  have hbound := h.bound
  have horder := h.order
  rw [hd] at hbound horder
  exact ⟨Nat.le_of_succ_le hbound, h.front, by simpa using horder⟩

lemma ordered_step {e : Event α} (h : Ordered c s) (hs : step grow s e = some s') :
    (StillHolds c s e → Ordered c s') ∧ (Safe c s' → StillHolds c s e) := by
  cases e with
  | testFull t value =>
    obtain ⟨-, rfl⟩ := testFull_some hs
    refine ⟨fun _ => ?_, fun _ => trivial⟩
    split_ifs
    · exact h
    · exact h.goTo t _
  | pushBack t =>
    obtain ⟨value, -, rfl⟩ := pushBack_some hs
    refine ⟨fun hroom => (h.pushBack hroom value).goTo t _, fun hsafe => ?_⟩
    have hbound := hsafe.bound
    simp only [State.goTo, State.pushBack, length_append] at hbound
    exact hbound
  | testEmpty t =>
    obtain ⟨-, rfl⟩ := testEmpty_some hs
    refine ⟨fun _ => ?_, fun _ => trivial⟩
    split_ifs
    · exact h
    · exact h.goTo t _
  | popFront t =>
    obtain ⟨-, rfl⟩ := popFront_some hs
    refine ⟨fun hdata => (h.popFront hdata).goTo t _, fun hsafe hnil => ?_⟩
    have hfront := hsafe.front
    simp only [State.popFront, hnil] at hfront
    cases hfront

lemma ordered_new (c : ℕ) : Ordered c (State.new c : State α) := ⟨Nat.zero_le c, rfl, rfl⟩

/-- In every interleaving of any number of producers and consumers, the queue keeps
its bound, its elements and its order exactly if what each of them tested still holds
when it has the lock. -/
theorem queue_safe_iff (grow : ℕ → ℕ) (c : ℕ) (events : List (Event α)) {u : State α}
    (hrun : exec (step grow) (State.new c) events = some u) :
    Always (step grow) (Safe c) (State.new c) events ↔
      Meets (step grow) (StillHolds c) (State.new c) events :=
  always_iff_meets (fun _ h => h.safe) (fun _ _ _ h hs => ordered_step h hs) (ordered_new c) hrun

/-- The growth of the standard library's vector. -/
def doubling (n : ℕ) : ℕ := n + max n 1

/-- A producer and a consumer take turns. -/
theorem queue_safe_iff_turns :
    Always (step doubling) (Safe 1) (State.new 1 : State ℕ)
      [.testFull 0 7, .pushBack 0, .testEmpty 1, .popFront 1] := by
  refine (queue_safe_iff doubling 1 _ rfl).2 ?_
  exact meets_of_check (by decide)

/-- Two producers pass the test for the last free place, and two consumers that for
the last element. -/
theorem queue_races : (∃ s : State ℕ, exec (step doubling) (State.new 1)
        [.testFull 0 7, .testFull 1 8, .pushBack 0, .pushBack 1] = some s ∧ s.data = [7, 8]) ∧
      ∃ s : State ℕ, exec (step doubling) (State.new 1)
        [.testFull 0 7, .pushBack 0, .testEmpty 1, .testEmpty 2, .popFront 1, .popFront 2] =
          some s ∧ s.underflow = true :=
  ⟨⟨_, rfl, rfl⟩, _, rfl, rfl⟩

/-! One producer and one consumer. -/

def OneEach (p q : ℕ) : Event α → Prop
  | .testFull t _ | .pushBack t => t = p
  | .testEmpty t | .popFront t => t = q

structure Reserved (c p q : ℕ) (s : State α) : Prop extends Ordered c s where
  capacity : s.capacity = c
  room : ∀ value, s.pc p = .pushing value → s.data.length < c
  element : s.pc q = .popping → s.data ≠ []

lemma State.goTo_pc (s : State α) (t u : ℕ) (pc : Pc α) :
    (s.goTo t pc).pc u = if u = t then pc else s.pc u := by
  simp [State.goTo, Function.update_apply]

/-- Only the producer adds an element, and only the consumer takes one away. -/
lemma reserved_step {p q : ℕ} {e : Event α} (h : Reserved c p q s) (he : OneEach p q e)
    (hs : step grow s e = some s') : Reserved c p q s' := by
  cases e with
  | testFull t value =>
    obtain ⟨-, rfl⟩ := testFull_some hs
    split_ifs with hfull
    · exact h
    refine ⟨h.goTo t _, h.capacity, fun _ _ => ?_, fun hpop => ?_⟩
    · have hbound := h.bound
      have hne : s.capacity ≠ s.data.length := hfull
      rw [h.capacity] at hne
      exact Nat.lt_of_le_of_ne hbound hne.symm
    · rw [State.goTo_pc] at hpop
      split_ifs at hpop
      exact h.element hpop
  | pushBack t =>
    obtain ⟨value, hpc, rfl⟩ := pushBack_some hs
    obtain rfl : t = p := he
    have hroom := h.room value hpc
    refine ⟨(h.pushBack hroom value).goTo t _, ?_, fun v hv => ?_, fun _ => ?_⟩
    · have hne : s.capacity ≠ s.data.length := by
        rw [h.capacity]
        exact hroom.ne'
      show (if s.capacity = s.data.length then grow s.capacity else s.capacity) = c
      rw [if_neg hne, h.capacity]
    · rw [State.goTo_pc, if_pos rfl] at hv
      cases hv
    · simp [State.goTo, State.pushBack]
  | testEmpty t =>
    obtain ⟨-, rfl⟩ := testEmpty_some hs
    split_ifs with hnil
    · exact h
    refine ⟨h.goTo t _, h.capacity, fun value hpush => ?_, fun _ => hnil⟩
    rw [State.goTo_pc] at hpush
    split_ifs at hpush
    exact h.room value hpush
  | popFront t =>
    obtain ⟨hpc, rfl⟩ := popFront_some hs
    obtain rfl : t = q := he
    have hdata := h.element hpc
    have hordered := h.popFront hdata
    obtain ⟨value, rest, hd⟩ := exists_cons_of_ne_nil hdata
    rw [State.popFront_cons hd] at hordered ⊢
    refine ⟨hordered.goTo t _, h.capacity, fun v _ => ?_, fun hpop => ?_⟩
    · have hbound := h.bound
      rw [hd] at hbound
      exact hbound
    · rw [State.goTo_pc, if_pos rfl] at hpop
      cases hpop

/-- One thread that pushes and one that pops need no lock. -/
theorem safe_one_each {p q : ℕ} {events : List (Event α)} (h : ∀ e ∈ events, OneEach p q e) :
    Always (step grow) (Safe c) (State.new c) events := by
  have hstart : Reserved c p q (State.new c : State α) := by
    refine ⟨ordered_new c, rfl, fun _ hpush => ?_, fun hpop => ?_⟩
    · cases hpush
    · cases hpop
  have hmeets : Meets (step grow) (fun _ e => OneEach p q e) (State.new c : State α) events :=
    fun pre e hpre _ _ => h e (hpre.subset (by simp))
  exact (always_of_meets (fun _ _ _ hi hg hs => reserved_step hi hg hs) hstart hmeets).mono
    fun _ hr => hr.safe

theorem safe_one_each_one_place : Always (step doubling) (Safe 1) (State.new 1 : State ℕ)
    [.testFull 0 7, .pushBack 0, .testEmpty 1, .testFull 0 8, .popFront 1] :=
  safe_one_each (p := 0) (q := 1) (by simp [OneEach])

end GzOS.QueueRaces
