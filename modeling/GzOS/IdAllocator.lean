import Mathlib.Data.BitVec
import Mathlib.Order.Bounds.Defs
import GzOS.Runs

/-!
# The allocator of small numbers

Processes, threads and timers draw their ids from ranges with one flag for each
number. An exhausted range gives `-1`, which is not a number of any range. The range
test of a number that is given back lets the end of the range through, and so the flag
behind the last one is read.
-/
namespace GzOS

structure IdAllocator where
  start : ℕ
  stop : ℕ
  allocated : List Bool
  deriving Repr, DecidableEq

namespace IdAllocator
open Runs List

def new (start stop : ℕ) : IdAllocator := ⟨start, stop, replicate (stop - start) false⟩

def exhausted : BitVec 32 := -1

def allocate (a : IdAllocator) : BitVec 32 × IdAllocator :=
  match a.allocated.findIdx? (· = false) with
  | some i => (BitVec.ofNat 32 (a.start + i), { a with allocated := a.allocated.set i true })
  | none => (exhausted, a)

/-- After `n` calls, when no number was given back. -/
def after (start size n : ℕ) : IdAllocator :=
  ⟨start, start + size, replicate (min n size) true ++ replicate (size - n) false⟩

lemma new_eq_after (start size : ℕ) : new start (start + size) = after start size 0 := by
  simp [new, after]

lemma allocate_after (start size n : ℕ) : (after start size n).allocate =
    (if n < size then BitVec.ofNat 32 (start + n) else exhausted, after start size (n + 1)) := by
  have htrue : (replicate (min n size) true).findIdx? (· = false) = none := by
    simp
  by_cases h : n < size
  · have hrest : size - n = (size - (n + 1)) + 1 := by omega
    have hfind : (after start size n).allocated.findIdx? (· = false) = some n := by
      rw [after, findIdx?_append, hrest, replicate_succ, findIdx?_cons]
      simp [h.le]
    simp only [allocate, hfind, if_pos h, Prod.mk.injEq]
    refine ⟨rfl, ?_⟩
    simp only [after]
    rw [set_append, length_replicate, if_neg (by omega), hrest, replicate_succ,
       Nat.min_eq_left h.le, Nat.min_eq_left h, Nat.sub_self,  replicate_succ', append_assoc]
    rfl
  · have hnone : size - n = 0 := by omega
    have hnone' : size - (n + 1) = 0 := by omega
    have hmin : min n size = min (n + 1) size := by omega
    have hfind : (after start size n).allocated.findIdx? (· = false) = none := by
      rw [after, findIdx?_append, htrue, hnone]
      rfl
    simp only [allocate, hfind, if_neg h]
    simp only [after, hnone, hnone', hmin]

/-- `none` when the flags are indexed at or beyond their size. -/
def isAllocated (a : IdAllocator) (id : BitVec 32) : Option Bool :=
  if a.start ≤ id.toNat ∧ id.toNat ≤ a.stop then a.allocated[id.toNat - a.start]? else some false

def deallocate (a : IdAllocator) (id : BitVec 32) : Option IdAllocator :=
  (a.isAllocated id).map fun b =>
    if b then { a with allocated := a.allocated.set (id.toNat - a.start) false } else a

/-- The allocator, and the numbers handed out and not yet given back. -/
structure Ledger where
  ids : IdAllocator
  outstanding : List ℕ := []

inductive Call
  | allocate
  | deallocate (id : BitVec 32)
  deriving DecidableEq

def Ledger.step (s : Ledger) : Call → Option Ledger
  | .allocate =>
    let (id, a) := s.ids.allocate
    some ⟨a, if id = exhausted then s.outstanding else id.toNat :: s.outstanding⟩
  | .deallocate id => (s.ids.deallocate id).map fun a => ⟨a, s.outstanding.erase id.toNat⟩

/-- The flags are set for the outstanding ids, all of the range. -/
structure Tracks (start stop : ℕ) (s : Ledger) : Prop where
  start_eq : s.ids.start = start
  stop_eq : s.ids.stop = stop
  length : s.ids.allocated.length = stop - start
  nodup : s.outstanding.Nodup
  inRange : ∀ id ∈ s.outstanding, start ≤ id ∧ id < stop
  flags : ∀ i, s.ids.allocated[i]? = some true ↔ start + i ∈ s.outstanding

def freeIds (start stop : ℕ) (s : Ledger) : Set ℕ :=
  {id | start ≤ id ∧ id < stop ∧ id ∉ s.outstanding}

/-- What a call does: the least free number or `-1`, and exactly the given number freed. -/
def Answers (start stop : ℕ) (s : Ledger) : Call → Prop
  | .allocate =>
    (s.ids.allocate.1 = exhausted ∧ freeIds start stop s = ∅) ∨
      (s.ids.allocate.1 ≠ exhausted ∧ IsLeast (freeIds start stop s) s.ids.allocate.1.toNat)
  | .deallocate id => ∃ a, s.ids.deallocate id = some a ∧ (id.toNat ∉ s.outstanding → a = s.ids) ∧
      ∀ i < stop - start, a.allocated[i]? =
        if start + i = id.toNat then some false else s.ids.allocated[i]?

variable {start stop : ℕ} {s : Ledger}

lemma Tracks.unset (h : Tracks start stop s) {i : ℕ} (hi : i < stop - start) :
    s.ids.allocated[i]? = some false ↔ start + i ∉ s.outstanding := by
  rw [← h.length] at hi
  rw [← h.flags, getElem?_eq_getElem hi]
  cases s.ids.allocated[i] <;> decide

/-- The two ways `allocate` can end. -/
lemma Tracks.allocate_cases (h : Tracks start stop s) (hlt : stop < 2 ^ 32) :
    (s.ids.allocate = (exhausted, s.ids) ∧ freeIds start stop s = ∅) ∨
      ∃ i < stop - start, IsLeast (freeIds start stop s) (start + i) ∧ ∃ id : BitVec 32,
        id ≠ exhausted ∧ id.toNat = start + i ∧ s.ids.allocate =
          (id, { s.ids with allocated := s.ids.allocated.set i true }) := by
  unfold allocate
  cases hf : s.ids.allocated.findIdx? (· = false) with
  | none =>
    refine .inl ⟨rfl, Set.eq_empty_of_forall_notMem ?_⟩
    rintro id ⟨hge, hid, hnot⟩
    obtain ⟨i, rfl⟩ := Nat.exists_eq_add_of_le hge
    have hfalse := mem_of_getElem? ((h.unset (by omega)).2 hnot)
    simpa using findIdx?_eq_none_iff.1 hf _ hfalse
  | some i =>
    obtain ⟨hi, hfalse, hbefore⟩ := findIdx?_eq_some_iff_getElem.1 hf
    rw [h.length] at hi
    have hto : (BitVec.ofNat 32 (start + i)).toNat = start + i := by
      rw [BitVec.toNat_ofNat, Nat.mod_eq_of_lt (by omega)]
    refine .inr ⟨i, hi, ⟨⟨by omega, by omega, ?_⟩, ?_⟩, _, ?_, hto, by simp only [h.start_eq]⟩
    · exact (h.unset hi).1 (List.getElem?_eq_some_iff.2 ⟨_, by simpa using hfalse⟩)
    · rintro id ⟨hge, hid, hnot⟩
      obtain ⟨j, rfl⟩ := Nat.exists_eq_add_of_le hge
      by_contra hj
      have hset := hbefore j (by omega)
      have hfree := (h.unset (by omega)).2 hnot
      rw [List.getElem?_eq_some_iff] at hfree
      simp [hfree.2] at hset
    · intro he
      have hmax := congrArg BitVec.toNat he
      rw [show exhausted.toNat = 2 ^ 32 - 1 from by decide] at hmax
      omega

lemma Tracks.allocate (h : Tracks start stop s) (hlt : stop < 2 ^ 32) :
    ∃ t, s.step .allocate = some t ∧ Tracks start stop t := by
  obtain ⟨he, -⟩ | ⟨i, hi, hleast, id, hne, hto, he⟩ := h.allocate_cases hlt
  · exact ⟨s, by simp [Ledger.step, he], h⟩
  refine ⟨⟨{ s.ids with allocated := s.ids.allocated.set i true }, (start + i) :: s.outstanding⟩,
    by simp only [Ledger.step, he, if_neg hne, hto], ?_⟩
  refine ⟨h.start_eq, h.stop_eq, by simpa using h.length,
    nodup_cons.2 ⟨hleast.1.2.2, h.nodup⟩, ?_, fun j => ?_⟩
  · exact forall_mem_cons.2 ⟨⟨by omega, by omega⟩, h.inRange⟩
  · rw [getElem?_set, mem_cons, ← h.flags, h.length, if_pos hi]
    by_cases hij : i = j <;> simp [hij, eq_comm]

/-- Away from the end of the range a number is read inside the flags. -/
lemma Tracks.isAllocated (h : Tracks start stop s) {id : BitVec 32} (hid : id.toNat ≠ stop) :
    s.ids.isAllocated id = some (decide (id.toNat ∈ s.outstanding)) := by
  unfold IdAllocator.isAllocated
  rw [h.start_eq, h.stop_eq]
  split
  case isTrue hin =>
    obtain ⟨i, hi⟩ := Nat.exists_eq_add_of_le hin.1
    rw [hi]
    by_cases hmem : start + i ∈ s.outstanding
    · simp [hmem, (h.flags i).2 hmem]
    · simp [hmem, (h.unset (by omega)).2 hmem]
  case isFalse hout =>
    have hmem : id.toNat ∉ s.outstanding := by
      intro hmem
      have hin := h.inRange _ hmem
      omega
    simp [hmem]

lemma Tracks.deallocate (h : Tracks start stop s) {id : BitVec 32} (hid : id.toNat ≠ stop) :
    Answers start stop s (.deallocate id) ∧
      ∃ t, s.step (.deallocate id) = some t ∧ Tracks start stop t := by
  by_cases hmem : id.toNat ∈ s.outstanding
  · have hin := h.inRange _ hmem
    obtain ⟨i, hi⟩ := Nat.exists_eq_add_of_le hin.1
    have hd : s.ids.deallocate id =
        some { s.ids with allocated := s.ids.allocated.set i false } := by
      have hsub : id.toNat - s.ids.start = i := by
        rw [h.start_eq]
        omega
      simp [IdAllocator.deallocate, h.isAllocated hid, hmem, hsub]
    refine ⟨⟨_, hd, fun hnot => absurd hmem hnot, fun j hj => ?_⟩,
      ⟨_, s.outstanding.erase id.toNat⟩, by rw [Ledger.step, hd]; rfl, ?_⟩
    · rw [getElem?_set, h.length, if_pos (by omega : i < _), hi]
      simp only [Nat.add_left_cancel_iff, eq_comm]
    refine ⟨h.start_eq, h.stop_eq, by simpa using h.length, h.nodup.erase _,
      fun j hj => h.inRange j (mem_of_mem_erase hj), fun j => ?_⟩
    rw [getElem?_set, h.nodup.mem_erase_iff, ← h.flags, h.length, hi, ne_eq]
    by_cases hij : i = j <;> simp [hij, eq_comm]
  · have hd : s.ids.deallocate id = some s.ids := by
      simp [IdAllocator.deallocate, h.isAllocated hid, hmem]
    refine ⟨⟨_, hd, fun _ => rfl, fun j hj => ?_⟩, s, ?_, h⟩
    · split
      case isTrue he => exact (h.unset hj).2 (he ▸ hmem)
      case isFalse => rfl
    · rw [Ledger.step, hd, Option.map_some, erase_of_not_mem hmem]

lemma tracks_new (start stop : ℕ) : Tracks start stop ⟨new start stop, []⟩ where
  start_eq := rfl
  stop_eq := rfl
  length := length_replicate
  nodup := nodup_nil
  inRange := by simp
  flags i := by simp [new, getElem?_replicate]

/-- In every run that never gives back the end of the range. -/
theorem ids_follow_calls (start stop : ℕ) (hlt : stop < 2 ^ 32) (calls : List Call)
    (hend : ∀ c ∈ calls, c ≠ .deallocate (BitVec.ofNat 32 stop)) :
    (∃ t, exec Ledger.step ⟨new start stop, []⟩ calls = some t) ∧
      Always Ledger.step (Tracks start stop) ⟨new start stop, []⟩ calls ∧
      Meets Ledger.step (Answers start stop) ⟨new start stop, []⟩ calls := by
  have hguard : Meets Ledger.step (fun _ c => c ≠ .deallocate (BitVec.ofNat 32 stop))
      ⟨new start stop, []⟩ calls := fun pre c hp _ _ => hend c (hp.subset (by simp))
  have hne {id : BitVec 32} (hid : Call.deallocate id ≠ .deallocate (BitVec.ofNat 32 stop)) :
      id.toNat ≠ stop := by
    rintro rfl
    simp at hid
  have hstep : ∀ s c, Tracks start stop s → c ≠ .deallocate (BitVec.ofNat 32 stop) →
      ∃ t, s.step c = some t ∧ Tracks start stop t := by
    intro s c hs hc
    cases c with
    | allocate => exact hs.allocate hlt
    | deallocate id => exact (hs.deallocate (hne hc)).2
  have hinv := always_of_progress hstep (tracks_new start stop) hguard
  refine ⟨exec_of_meets hstep (tracks_new start stop) hguard, hinv, ?_⟩
  refine hguard.mono hinv fun s c hs hc => ?_
  cases c with
  | allocate =>
    obtain ⟨he, hnone⟩ | ⟨i, -, hleast, id, hid, hto, he⟩ := hs.allocate_cases hlt
    · exact .inl ⟨by rw [he], hnone⟩
    · exact .inr ⟨by rwa [he], by rwa [he, hto]⟩
  | deallocate id => exact (hs.deallocate (hne hc)).1

/-- A range of two numbers, used up, one of them given back and handed out again. -/
theorem ids_follow_calls_sample :
    Always Ledger.step (Tracks 5 7) ⟨new 5 7, []⟩
      [.allocate, .allocate, .allocate, .deallocate 5, .deallocate 4, .deallocate 9, .allocate] :=
  (ids_follow_calls 5 7 (by decide) _ (by decide)).2.1

/-- Giving back 7 reads the third of two flags. -/
theorem end_of_range_out_of_bounds : (new 5 7).isAllocated 7 = none ∧
      ¬ Meets Ledger.step (Answers 5 7) ⟨new 5 7, []⟩ [.allocate, .deallocate 7] := by
  refine ⟨by decide, fun h => ?_⟩
  obtain ⟨a, ha, -⟩ := h [.allocate] (.deallocate 7) (by simp) _ rfl
  cases ha

end IdAllocator

end GzOS
