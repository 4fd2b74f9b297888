import GzOS.Runs
import Mathlib.Data.List.Pairwise

/-!
# Address space identifiers

`pmap_setup` draws the ASID of a new physical map from a counter of eight bits, and
nothing gives an ASID back. So what bounds a system is the number of maps it ever made.
-/
namespace GzOS.Asids

open Runs List

def maxAsid : BitVec 8 := 0xff

structure Pmap where
  asid : BitVec 8
  pdePage : ℕ
  deriving Repr, DecidableEq

inductive Panic
  | outOfAsids
  | memoryExhausted
  | nullPage
  deriving Repr, DecidableEq

structure State where
  asidCounter : BitVec 8
  kernelPmap : Pmap
  /-- The user maps with the blocks of `mpool` they are in. -/
  pmaps : List (ℕ × Pmap)
  /-- The number of returned calls of `pmap_new`, which the code does not keep. -/
  created : ℕ
  deriving Repr, DecidableEq

def getNewAsid (counter : BitVec 8) : Except Panic (BitVec 8 × BitVec 8) :=
  if counter < maxAsid then .ok (counter, counter + 1) else .error .outOfAsids

/-- Without a page for the directory the code reads through a null pointer. -/
def pmapSetup (counter : BitVec 8) (page : Option ℕ) : Except Panic (Pmap × BitVec 8) :=
  match page with
  | none => .error .nullPage
  | some pdePage => do
    let (asid, counter) ← getNewAsid counter
    .ok (⟨asid, pdePage⟩, counter)

/-- `kmalloc` with `M_ZERO` panics when the pool is full. -/
def pmapNew (s : State) (block page : Option ℕ) : Except Panic State :=
  match block with
  | none => .error .memoryExhausted
  | some block => do
    let (pmap, counter) ← pmapSetup s.asidCounter page
    .ok { s with
      asidCounter := counter
      pmaps := (block, pmap) :: s.pmaps
      created := s.created + 1 }

def pmapDelete (s : State) (block : ℕ) : State := { s with pmaps := s.pmaps.filter (·.1 ≠ block) }

def State.boot (page : ℕ) : State :=
  { asidCounter := 1, kernelPmap := ⟨0, page⟩, pmaps := [], created := 0 }

inductive Event
  /-- With what `kmalloc` and `pm_alloc` return during the call. -/
  | new (block page : Option ℕ)
  | delete (block : ℕ)
  deriving Repr, DecidableEq

/-- A panic ends the run. `kmalloc` returns no block that is in use. -/
def step (s : State) : Event → Option State
  | .new block page =>
    if ∃ m ∈ s.pmaps, block = some m.1 then none else (pmapNew s block page).toOption
  | .delete block => if ∃ m ∈ s.pmaps, m.1 = block then some (pmapDelete s block) else none

def Supplied (s : State) : Event → Prop
  | .new block page => pmapNew s block page ≠ .error .outOfAsids
  | .delete _ => True

def State.asids (s : State) : List (BitVec 8) := s.kernelPmap.asid :: s.pmaps.map (·.2.asid)

def Early (s : State) : Event → Prop
  | .new (some _) (some _) => s.created < 254
  | _ => True

instance (s : State) (a : Event) : Decidable (Supplied s a) := by
  cases a <;> unfold Supplied <;> infer_instance

instance (s : State) (a : Event) : Decidable (Early s a) := by
  unfold Early
  split <;> infer_instance

lemma getNewAsid_eq (c : BitVec 8) :
    getNewAsid c = if c.toNat < 255 then .ok (c, c + 1) else .error .outOfAsids := by
  rfl

lemma pmapNew_eq (s : State) (b p : ℕ) :
    pmapNew s (some b) (some p) = if s.asidCounter.toNat < 255 then
      .ok { s with
        asidCounter := s.asidCounter + 1
        pmaps := (b, ⟨s.asidCounter, p⟩) :: s.pmaps
        created := s.created + 1 }
      else .error .outOfAsids := by
  simp only [pmapNew, pmapSetup, getNewAsid_eq]
  split <;> rfl

structure Counted (s : State) : Prop where
  counter : s.asidCounter.toNat = s.created + 1
  below : ∀ a ∈ s.asids, a.toNat ≤ s.created
  distinct : s.asids.Nodup

lemma Counted.boot (page : ℕ) : Counted (.boot page) where
  counter := rfl
  below := by simp [State.asids, State.boot]
  distinct := by simp [State.asids, State.boot]

variable {s t : State}

lemma Counted.supplied_iff (h : Counted s) (a : Event) : Supplied s a ↔ Early s a := by
  rcases a with ⟨_ | b, _ | p⟩ | b
  case new.some.some =>
    have hc := h.counter
    simp only [Supplied, Early, pmapNew_eq]
    split
    · simp only [ne_eq, reduceCtorEq, not_false_eq_true, true_iff]
      omega
    · simp only [ne_eq, not_true_eq_false, false_iff]
      omega
  all_goals simp [Supplied, Early, pmapNew, pmapSetup, bind, Except.bind]

lemma Counted.new (h : Counted s) {block page : Option ℕ}
    (ht : pmapNew s block page = .ok t) : Counted t := by
  rcases block with _ | b
  · cases ht
  rcases page with _ | p
  · cases ht
  rw [pmapNew_eq] at ht
  split at ht
  case isFalse => cases ht
  case isTrue hlt =>
    cases ht
    have hc := h.counter
    have hfresh : s.asidCounter ∉ s.asids := by
      intro hin
      have := h.below _ hin
      omega
    have hin : ∀ a, a = s.kernelPmap.asid ∨ a ∈ s.pmaps.map (·.2.asid) ↔ a ∈ s.asids :=
      fun a => mem_cons.symm
    refine ⟨?_, ?_, ?_⟩
    · simp only [BitVec.toNat_add, hc]
      show (s.created + 1 + 1) % 256 = s.created + 1 + 1
      omega
    · intro a ha
      simp only [State.asids, map_cons, mem_cons] at ha
      rw [or_left_comm, hin] at ha
      rcases ha with rfl | ha
      · exact hc.le
      · exact (h.below a ha).trans (Nat.le_succ _)
    · refine (List.Perm.swap _ _ _).nodup_iff.1 ?_
      exact nodup_cons.2 ⟨hfresh, h.distinct⟩

lemma Counted.step {a : Event} (h : Counted s) (ht : step s a = some t) : Counted t := by
  cases a with
  | new block page =>
    simp only [Asids.step] at ht
    split at ht
    · cases ht
    cases hn : pmapNew s block page with
    | error e => simp [hn, Except.toOption] at ht
    | ok u =>
      simp only [hn, Except.toOption, Option.some.injEq] at ht
      exact ht ▸ h.new hn
  | delete b =>
    simp only [Asids.step] at ht
    split at ht
    · cases ht
      have hsub : (pmapDelete s b).asids.Sublist s.asids := (filter_sublist.map _).cons_cons _
      exact ⟨h.counter, fun a ha => h.below a (hsub.subset ha), h.distinct.sublist hsub⟩
    · cases ht

/-- In every run each new ASID is larger than all before it. -/
lemma asids_counted (page : ℕ) (events : List Event) : Always step Counted (.boot page) events :=
  always_of_step (fun _ _ _ h ht => h.step ht) (.boot page) events

/-- Two live maps never share an ASID, and the calls of a run find one exactly
when no more than 254 of them are made, however few maps are live at a time. -/
theorem asids_supplied_iff (page : ℕ) (events : List Event) :
    (Meets step Supplied (.boot page) events ∧
        Always step (fun s => s.asids.Nodup) (.boot page) events) ↔
      Meets step Early (.boot page) events := by
  have hcounted := asids_counted page events
  constructor
  · rintro ⟨h, -⟩
    exact h.mono hcounted fun t a hc => (hc.supplied_iff a).1
  · intro h
    refine ⟨h.mono hcounted fun t a hc => (hc.supplied_iff a).2, ?_⟩
    exact hcounted.mono fun _ hc => hc.distinct

def churn (n : ℕ) : List Event := (replicate n [Event.new (some 0) (some 1), .delete 0]).flatten

/-- Although no more than one map is ever live, the 255th call panics. -/
theorem asids_run_out :
    Meets step (fun s _ => s.pmaps.length ≤ 1) (.boot 0) (churn 255) ∧
      ¬Meets step Supplied (.boot 0) (churn 255) :=
  ⟨meets_of_check (by decide +kernel), not_meets_of_check (by decide +kernel)⟩

end GzOS.Asids
