import GzOS.AddressSpace

/-!
# The end of the heap

The argument of `brk` goes unchecked to the resize of the heap's entry, which asserts
that it is aligned and not below the end of the entry. What is left is safe as long as
the entry after the heap in the list is the next one in memory.
-/
namespace GzOS.Vm
open Runs List Option

def extendHeap (pm : ProcessMemoryMap) (endAddr : ℕ) : Option (ProcessMemoryMap × Bool) :=
  extend pm "heap".toList endAddr

def brk (current : Option ProcessMemoryMap) (pos : ℕ) : Option (Option ProcessMemoryMap × ℤ) :=
  match current with
  | none => some (none, -1)
  | some pm => (extendHeap pm pos).map fun r => (some r.1, if r.2 then 0 else -1)

structure Extended (pm pm' : ProcessMemoryMap) (heap pos : ℕ) : Prop where
  start : pm'.map.start heap = pm.map.start heap
  covers : pos ≤ pm'.map.stop heap
  disjoint : RegionsDisjoint pm'
  regions : pm'.regions = pm.regions
  others : ∀ p, p ≠ heap → pm'.map.entries p = pm.map.entries p

/-- The heap is extended and nothing else changes, or nothing does. -/
def BrkSafe (pm : ProcessMemoryMap) (heap pos : ℕ) : Prop :=
  ∃ pm' result, brk (some pm) pos = some (some pm', result) ∧
    (result = 0 ∧ Extended pm pm' heap pos ∨ result = -1 ∧ pm' = pm)

def VmMap.limit (map : VmMap) (entry : ℕ) : ℕ := (nextOf map.list entry).elim pmapEnd map.start

def Clear (pm : ProcessMemoryMap) (heap pos : ℕ) : Prop :=
  pos ≤ pmapEnd ∧ ∀ p ∈ pm.data, p ≠ heap → pm.map.stop p ≤ pm.map.start heap ∨ pos ≤ pm.map.start p

section
variable {map : VmMap} {pm : ProcessMemoryMap} {entry heap pos : ℕ}

lemma vmMapResize_grow (halign : isAligned pos) (hgrow : map.stop entry < pos) :
    vmMapResize map entry pos = if map.limit entry < pos then some (map, false)
      else some (map.set entry { map.entries entry with stop := pos }, true) := by
  rw [vmMapResize, if_pos ⟨halign, hgrow.le⟩]
  simp only [if_pos hgrow, VmMap.limit]
  congr 2
  cases nextOf map.list entry <;> rfl

def extended (pm : ProcessMemoryMap) (heap pos : ℕ) : ProcessMemoryMap :=
  { pm with map := pm.map.set heap { pm.map.entries heap with stop := pos } }

lemma extended_start (p : ℕ) : (extended pm heap pos).map.start p = pm.map.start p := by
  by_cases hp : p = heap
  · subst hp
    simp [extended, VmMap.set, VmMap.start]
  · simp [extended, VmMap.set, VmMap.start, hp]

lemma extended_stop_self : (extended pm heap pos).map.stop heap = pos := by
  simp [extended, VmMap.set, VmMap.stop]

lemma extended_stop {p : ℕ} (hp : p ≠ heap) :
    (extended pm heap pos).map.stop p = pm.map.stop p := by
  simp [extended, VmMap.set, VmMap.stop, hp]

lemma brk_eq (hheap : pm.get "heap".toList = some heap)
    (hproper : pm.map.start heap < pm.map.stop heap) : brk (some pm) pos =
    if pm.map.start heap ≤ pos ∧ pos ≤ pm.map.stop heap then some (some pm, 0)
    else if isAligned pos ∧ pm.map.stop heap < pos then
      if pm.map.limit heap < pos then some (some pm, -1) else some (some (extended pm heap pos), 0)
    else none := by
  rw [brk, extendHeap, extend, hheap]
  simp only
  by_cases hmapped : pm.map.start heap ≤ pos ∧ pos ≤ pm.map.stop heap
  · rw [if_pos hmapped, if_pos hmapped]
    rfl
  rw [if_neg hmapped, if_neg hmapped]
  by_cases hgrow : isAligned pos ∧ pm.map.stop heap < pos
  · rw [if_pos hgrow, vmMapResize_grow hgrow.1 hgrow.2]
    by_cases hlimit : pm.map.limit heap < pos
    · rw [if_pos hlimit, if_pos hlimit]
      rfl
    · rw [if_neg hlimit, if_neg hlimit]
      rfl
  · rw [if_neg hgrow, vmMapResize, if_neg]
    · rfl
    · rintro ⟨halign, hle⟩
      have : ¬ pm.map.stop heap < pos := fun hlt => hgrow ⟨halign, hlt⟩
      omega

lemma RegionsDisjoint.nodup (h : RegionsDisjoint pm) : pm.data.Nodup :=
  h.1.imp_of_mem fun {p q} hp _ hpq => by
    rintro rfl
    have := (h.2 p hp).1
    rcases hpq with hpq | hpq <;> omega

lemma pairwise_apart {list : List ℕ} (hnodup : list.Nodup) :
    list.Pairwise map.Apart ↔ ∀ p ∈ list, ∀ q ∈ list, p ≠ q → map.Apart p q := by
  constructor
  · intro hpair p hp q hq hne
    have : Std.Symm map.Apart := ⟨fun _ _ => VmMap.Apart.symm⟩
    exact hpair.forall hp hq hne
  · exact fun hall => hnodup.pairwise_of_forall_ne hall

lemma extended_disjoint_iff (h : RegionsDisjoint pm) (hheap : heap ∈ pm.data)
    (hgrow : pm.map.stop heap < pos) :
    RegionsDisjoint (extended pm heap pos) ↔ Clear pm heap pos := by
  have hself := h.2 heap hheap
  have hapart := (pairwise_apart h.nodup).1 h.1
  constructor
  · rintro ⟨hpair, hrange⟩
    have hall := (pairwise_apart h.nodup).1 hpair
    constructor
    · have := (hrange heap hheap).2.2
      rwa [extended_stop_self] at this
    · intro p hp hne
      have := hall p hp heap hheap hne
      simpa only [VmMap.Apart, extended_start, extended_stop hne, extended_stop_self] using this
  · rintro ⟨hend, hothers⟩
    constructor
    · refine (pairwise_apart h.nodup).2 fun p hp q hq hne => ?_
      simp only [VmMap.Apart, extended_start]
      by_cases hpe : p = heap
      · subst hpe
        rw [extended_stop_self, extended_stop hne.symm]
        exact (hothers q hq hne.symm).symm
      · by_cases hqe : q = heap
        · subst hqe
          rw [extended_stop_self, extended_stop hpe]
          exact hothers p hp hpe
        · rw [extended_stop hpe, extended_stop hqe]
          exact hapart p hp q hq hne
    · intro p hp
      rw [extended_start]
      by_cases hpe : p = heap
      · subst hpe
        rw [extended_stop_self]
        exact ⟨by omega, hself.2.1, hend⟩
      · rw [extended_stop hpe]
        exact h.2 p hp

lemma Tracked.clear (h : Tracked pm) (hheap : heap ∈ pm.data)
    (hgrow : pm.map.stop heap < pos) (hlimit : pos ≤ pm.map.limit heap) : Clear pm heap pos := by
  obtain ⟨k, l, hkl⟩ := append_of_mem (h.perm.mem_iff.1 hheap)
  have hnodup := h.inPlace.nodup
  have horder := h.inPlace.order
  rw [hkl] at hnodup horder
  have hk : heap ∉ k := fun hmem =>
    (nodup_append.1 hnodup).2.2 heap hmem heap mem_cons_self rfl
  obtain ⟨hend, hafter⟩ := h.inPlace.resize_bound hkl hk (.inr hlimit)
  refine ⟨hend, fun p hp hne => ?_⟩
  have hmem : p ∈ k ++ heap :: l := hkl ▸ h.perm.mem_iff.1 hp
  rcases mem_append.1 hmem with hmem | hmem
  · exact .inl ((pairwise_append.1 horder).2.2 p hmem heap mem_cons_self)
  · rcases mem_cons.1 hmem with rfl | hmem
    · exact absurd rfl hne
    · exact .inr (hafter p hmem)

lemma brkSafe_iff (h : RegionsDisjoint pm) (hheap : pm.get "heap".toList = some heap) :
    BrkSafe pm heap pos ↔ pm.map.start heap ≤ pos ∧ pos ≤ pm.map.stop heap ∨
      (pm.map.stop heap < pos ∧ isAligned pos) ∧ (pm.map.limit heap < pos ∨ Clear pm heap pos) := by
  have hmem := mem_data hheap
  have hproper := (h.2 heap hmem).1
  unfold BrkSafe
  rw [brk_eq hheap hproper]
  by_cases hmapped : pm.map.start heap ≤ pos ∧ pos ≤ pm.map.stop heap
  · rw [if_pos hmapped]
    exact iff_of_true ⟨pm, 0, rfl, .inl ⟨rfl, rfl, hmapped.2, h, rfl, fun _ _ => rfl⟩⟩
      (.inl hmapped)
  rw [if_neg hmapped, or_iff_right hmapped]
  by_cases hgrow : isAligned pos ∧ pm.map.stop heap < pos
  swap
  · rw [if_neg hgrow]
    refine iff_of_false ?_ fun hcond => hgrow hcond.1.symm
    rintro ⟨_, _, hnone, -⟩
    cases hnone
  rw [if_pos hgrow, and_iff_right hgrow.symm]
  by_cases hlimit : pm.map.limit heap < pos
  · rw [if_pos hlimit]
    exact iff_of_true ⟨pm, -1, rfl, .inr ⟨rfl, rfl⟩⟩ (.inl hlimit)
  rw [if_neg hlimit, or_iff_right hlimit, ← extended_disjoint_iff h hmem hgrow.2]
  constructor
  · rintro ⟨pm', result, heq, ⟨-, hext⟩ | ⟨rfl, -⟩⟩
    · obtain ⟨hpm, -⟩ := Prod.mk.inj (some.inj heq)
      cases hpm
      exact hext.disjoint
    · exact absurd (Prod.mk.inj (some.inj heq)).2 (by decide)
  · intro hdisjoint
    refine ⟨_, 0, rfl, .inl ⟨rfl, extended_start heap, extended_stop_self.ge, hdisjoint, rfl, ?_⟩⟩
    intro p hp
    exact Function.update_of_ne hp _ _

end

/-- The call is safe exactly for positions in the heap and for aligned ones above it, up to
which the next entry of the list leaves no other region. In a map in order, that is for
all aligned positions above the heap. -/
theorem brk_safe_iff (pm : ProcessMemoryMap) (h : RegionsDisjoint pm) (heap : ℕ)
    (hheap : pm.get "heap".toList = some heap) (pos : ℕ) :
    (BrkSafe pm heap pos ↔ pm.map.start heap ≤ pos ∧ pos ≤ pm.map.stop heap ∨
      (pm.map.stop heap < pos ∧ isAligned pos) ∧ (pm.map.limit heap < pos ∨ Clear pm heap pos)) ∧
    (Tracked pm → (BrkSafe pm heap pos ↔ pm.map.start heap ≤ pos ∧ pos ≤ pm.map.stop heap ∨
      pm.map.stop heap < pos ∧ isAligned pos)) := by
  refine ⟨brkSafe_iff h hheap, fun htracked => ?_⟩
  rw [brkSafe_iff h hheap]
  refine or_congr_right (and_iff_left_of_imp fun hgrow => ?_)
  rcases lt_or_ge (pm.map.limit heap) pos with hlimit | hlimit
  · exact .inl hlimit
  · exact .inr (htracked.clear (mem_data hheap) hgrow.1 hlimit)

def createHeap : Event := .create ⟨"heap".toList, 0x400000, 0x401000, readWrite⟩ ⟨1, true⟩

theorem brk_safe_page : ∃ pm, exec (step 9) (ProcessMemoryMap.new ∅) [createHeap] = some pm ∧
    BrkSafe pm 1 0x402000 := by
  have hrun : (exec (step 9) (ProcessMemoryMap.new ∅) [createHeap]).any (fun pm =>
      decide (RegionsDisjoint pm ∧ pm.get "heap".toList = some 1 ∧ pm.data = [1] ∧
        pm.map.start 1 = 0x400000 ∧ pm.map.stop 1 = 0x401000)) = true := by decide +kernel
  obtain ⟨pm, hpm, hfacts⟩ := (any_eq_true _ _).1 hrun
  obtain ⟨hdisjoint, hheap, hdata, hstart, hstop⟩ := of_decide_eq_true hfacts
  refine ⟨pm, hpm, (brk_safe_iff pm hdisjoint 1 hheap 0x402000).1.2 (.inr ⟨?_, .inr ?_⟩)⟩
  · rw [hstop]
    decide
  · refine ⟨by decide, fun p hp hne => absurd ?_ hne⟩
    rw [hdata] at hp
    exact mem_singleton.1 hp

/-- A stack is created again with the memory of its entry, which is then not in the list. -/
def stackAgain : List Event :=
  [createHeap, .create ⟨"stack#1".toList, 0x500000, 0x504000, readWrite⟩ ⟨2, true⟩,
    .destroy "stack#1".toList, .create ⟨"stack#2".toList, 0x500000, 0x504000, readWrite⟩ ⟨2, true⟩]

/-- A position below the heap and one that is not aligned fail an assertion. And the heap is
extended over a region whose entry is not in the list. -/
theorem brk_unsafe :
    (∃ pm, exec (step 9) (ProcessMemoryMap.new ∅) [createHeap] = some pm ∧ RegionsDisjoint pm ∧
      brk (some pm) 0 = none ∧ brk (some pm) 0x401001 = none) ∧
    ∃ pm pm', exec (step 9) (ProcessMemoryMap.new ∅) stackAgain = some pm ∧
      RegionsDisjoint pm ∧ brk (some pm) 0x600000 = some (some pm', 0) ∧ ¬ RegionsDisjoint pm' := by
  constructor
  · have hrun : (exec (step 9) (ProcessMemoryMap.new ∅) [createHeap]).any (fun pm =>
        decide (RegionsDisjoint pm) && (brk (some pm) 0).isNone &&
          (brk (some pm) 0x401001).isNone) = true := by decide +kernel
    obtain ⟨pm, hpm, hfacts⟩ := (any_eq_true _ _).1 hrun
    simp only [Bool.and_eq_true, decide_eq_true_eq, isNone_iff_eq_none] at hfacts
    obtain ⟨⟨hdisjoint, hlow⟩, hodd⟩ := hfacts
    exact ⟨pm, hpm, hdisjoint, hlow, hodd⟩
  · have hrun : (exec (step 9) (ProcessMemoryMap.new ∅) stackAgain).any (fun pm =>
        decide (RegionsDisjoint pm) && (brk (some pm) 0x600000).any fun r =>
          decide (r.2 = 0) && r.1.any fun pm' => decide (¬ RegionsDisjoint pm')) = true := by
      decide +kernel
    obtain ⟨pm, hpm, hfacts⟩ := (any_eq_true _ _).1 hrun
    rw [Bool.and_eq_true, decide_eq_true_eq] at hfacts
    obtain ⟨hdisjoint, hbrk⟩ := hfacts
    obtain ⟨⟨current, result⟩, hresult, hfacts⟩ := (any_eq_true _ _).1 hbrk
    rw [Bool.and_eq_true, decide_eq_true_eq] at hfacts
    obtain ⟨rfl, hafter⟩ := hfacts
    obtain ⟨pm', rfl, hoverlap⟩ := (any_eq_true _ _).1 hafter
    exact ⟨pm, pm', hpm, hdisjoint, hresult, of_decide_eq_true hoverlap⟩

end GzOS.Vm
