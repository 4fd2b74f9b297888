import GzOS.MapOrder
import GzOS.Runs

/-!
# Disjoint regions

The regions of a process stay disjoint as long as every explicit creation asks for a free
place and no region is created after one has been destroyed: a removed entry stays in the
splay tree, which then no longer tells where the next one belongs. Neither half is ensured:
a file is only checked section by section, and the stack of an ended thread is destroyed.
-/
namespace GzOS.Vm
open Bindings Runs ProcessMemoryMap Option

def VmMap.Apart (map : VmMap) (p q : ℕ) : Prop :=
  map.stop p ≤ map.start q ∨ map.stop q ≤ map.start p

/-- Regions are proper ranges of user space and do not overlap. -/
def RegionsDisjoint (pm : ProcessMemoryMap) : Prop :=
  pm.data.Pairwise pm.map.Apart ∧
    ∀ p ∈ pm.data, pm.map.start p < pm.map.stop p ∧ pmapStart ≤ pm.map.start p ∧
      pm.map.stop p ≤ pmapEnd

/-- A new region has a free place, nothing has been removed, and the size of a search does
not wrap around. -/
def CreatesApart (pm : ProcessMemoryMap) : Event → Prop
  | .create r _ => pm.get r.name = none → pm.map.removed = false ∧ r.start < r.stop ∧
        ∀ p ∈ pm.data, pm.map.stop p ≤ r.start ∨ r.stop ≤ pm.map.start p
  | .createInRange name start size _ _ => pm.get name = none →
      pm.map.removed = false ∧ 0 < size ∧ size < 2 ^ 31 ∧ start + size < 2 ^ 32
  | _ => True

/-! ## The invariant -/

structure Tracked (pm : ProcessMemoryMap) : Prop where
  perm : pm.data.Perm pm.map.list
  inPlace : InPlace pm.map

section
variable {pm pm' : ProcessMemoryMap} {fuel : ℕ}

variable {map : VmMap} {a : Alloc} {o : Option ℕ}

lemma VmMap.Apart.symm {p q : ℕ} (h : map.Apart p q) : map.Apart q p := Or.symm h

lemma Tracked.disjoint (h : Tracked pm) : RegionsDisjoint pm := by
  refine ⟨(h.perm.pairwise_iff VmMap.Apart.symm).2 (h.inPlace.order.imp fun hpq => .inl hpq), ?_⟩
  intro p hp
  have := h.inPlace.proper p (h.perm.mem_iff.1 hp)
  exact ⟨this.1, Nat.zero_le _, this.2⟩

lemma Tracked.create (h : Tracked pm) {r : RegionArgs}
    (hc : pm.get r.name = none → pm.map.removed = false ∧ r.start < r.stop ∧
      ∀ p ∈ pm.data, pm.map.stop p ≤ r.start ∨ r.stop ≤ pm.map.start p)
    (hs : createMemoryRegion fuel pm r a = some (pm', o)) : Tracked pm' := by
  rcases createMemoryRegion_spec hs with rfl | ⟨hnone, h0, hent, map, hnew, hput⟩
  · exact h
  obtain ⟨hrem, hlt, hfree⟩ := hc hnone
  have hmem : ∀ p, p ∈ pm.map.list ↔ p ∈ pm.data := fun p => h.perm.mem_iff.symm
  obtain ⟨hin, hperm⟩ := h.inPlace.newRegion hrem h0 (by rw [hmem]; exact hent) hlt
    (fun p hp => hfree p ((hmem p).1 hp)) hnew
  rcases hput with rfl | ⟨map', hrm, rfl⟩
  · refine ⟨?_, hin⟩
    rw [data, values_insert hnone]
    exact (h.perm.cons _).trans hperm.symm
  · obtain ⟨hin', hlist⟩ := hin.removeEntry hrm
    refine ⟨?_, hin'⟩
    have := hperm.erase a.entry
    rw [List.erase_cons_head] at this
    rw [hlist]
    exact h.perm.trans this.symm

lemma Tracked.createInRange (h : Tracked pm) {name : List Char} {start size : ℕ} {prot : Prot}
    (hc : pm.get name = none →
      pm.map.removed = false ∧ 0 < size ∧ size < 2 ^ 31 ∧ start + size < 2 ^ 32)
    (hs : createMemoryRegionInRange fuel pm name start size prot a = some (pm', o)) :
    Tracked pm' := by
  rcases createMemoryRegionInRange_spec hs with rfl | ⟨addr, hf, hs⟩
  · exact h
  refine h.create (fun hnone => ?_) hs
  obtain ⟨hrem, hpos, hsize, hwrap⟩ := hc hnone
  obtain ⟨hend, hfree⟩ := h.inPlace.findspace_free hsize hwrap hf
  have hu : u32 (addr + size) = addr + size :=
    Nat.mod_eq_of_lt (by unfold pmapEnd at hend; omega)
  rw [hu]
  refine ⟨hrem, by dsimp only; omega, fun p hp => ?_⟩
  exact hfree p (h.perm.mem_iff.1 hp)

lemma Tracked.destroy (h : Tracked pm) {name : List Char}
    (hs : destroyMemoryRegion pm name = some pm') : Tracked pm' := by
  rcases destroyMemoryRegion_spec hs with rfl | ⟨entry, map, hget, hrm, rfl⟩
  · exact h
  obtain ⟨hin, hlist⟩ := h.inPlace.removeEntry hrm
  refine ⟨?_, hin⟩
  have := ((values_perm hget).symm.trans h.perm).erase entry
  rw [List.erase_cons_head] at this
  rw [hlist]
  exact this

lemma Tracked.fault (h : Tracked pm) {addr frame fragment : ℕ} {type : FaultType}
    {b : Bool} (hs : vmPageFault pm.map addr type frame fragment = some (map, b)) :
    Tracked { pm with map } := by
  rcases vmPageFault_spec hs with rfl | ⟨entry, obj, obj', f, pmap, frames, -, -, -, -, rfl, -⟩
  · exact h
  refine ⟨h.perm, h.inPlace.congr rfl rfl rfl fun p _ => ?_⟩
  by_cases hp : p = entry
  · subst hp
    simp [VmMap.set, VmMap.start, VmMap.stop]
  · simp [VmMap.set, VmMap.start, VmMap.stop, hp]

lemma Tracked.step (h : Tracked pm) {ev : Event} (hg : CreatesApart pm ev)
    (hs : step fuel pm ev = some pm') : Tracked pm' := by
  cases ev with
  | create r a =>
    obtain ⟨⟨_, o⟩, h1, rfl⟩ := map_eq_some_iff.1 hs
    exact h.create hg h1
  | createInRange name start size prot a =>
    obtain ⟨⟨_, o⟩, h1, rfl⟩ := map_eq_some_iff.1 hs
    exact h.createInRange hg h1
  | destroy name => exact h.destroy hs
  | extend name endAddr =>
    obtain ⟨⟨_, b⟩, h1, rfl⟩ := map_eq_some_iff.1 hs
    rcases extend_spec h1 with rfl | ⟨entry, map, b, hget, hres, rfl⟩
    · exact h
    · obtain ⟨hin, hlist⟩ := h.inPlace.resize (h.perm.mem_iff.1 (mem_data hget)) hres
      exact ⟨hlist ▸ h.perm, hin⟩
  | fault addr type frame fragment =>
    obtain ⟨⟨_, b⟩, h1, rfl⟩ := map_eq_some_iff.1 hs
    exact h.fault h1

end

instance (pm : ProcessMemoryMap) : DecidablePred (CreatesApart pm) := fun ev => by
  cases ev <;> unfold CreatesApart <;> infer_instance

instance (pm : ProcessMemoryMap) : Decidable (RegionsDisjoint pm) := by
  unfold RegionsDisjoint VmMap.Apart
  infer_instance

/-! ## The regions of a process -/

structure Section where
  name : List Char
  shType : ℕ
  alloc : Bool
  execInstr : Bool
  shAddr : ℕ
  shSize : ℕ

structure Elf where
  eIdent : List ℕ
  eMachine : ℕ
  eType : ℕ
  sections : List Section

/-- `forEachSection` passes over sections of type `SHT_NULL`. -/
def Elf.visited (elf : Elf) : List Section := elf.sections.filter fun sec => sec.shType ≠ 0

def Section.stop (sec : Section) : ℕ := u32 (sec.shAddr + sec.shSize)

def Section.skipped (sec : Section) : Bool := sec.shSize == 0 || !sec.alloc

def readWrite : Prot := ⟨true, true, false⟩

/-- Sections are writable until they are loaded, and stay so. -/
def loadSection (sec : Section) : Option RegionArgs :=
  if sec.skipped then none
  else some ⟨sec.name, sec.shAddr, sec.stop, ⟨true, true, sec.execInstr⟩⟩

/-- The end of the last section named `.bss`, or 0. -/
def getEndAddress (elf : Elf) : ℕ :=
  match (elf.visited.filter fun sec => sec.name = ".bss".toList).getLast? with
  | none => 0
  | some bss => bss.stop

def createHeapRegion (elf : Elf) : RegionArgs :=
  let endAddr := getEndAddress elf
  ⟨"heap".toList, endAddr, u32 (endAddr + pageSize), readWrite⟩

end GzOS.Vm
