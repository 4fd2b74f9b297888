import GzOS.MapClone

/-!
# Copying one page

The first byte of a page that is not resident faults. The fault gives the page a
new frame and maps it writable, and the remaining bytes go to that frame. Nothing
else changes: no other page, no other frame.
-/
namespace GzOS.Vm
open Function Option Nat

def Entry.gain (e : Entry) (obj : VmObject) (offset frame : ℕ) : Entry :=
  { e with object := some (obj.insert offset frame) }

section
variable {map : VmMap} {addr frame fragment : ℕ} {prot : Prot}

lemma isAligned_mod : isAligned addr ↔ addr % pageSize = 0 := by
  simp [isAligned]

lemma pmapMap_ok (map : VmMap) (ha : isAligned addr) (hend : addr + pageSize ≤ pmapEnd)
    (hfree : translate map.pmap addr = none) (hnew : fragment ∉ map.frames) :
    ∃ map', pmapMap map addr frame prot fragment = some map' ∧
      map'.pmap.pte (pteIndex addr) = userPte frame prot ∧
      ∀ i, i / 1024 ≠ pdeIndex addr → map'.pmap.pte i = map.pmap.pte i := by
  have hmapped : ¬ pmapIsMapped map.pmap addr := fun hm => by simp [translate, hm] at hfree
  have hne : ∀ i, i / 1024 ≠ pdeIndex addr → i ≠ pteIndex addr := fun i hi he =>
    hi (by rw [he, pdeIndex_eq])
  unfold pmapMap
  rw [if_pos ⟨ha, zero_le _, hend⟩, if_neg hmapped, pmapSetPte]
  by_cases hd : (map.pmap.pde (pdeIndex addr)).valid
  · exact ⟨_, by rw [if_pos hd]; rfl, by simp, fun i hi => by simp [hne i hi]⟩
  · exact ⟨_, by rw [if_neg hd, pmAlloc, if_neg hnew]; rfl, by simp,
      fun i hi => by simp [pmapAddPde, hne i hi, hi]⟩

/-- A first touch of a writable page gets a fresh frame, and no other page changes. -/
lemma vmPageFault_ok {entry : ℕ} {obj : VmObject} (type : FaultType)
    (hfind : vmMapFindEntry map addr = some entry) (ha : isAligned addr)
    (hread : (map.entries entry).prot.read)
    (hwrite : (map.entries entry).prot.write)
    (hobj : (map.entries entry).object = some obj) (halign : isAligned (map.start entry))
    (hnone : obj.lookup (addr - map.start entry) = none) (hend : addr + pageSize ≤ pmapEnd)
    (hfree : translate map.pmap addr = none) (hframe : frame ∉ map.frames)
    (hfragment : fragment ∉ insert frame map.frames) :
    ∃ pmap frames, vmPageFault map addr type frame fragment = some ({ map.set entry
        ((map.entries entry).gain obj (addr - map.start entry) frame) with pmap, frames }, true) ∧
      insert frame map.frames ⊆ frames ∧ (pmap.pte (pteIndex addr)).dirty ∧
      (∀ i, i / 1024 ≠ pdeIndex addr → pmap.pte i = map.pmap.pte i) ∧
      ∀ v, translate pmap v =
        if pteIndex v = pteIndex addr then some frame else translate map.pmap v := by
  have hin : map.start entry ≤ addr ∧ addr < map.stop entry := by
    simpa using List.find?_some hfind
  have hmod : addr % pageSize = 0 := isAligned_mod.1 ha
  have hprot : (map.entries entry).prot ≠ Prot.none := fun he => by
    simp [he, Prot.none] at hread
  have hoffset : u32 (addr + 2 ^ 32 - (map.entries entry).start) = addr - map.start entry := by
    have hbound : addr < 2 ^ 31 := by
      have : pmapEnd = 2 ^ 31 := rfl
      have : 0 < pageSize := by decide
      omega
    have hle : (map.entries entry).start ≤ addr := hin.1
    unfold u32 VmMap.start
    omega
  have hoffsetAligned :=
    isAligned_mod.2 (sub_mod_eq_zero_of_mod_eq (hmod.trans (isAligned_mod.1 halign).symm))
  obtain ⟨filled, hfilled⟩ : ∃ filled : VmMap, filled = VmMap.set
      { map with frames := insert frame map.frames } entry
      ((map.entries entry).gain obj (addr - map.start entry) frame) := ⟨_, rfl⟩
  have hframes : filled.frames = insert frame map.frames ∧ filled.pmap = map.pmap := by
    rw [hfilled]
    exact ⟨rfl, rfl⟩
  obtain ⟨map', hmap, hpte, hwords⟩ := pmapMap_ok filled ha hend (by rw [hframes.2]; exact hfree)
    (by rw [hframes.1]; exact hfragment)
  obtain ⟨-, -, pmap, frames, rfl, hsub, htrans⟩ := pmapMap_spec hprot hmap
  rw [hframes.1] at hsub
  rw [hframes.2] at htrans hwords
  refine ⟨pmap, frames, ?_, hsub, ?_, hwords, htrans⟩
  · have hdefault : defaultPagerFault map entry (addr - map.start entry) obj frame =
        some filled := by
      rw [hfilled]
      simp [defaultPagerFault, pmAlloc, hframe, hoffsetAligned, Entry.gain]
    have hpage : addr - addr % pageSize = addr := by rw [hmod, Nat.sub_zero]
    have hlookup : obj.lookup (u32 (addr + 2 ^ 32 - (map.entries entry).start)) = none := by
      rw [hoffset]
      exact hnone
    unfold vmPageFault
    simp only [hfind, hprot, hread, hwrite, hobj, if_false, false_and, Bool.true_eq_false,
      bind_eq_bind, bind_some]
    rw [hpage]
    split
    · next f hf => exact absurd (hf.symm.trans hlookup) (by simp)
    · rw [hoffset, hdefault, bind_some, hmap, hfilled]
      rfl
  · have hdirty := hpte
    rw [hdirty]
    exact hwrite

end

section
variable {a : Allocators} {m : Machine} {dst frame entry : ℕ} {obj : VmObject}

def Machine.put (m : Machine) (map : VmMap) (memory : ℕ → ℕ → BitVec 8) : Machine :=
  { m with map, memory }

@[simp] lemma Machine.put_map (m : Machine) (map : VmMap) (memory : ℕ → ℕ → BitVec 8) :
    (m.put map memory).map = map := rfl

@[simp] lemma Machine.put_memory (m : Machine) (map : VmMap) (memory : ℕ → ℕ → BitVec 8) :
    (m.put map memory).memory = memory := rfl

structure Vacant (m : Machine) (page entry : ℕ) (obj : VmObject) : Prop where
  found : vmMapFindEntry m.map page = some entry
  aligned : isAligned page
  bound : page + pageSize ≤ pmapEnd
  read : (m.map.entries entry).prot.read = true
  write : (m.map.entries entry).prot.write = true
  object : (m.map.entries entry).object = some obj
  start : isAligned (m.map.start entry)
  absent : obj.lookup (page - m.map.start entry) = none
  unmapped : translate m.map.pmap page = none
  unshown : m.shown (pdeIndex page) = false

structure Faulted (a : Allocators) (m : Machine) (page entry : ℕ) (obj : VmObject) (map : VmMap) :
    Prop where
  entries : map.entries = update m.map.entries entry
    ((m.map.entries entry).gain obj (page - m.map.start entry) (a.pmAlloc m.map.frames))
  list : map.list = m.map.list
  frames : insert (a.pmAlloc m.map.frames) m.map.frames ⊆ map.frames
  dirty : (map.pmap.pte (pteIndex page)).dirty = true
  words : ∀ i, i / 1024 ≠ pdeIndex page → map.pmap.pte i = m.map.pmap.pte i
  translate : ∀ v, translate map.pmap v =
    if pteIndex v = pteIndex page then some (a.pmAlloc m.map.frames) else translate m.map.pmap v

lemma Vacant.pageFault (h : Vacant m dst entry obj) (type : FaultType) :
    ∃ map, m.pageFault a dst type = some ({ m with map }, true) ∧
      Faulted a m dst entry obj map := by
  obtain ⟨pmap, frames, hfault, hsub, hdirty, hwords, htrans⟩ := vmPageFault_ok type h.found
    h.aligned h.read h.write h.object h.start h.absent h.bound h.unmapped (a.pmAlloc_notMem m.map.frames)
    (a.pmAlloc_notMem (insert (a.pmAlloc m.map.frames) m.map.frames))
  refine ⟨{ m.map.set entry ((m.map.entries entry).gain obj (dst - m.map.start entry)
    (a.pmAlloc m.map.frames)) with pmap, frames }, ?_, ⟨rfl, rfl, hsub, hdirty, hwords, htrans⟩⟩
  rw [Machine.pageFault, hfault]
  rfl

lemma pteIndex_add (ha : isAligned dst) {n : ℕ} (hn : n < pageSize) :
    pteIndex (dst + n) = pteIndex dst ∧ (dst + n) % pageSize = n := by
  have hmod : dst % pageSize = 0 := isAligned_mod.1 ha
  constructor
  · unfold pteIndex
    rw [Nat.add_div_of_dvd_right (Nat.dvd_of_mod_eq_zero hmod), Nat.div_eq_of_lt hn, Nat.add_zero]
  · rw [add_mod, hmod, zero_add, mod_mod, mod_eq_of_lt hn]

lemma Faulted.writeThrough {map : VmMap} (h : Faulted a m dst entry obj map)
    (ha : isAligned dst) {n : ℕ} (hn : n < pageSize) (memory : ℕ → ℕ → BitVec 8)
    (byte : BitVec 8) :
    (m.put map memory).writeThrough (dst + n) byte =
      some (m.put map (update memory (a.pmAlloc m.map.frames)
        (update (memory (a.pmAlloc m.map.frames)) n byte))) := by
  obtain ⟨hindex, hoff⟩ := pteIndex_add ha hn
  have htrans := h.translate (dst + n)
  rw [GzOS.Vm.translate] at htrans
  split_ifs at htrans with hmapped
  have hpfn := some.inj htrans
  have hdirty : (map.pmap.pte (pteIndex (dst + n))).dirty := by
    rw [hindex]
    exact h.dirty
  obtain ⟨hpde, hvalid⟩ := Bool.and_eq_true_iff.1 hmapped
  unfold Machine.writeThrough Machine.present Machine.put
  simp [hpde, hvalid, hdirty, hpfn, hoff]

lemma Vacant.storeByte (h : Vacant m dst entry obj) (byte : BitVec 8) :
    ∃ map, Faulted a m dst entry obj map ∧ m.storeByte a dst byte =
      some (m.put map (update m.memory (a.pmAlloc m.map.frames)
        (update (m.memory (a.pmAlloc m.map.frames)) 0 byte))) := by
  have hmod : dst % pageSize = 0 := isAligned_mod.1 h.aligned
  have hunmapped : pmapIsMapped m.map.pmap dst = false := by
    have hnone := h.unmapped
    unfold translate at hnone
    split_ifs at hnone with hm
    simpa using hm
  have hmiss : m.writeThrough dst byte = none := by
    have hmapped : (m.present dst && (m.map.pmap.pte (pteIndex dst)).valid) = false := by
      rw [Machine.present, h.unshown, Bool.false_or]
      exact hunmapped
    simp [Machine.writeThrough, hmapped]
  obtain ⟨map, hfault, hmap⟩ := h.pageFault (if m.present dst then .write else .read)
  refine ⟨map, hmap, ?_⟩
  have hstore := hmap.writeThrough h.aligned (by decide : 0 < pageSize) m.memory byte
  unfold Machine.storeByte
  simp only [hmiss, hmod, Nat.sub_zero, ite_self, hfault]
  exact hstore

lemma Vacant.copyBytes (h : Vacant m dst entry obj) (hframe : frame ∈ m.map.frames) {n : ℕ}
    (hn : n < pageSize) :
    ∃ map, Faulted a m dst entry obj map ∧ m.copyBytes a dst frame (n + 1) =
      some (m.put map (update m.memory (a.pmAlloc m.map.frames) fun j =>
        if j < n + 1 then m.memory frame j else m.memory (a.pmAlloc m.map.frames) j)) := by
  induction n with
  | zero =>
    obtain ⟨map, hmap, hstore⟩ := h.storeByte (m.memory frame 0)
    refine ⟨map, hmap, ?_⟩
    rw [Machine.copyBytes, Machine.copyBytes, bind_some, add_zero, hstore]
    congr 3
    funext j
    by_cases hj : j = 0
    · simp [hj]
    · simp [hj]
  | succ n ih =>
    obtain ⟨map, hmap, hcopy⟩ := ih (by omega)
    refine ⟨map, hmap, ?_⟩
    have hne : frame ≠ a.pmAlloc m.map.frames :=
      ne_of_mem_of_not_mem hframe (a.pmAlloc_notMem m.map.frames)
    rw [Machine.copyBytes, hcopy, bind_some, Machine.storeByte, hmap.writeThrough h.aligned hn]
    simp only [Machine.put_memory, update_idem,  update_of_ne hne]
    congr 3
    funext j
    by_cases hj : j = n + 1
    · simp [hj]
    · have hlt : j < n + 1 + 1 ↔ j < n + 1 := by omega
      simp [hj, hlt]

end

end GzOS.Vm
