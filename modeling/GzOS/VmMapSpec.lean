import GzOS.VmMap

/-!
# What each operation of a memory map changes

One statement for each function that changes a map, from which the invariants of
the address space and of the page table are derived.
-/
namespace GzOS.Vm
open Bindings Option List Prod

variable {b : Bool} {prot : Prot} {name : List Char}

section
variable {map map' : VmMap} {fuel entry : ℕ}

lemma insertBefore_perm (list : List ℕ) (next entry : ℕ) :
    (insertBefore list next entry).Perm (entry :: list) := by
  have := takeWhile_append_dropWhile (p := fun e => decide (e ≠ next)) (l := list)
  conv_rhs => rw [← this]
  exact perm_middle

lemma vmMapInsertEntry_spec (h : vmMapInsertEntry fuel map entry = some map') :
    ∃ tree list, map' = { map with tree, list } ∧
      (list = map.list ∨ list.Perm (entry :: map.list)) := by
  obtain ⟨⟨tree, same⟩, -, h⟩ := bind_eq_some_iff.1 h
  dsimp only at h
  split_ifs at h
  · exact ⟨tree, map.list, (some.inj h).symm, .inl rfl⟩
  obtain ⟨⟨tree', next⟩, -, h⟩ := bind_eq_some_iff.1 h
  cases next with
  | none => exact ⟨tree', _, (some.inj h).symm, .inr perm_append_comm⟩
  | some next =>
    dsimp only at h
    split_ifs at h
    exact ⟨tree', _, (some.inj h).symm, .inr (insertBefore_perm ..)⟩

variable {r : RegionArgs} {a : Alloc} {o : Option ℕ}

lemma newRegion_spec (h : newRegion fuel map r entry = some map') :
    r.stop ≤ pmapEnd ∧ isAligned r.start ∧ isAligned r.stop ∧ ∃ tree list, map' = { map with
        entries := Function.update map.entries entry ⟨r.start, r.stop, r.prot, some ∅⟩
        tree, list } ∧ (list = map.list ∨ list.Perm (entry :: map.list)) := by
  obtain ⟨map1, h1, rfl⟩ := map_eq_some_iff.1 h
  unfold vmMapAddEntry at h1
  split_ifs at h1 with hc
  obtain ⟨tree, list, rfl, hl⟩ := vmMapInsertEntry_spec h1
  exact ⟨hc.2.1, hc.2.2.1, hc.2.2.2, tree, list, by simp [VmMap.set], hl⟩

lemma vmMapRemoveEntry_spec (h : vmMapRemoveEntry map entry = some map') :
    ∃ obj, (map.entries entry).object = some obj ∧ entry ∈ map.list ∧ map' = {
        entries := Function.update map.entries entry Entry.zero
        tree := { map.tree with mem := clearLinks map.tree.mem entry }
        list := map.list.erase entry
        pmap := map.pmap
        frames := vmObjectFree map.frames obj
        removed := true } := by
  obtain ⟨obj, ho, h⟩ := bind_eq_some_iff.1 h
  split_ifs at h with hm
  exact ⟨obj, ho, hm, (some.inj h).symm⟩

lemma vmMapResize_spec {newEnd : ℕ} (h : vmMapResize map entry newEnd = some (map', b)) :
    isAligned newEnd ∧ map.stop entry ≤ newEnd ∧
      (map' = map ∨ map' = map.set entry { map.entries entry with stop := newEnd } ∧
        (newEnd = map.stop entry ∨ newEnd ≤ (nextOf map.list entry).elim pmapEnd map.start)) := by
  unfold vmMapResize at h
  by_cases hc : isAligned newEnd ∧ newEnd ≥ map.stop entry
  swap
  · rw [if_neg hc] at h; cases h
  refine ⟨hc.1, hc.2, ?_⟩
  dsimp only at h
  split_ifs at h with h1 h2 h2
  · exact .inl (mk.inj (some.inj h)).1.symm
  · refine .inr ⟨(mk.inj (some.inj h)).1.symm, .inr ?_⟩
    revert h2
    cases nextOf map.list entry <;> simp
  · exact .inl (mk.inj (some.inj h)).1.symm
  · exact .inr ⟨(mk.inj (some.inj h)).1.symm, .inl (by have := hc.2; omega)⟩

def translate (pmap : Pmap) (vaddr : ℕ) : Option ℕ :=
  if pmapIsMapped pmap vaddr then some (pmap.pte (pteIndex vaddr)).pfn else none

lemma translate_congr {pmap : Pmap} {v w : ℕ} (h : pteIndex v = pteIndex w) :
    translate pmap v = translate pmap w := by
  simp only [translate, pmapIsMapped, pdeIndex_eq, h]

lemma userPte_valid (h : prot ≠ Prot.none) (frame : ℕ) : (userPte frame prot).valid := by
  obtain ⟨r, w, x⟩ := prot
  revert h
  cases r <;> cases w <;> cases x <;> simp [userPte, Prot.none]

@[simp]
lemma userPte_pfn (frame : ℕ) (prot : Prot) : (userPte frame prot).pfn = frame := rfl

lemma pmapMap_spec {vaddr frame fragment : ℕ} (hp : prot ≠ Prot.none)
    (h : pmapMap map vaddr frame prot fragment = some map') :
    vaddr + pageSize ≤ pmapEnd ∧ translate map.pmap vaddr = none ∧
      ∃ pmap frames, map' = { map with pmap, frames } ∧ map.frames ⊆ frames ∧
      ∀ v, translate pmap v =
        if pteIndex v = pteIndex vaddr then some frame else translate map.pmap v := by
  unfold pmapMap at h
  split_ifs at h with hc hm
  refine ⟨hc.2.2, if_neg hm, ?_⟩
  obtain ⟨map1, h1, rfl⟩ := map_eq_some_iff.1 h
  by_cases hd : (map.pmap.pde (pdeIndex vaddr)).valid
  · rw [if_pos hd] at h1
    cases h1
    refine ⟨_, _, rfl, subset_rfl, fun v => ?_⟩
    by_cases hv : pteIndex v = pteIndex vaddr
    · rw [translate_congr hv, if_pos hv]
      simp [translate, pmapIsMapped, hd, userPte_valid hp]
    · simp [translate, pmapIsMapped, hv]
  · rw [if_neg hd] at h1
    obtain ⟨map2, h2, rfl⟩ := map_eq_some_iff.1 h1
    unfold pmAlloc at h2
    split_ifs at h2
    cases h2
    refine ⟨_, _, rfl, Finset.subset_insert _ _, fun v => ?_⟩
    by_cases hv : pteIndex v = pteIndex vaddr
    · rw [translate_congr hv, if_pos hv]
      simp [translate, pmapIsMapped, pmapAddPde, userPte_valid hp]
    by_cases hf : pdeIndex v = pdeIndex vaddr
    · -- nothing of the new fragment was mapped before
      rw [pdeIndex_eq v] at hf
      simp [translate, pmapIsMapped, pmapAddPde, hv, hf, pdeIndex_eq v, hd]
    · have hf' := hf
      rw [pdeIndex_eq v] at hf'
      simp [translate, pmapIsMapped, pmapAddPde, hv, hf, hf']

/-- A fault changes nothing, or maps one page of one entry. -/
lemma vmPageFault_spec {addr frame fragment : ℕ} {type : FaultType}
    (h : vmPageFault map addr type frame fragment = some (map', b)) :
    map' = map ∨ ∃ entry obj obj' f pmap frames, entry ∈ map.list ∧
      map.start entry ≤ addr ∧ addr < map.stop entry ∧ (map.entries entry).object = some obj ∧
      map' = { map.set entry { map.entries entry with object := some obj' } with pmap, frames } ∧
      obj'.lookup (u32 (addr - addr % pageSize + 2 ^ 32 - map.start entry)) = some f ∧
      (obj' = obj ∨ obj' = obj.insert (u32 (addr - addr % pageSize + 2 ^ 32 - map.start entry)) f ∧
        f ∈ frames) ∧ map.frames ⊆ frames ∧ addr - addr % pageSize + pageSize ≤ pmapEnd ∧
      translate map.pmap (addr - addr % pageSize) = none ∧ ∀ v, translate pmap v =
        if pteIndex v = pteIndex (addr - addr % pageSize) then some f
        else translate map.pmap v := by
  unfold vmPageFault at h
  cases he : vmMapFindEntry map addr with
  | none => rw [he] at h; exact .inl (mk.inj (some.inj h)).1.symm
  | some entry =>
    simp only [he] at h
    split_ifs at h with h1 h2 h3
    · exact .inl (mk.inj (some.inj h)).1.symm
    · exact .inl (mk.inj (some.inj h)).1.symm
    · exact .inl (mk.inj (some.inj h)).1.symm
    right
    have hin := find?_some he
    simp only [decide_eq_true_eq] at hin
    obtain ⟨obj, ho, h⟩ := bind_eq_some_iff.1 h
    have hm := mem_of_find?_eq_some he
    split at h
    · next f hf =>
      obtain ⟨map1, h1, h⟩ := bind_eq_some_iff.1 h
      obtain ⟨rfl, -⟩ := mk.inj (some.inj h)
      obtain ⟨hb, hn, pmap, frames, rfl, hsub, ht⟩ := pmapMap_spec ‹_› h1
      refine ⟨entry, obj, obj, f, pmap, frames, hm, hin.1, hin.2, ho, ?_, hf, .inl rfl, hsub, hb,
        hn, ht⟩
      simp [VmMap.set, ← ho]
    · next hf =>
      obtain ⟨map1, h1, h⟩ := bind_eq_some_iff.1 h
      obtain ⟨map2, h2, h⟩ := bind_eq_some_iff.1 h
      obtain ⟨rfl, -⟩ := mk.inj (some.inj h)
      obtain ⟨map3, h3, h1⟩ := bind_eq_some_iff.1 h1
      unfold pmAlloc at h3
      split_ifs at h3
      cases h3
      split_ifs at h1
      cases h1
      obtain ⟨hb, hn, pmap, frames, rfl, hsub, ht⟩ := pmapMap_spec ‹_› h2
      exact ⟨entry, obj, _, frame, pmap, frames, hm, hin.1, hin.2, ho, rfl, AList.lookup_insert _,
        .inr ⟨rfl, hsub (Finset.mem_insert_self _ _)⟩,
        (Finset.subset_insert _ _).trans hsub, hb, hn, ht⟩

variable {pm pm' : ProcessMemoryMap}

lemma createMemoryRegion_spec (h : createMemoryRegion fuel pm r a = some (pm', o)) :
    pm' = pm ∨ pm.get r.name = none ∧ a.entry ≠ 0 ∧ a.entry ∉ pm.data ∧
      ∃ map, newRegion fuel pm.map r a.entry = some map ∧
        (pm' = ⟨map, pm.regions.insert (generateKey r.name) a.entry⟩ ∨
          ∃ map', vmMapRemoveEntry map a.entry = some map' ∧ pm' = ⟨map', pm.regions⟩) := by
  unfold createMemoryRegion at h
  by_cases hget : (pm.get r.name).isSome
  · rw [if_pos hget] at h
    exact .inl (mk.inj (some.inj h)).1.symm
  rw [if_neg hget] at h
  by_cases hent : a.entry = 0 ∨ a.entry ∈ pm.data
  · rw [if_pos hent] at h
    cases h
  rw [if_neg hent] at h
  obtain ⟨map, hnew, h⟩ := bind_eq_some_iff.1 h
  refine .inr ⟨by simpa using hget, fun h0 => hent (.inl h0), fun hm => hent (.inr hm), map, hnew,
    ?_⟩
  split_ifs at h
  · exact .inl (mk.inj (some.inj h)).1.symm
  · obtain ⟨map', hrm, h⟩ := bind_eq_some_iff.1 h
    exact .inr ⟨map', hrm, (mk.inj (some.inj h)).1.symm⟩

lemma createMemoryRegionInRange_spec {start size : ℕ}
    (h : createMemoryRegionInRange fuel pm name start size prot a = some (pm', o)) :
    pm' = pm ∨ ∃ addr, vmMapFindspace pm.map start size = some (some addr) ∧
      createMemoryRegion fuel pm ⟨name, addr, u32 (addr + size), prot⟩ a = some (pm', o) := by
  obtain ⟨found, hf, h⟩ := bind_eq_some_iff.1 h
  cases found with
  | none => exact .inl (mk.inj (some.inj h)).1.symm
  | some addr => exact .inr ⟨addr, hf, h⟩

lemma destroyMemoryRegion_spec (h : destroyMemoryRegion pm name = some pm') :
    pm' = pm ∨ ∃ entry map, pm.get name = some entry ∧ vmMapRemoveEntry pm.map entry = some map ∧
      pm' = ⟨map, pm.regions.erase (generateKey name)⟩ := by
  unfold destroyMemoryRegion at h
  split at h
  · exact .inl (some.inj h).symm
  · next entry hget =>
    obtain ⟨map, hrm, rfl⟩ := map_eq_some_iff.1 h
    exact .inr ⟨entry, map, hget, hrm, rfl⟩

lemma extend_spec {endAddr : ℕ} (h : extend pm name endAddr = some (pm', b)) :
    pm' = pm ∨ ∃ entry map b, pm.get name = some entry ∧
      vmMapResize pm.map entry endAddr = some (map, b) ∧ pm' = { pm with map } := by
  unfold extend at h
  split at h
  · exact .inl (mk.inj (some.inj h)).1.symm
  next entry hget =>
  split_ifs at h
  · exact .inl (mk.inj (some.inj h)).1.symm
  · obtain ⟨⟨map, b⟩, hres, h⟩ := map_eq_some_iff.1 h
    exact .inr ⟨entry, map, b, hget, hres, (mk.inj h).1.symm⟩

lemma mem_data (h : pm.get name = some entry) : entry ∈ pm.data := mem_values.2 ⟨_, h⟩

end

end GzOS.Vm
