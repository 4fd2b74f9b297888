import GzOS.Runs
import GzOS.VmMapSpec

/-!
# The page table

Every frame in the object of a listed entry is mapped at its place, and every page that
is mapped is held by a listed entry. A page fault, an extension and a creation keep
this. Removing an entry leaves the page table as it is, so it keeps this only for an
object without frames.
-/
namespace GzOS.Vm
open Bindings Runs Function ProcessMemoryMap List Option

def Entry.Holds (e : Entry) (page frame : ℕ) : Prop :=
  e.start ≤ page ∧ page + pageSize ≤ e.stop ∧
    ∃ obj, e.object = some obj ∧ obj.lookup (page - e.start) = some frame

/-- A page with a valid translation is held by a listed entry with the same frame, which is
in use. -/
def PageTableSound (pm : ProcessMemoryMap) : Prop :=
  ∀ page frame, isAligned page → translate pm.map.pmap page = some frame →
    frame ∈ pm.map.frames ∧ ∃ entry ∈ pm.map.list, (pm.map.entries entry).Holds page frame

def DestroysEmpty (pm : ProcessMemoryMap) : Event → Prop
  | .destroy name => ∀ entry ∈ pm.get name, ∀ obj ∈ (pm.map.entries entry).object, obj.keys = []
  | _ => True

/-! ## The invariant -/

structure Entry.Backed (e : Entry) (pmap : Pmap) : Prop where
  start : isAligned e.start
  stop : isAligned e.stop
  mapped : ∀ obj offset frame, e.object = some obj → obj.lookup offset = some frame →
    isAligned (e.start + offset) ∧ translate pmap (e.start + offset) = some frame

structure Backed (map : VmMap) : Prop where
  nodup : map.list.Nodup
  entries : ∀ p ∈ map.list, (map.entries p).Backed map.pmap
  held : ∀ page frame, isAligned page → translate map.pmap page = some frame →
    frame ∈ map.frames ∧ ∃ p ∈ map.list, (map.entries p).Holds page frame

section
variable {map map' : VmMap} {fuel entry : ℕ}

lemma isAligned_iff {addr : ℕ} : isAligned addr ↔ addr % 4096 = 0 := by
  simp [isAligned, pageSize]

lemma Backed.newRegion {r : RegionArgs} (h : Backed map) (he : entry ∉ map.list)
    (hadd : newRegion fuel map r entry = some map') : Backed map' := by
  obtain ⟨-, hstart, hstop, tree, list, rfl, hl⟩ := newRegion_spec hadd
  have hold : ∀ p ∈ map.list,
      update map.entries entry ⟨r.start, r.stop, r.prot, some ∅⟩ p = map.entries p :=
    fun p hp => update_of_ne (ne_of_mem_of_not_mem hp he) ..
  have hsub : ∀ p ∈ map.list, p ∈ list := by
    rcases hl with rfl | hl
    · exact fun p hp => hp
    · exact fun p hp => hl.mem_iff.2 (mem_cons_of_mem _ hp)
  refine ⟨?_, fun p hp => ?_, fun page frame ha ht => ?_⟩
  · rcases hl with rfl | hl
    · exact h.nodup
    · exact hl.nodup_iff.2 (nodup_cons.2 ⟨he, h.nodup⟩)
  · dsimp only
    by_cases hpe : p = entry
    · subst hpe
      rw [update_self]
      refine ⟨hstart, hstop, fun obj offset frame ho hf => ?_⟩
      cases ho
      simp at hf
    · have hm : p ∈ map.list := by
        rcases hl with rfl | hl
        · exact hp
        · exact (mem_cons.1 (hl.mem_iff.1 hp)).resolve_left hpe
      rw [hold p hm]
      exact h.entries p hm
  · obtain ⟨hf, p, hp, hh⟩ := h.held page frame ha ht
    refine ⟨hf, p, hsub p hp, ?_⟩
    dsimp only
    rw [hold p hp]
    exact hh

lemma Backed.removeEntry (h : Backed map)
    (hempty : ∀ obj, (map.entries entry).object = some obj → obj.keys = [])
    (hrem : vmMapRemoveEntry map entry = some map') : Backed map' := by
  obtain ⟨obj, ho, -, rfl⟩ := vmMapRemoveEntry_spec hrem
  have hobj : obj.entries = [] := map_eq_nil_iff.1 (hempty obj ho)
  have hold : ∀ p ∈ map.list.erase entry, update map.entries entry Entry.zero p =
      map.entries p := fun p hp => update_of_ne (h.nodup.mem_erase_iff.1 hp).1 ..
  refine ⟨h.nodup.erase entry, fun p hp => ?_, fun page frame ha ht => ?_⟩
  · dsimp only
    rw [hold p hp]
    exact h.entries p (mem_of_mem_erase hp)
  · obtain ⟨hf, p, hp, hh⟩ := h.held page frame ha ht
    have hpe : p ≠ entry := by
      rintro rfl
      obtain ⟨-, -, obj', ho', hl⟩ := hh
      obtain rfl := some.inj (ho.symm.trans ho')
      have := AList.mem_lookup_iff.1 hl
      rw [hobj] at this
      cases this
    have hp' : p ∈ map.list.erase entry := h.nodup.mem_erase_iff.2 ⟨hpe, hp⟩
    refine ⟨by simpa [vmObjectFree, values, hobj] using hf, p, hp', ?_⟩
    dsimp only
    rw [hold p hp']
    exact hh

lemma Backed.resize (h : Backed map) {newEnd : ℕ} {b : Bool}
    (hres : vmMapResize map entry newEnd = some (map', b)) : Backed map' := by
  obtain ⟨halign, hge, rfl | ⟨rfl, -⟩⟩ := vmMapResize_spec hres
  · exact h
  refine ⟨h.nodup, fun p hp => ?_, fun page frame ha ht => ?_⟩
  · have hb := h.entries p hp
    by_cases hpe : p = entry
    · subst hpe
      simp only [VmMap.set, update_self]
      exact ⟨hb.start, halign, hb.mapped⟩
    · simp only [VmMap.set, update_of_ne hpe]
      exact hb
  · obtain ⟨hf, p, hp, hh⟩ := h.held page frame ha ht
    refine ⟨hf, p, hp, ?_⟩
    by_cases hpe : p = entry
    · subst hpe
      simp only [VmMap.set, update_self]
      exact ⟨hh.1, hh.2.1.trans hge, hh.2.2⟩
    · simp only [VmMap.set, update_of_ne hpe]
      exact hh

/-! One more page: `f` is mapped at `page`, which was not mapped before. -/

section
variable {page f : ℕ} {obj : VmObject} {pmap pmap' : Pmap} {e : Entry}

lemma Entry.Backed.lookup_none (hb : e.Backed pmap) (ho : e.object = some obj)
    (hstart : e.start ≤ page) (hnone : translate pmap page = none) :
    obj.lookup (page - e.start) = none := by
  rw [eq_none_iff_forall_ne_some]
  intro g hg
  have := (hb.mapped obj _ g ho hg).2
  rw [Nat.add_sub_cancel' hstart, hnone] at this
  cases this

lemma Entry.Backed.mono (hb : e.Backed pmap)
    (hkeep : ∀ v g, translate pmap v = some g → translate pmap' v = some g) : e.Backed pmap' :=
  ⟨hb.start, hb.stop, fun o offset g ho hg =>
    ⟨(hb.mapped o offset g ho hg).1, hkeep _ _ (hb.mapped o offset g ho hg).2⟩⟩

lemma Entry.Backed.insert (hb : e.Backed pmap) (ho : e.object = some obj) (ha : isAligned page)
    (hstart : e.start ≤ page) (ht : translate pmap page = some f) :
    Entry.Backed { e with object := some (obj.insert (page - e.start) f) } pmap := by
  refine ⟨hb.start, hb.stop, fun o offset g he hg => ?_⟩
  cases he
  by_cases hoff : offset = page - e.start
  · rw [hoff, AList.lookup_insert] at hg
    cases hg
    rw [hoff, Nat.add_sub_cancel' hstart]
    exact ⟨ha, ht⟩
  · rw [AList.lookup_insert_ne hoff] at hg
    exact hb.mapped obj offset g ho hg

lemma Entry.Holds.insert {page' g : ℕ} (hh : e.Holds page' g) (ho : e.object = some obj)
    (hstart : e.start ≤ page) (hne : page' ≠ page) :
    Entry.Holds { e with object := some (obj.insert (page - e.start) f) } page' g := by
  obtain ⟨h1, h2, o, he, hl⟩ := hh
  obtain rfl := some.inj (ho.symm.trans he)
  refine ⟨h1, h2, _, rfl, ?_⟩
  rw [AList.lookup_insert_ne (by dsimp only; omega)]
  exact hl

/-- A page is added to the object and to the table together. -/
lemma Backed.addPage (h : Backed map) {frames : Finset ℕ} (hmem : entry ∈ map.list)
    (ha : isAligned page) (hstart : map.start entry ≤ page)
    (hstop : page + pageSize ≤ map.stop entry) (ho : (map.entries entry).object = some obj)
    (hf : f ∈ frames) (hsub : map.frames ⊆ frames) (hnone : translate map.pmap page = none)
    (ht : ∀ v, translate pmap v =
      if pteIndex v = pteIndex page then some f else translate map.pmap v) :
    Backed { map.set entry { map.entries entry with
      object := some (obj.insert (page - map.start entry) f) } with pmap, frames } := by
  have hkeep : ∀ v g, translate map.pmap v = some g → translate pmap v = some g := by
    intro v g hv
    rw [ht, if_neg ?_, hv]
    intro hidx
    rw [translate_congr hidx, hnone] at hv
    cases hv
  refine ⟨h.nodup, fun p hp => ?_, fun page' g ha' hg => ?_⟩
  · have hb := (h.entries p hp).mono hkeep
    by_cases hpe : p = entry
    · subst hpe
      simp only [VmMap.set, update_self]
      exact hb.insert ho ha hstart (by rw [ht, if_pos rfl])
    · simp only [VmMap.set, update_of_ne hpe]
      exact hb
  · rw [ht] at hg
    split_ifs at hg with hidx
    · cases hg
      obtain rfl : page' = page := by
        rw [isAligned_iff] at ha ha'
        simp only [pteIndex, pageSize] at hidx
        omega
      refine ⟨hf, entry, hmem, ?_⟩
      simp only [VmMap.set, update_self]
      exact ⟨hstart, hstop, _, rfl, AList.lookup_insert _⟩
    · obtain ⟨hfr, p, hp, hh⟩ := h.held page' g ha' hg
      refine ⟨hsub hfr, p, hp, ?_⟩
      by_cases hpe : p = entry
      · subst hpe
        simp only [VmMap.set, update_self]
        exact hh.insert ho hstart fun heq => hidx (congrArg pteIndex heq)
      · simp only [VmMap.set, update_of_ne hpe]
        exact hh

end

lemma Backed.fault (h : Backed map) {addr frame fragment : ℕ} {type : FaultType} {b : Bool}
    (hs : vmPageFault map addr type frame fragment = some (map', b)) : Backed map' := by
  rcases vmPageFault_spec hs with rfl | ⟨entry, obj, obj', f, pmap, frames, hmem, hle, hlt, ho, rfl,
    hlook, hobj, hsub, hend, hnone, ht⟩
  · exact h
  have hstart := isAligned_iff.1 (h.entries entry hmem).start
  have hstop := isAligned_iff.1 (h.entries entry hmem).stop
  change map.start entry % 4096 = 0 at hstart
  change map.stop entry % 4096 = 0 at hstop
  have hoff : u32 (addr - addr % pageSize + 2 ^ 32 - map.start entry) =
      addr - addr % pageSize - map.start entry := by
    unfold pmapEnd at hend
    unfold pageSize u32 at *
    omega
  rw [hoff] at hlook hobj
  have hbelow : map.start entry ≤ addr - addr % pageSize := by
    unfold pageSize
    omega
  have hnew := (h.entries entry hmem).lookup_none ho hbelow hnone
  obtain ⟨rfl, hf⟩ :
      obj' = obj.insert (addr - addr % pageSize - map.start entry) f ∧ f ∈ frames := by
    refine hobj.resolve_left ?_
    rintro rfl
    cases hnew.symm.trans hlook
  refine h.addPage hmem ?_ hbelow ?_ ho hf hsub hnone ht
  · rw [isAligned_iff]
    unfold pageSize
    omega
  · unfold pageSize
    omega

end

/-! ## Runs -/

structure Resident (pm : ProcessMemoryMap) : Prop where
  listed : ∀ p ∈ pm.map.list, p ∈ pm.data
  backed : Backed pm.map

section
variable {pm pm' : ProcessMemoryMap} {fuel : ℕ}

lemma Resident.create (h : Resident pm) {r : RegionArgs} {a : Alloc} {o : Option ℕ}
    (hs : createMemoryRegion fuel pm r a = some (pm', o)) : Resident pm' := by
  rcases createMemoryRegion_spec hs with rfl | ⟨hnone, h0, hent, map, hnew, hput⟩
  · exact h
  have hb := h.backed.newRegion (fun hm => hent (h.listed _ hm)) hnew
  obtain ⟨-, -, -, tree, list, rfl, hl⟩ := newRegion_spec hnew
  have hmem : ∀ p ∈ list, p = a.entry ∨ p ∈ pm.data := by
    rcases hl with rfl | hl
    · exact fun p hp => .inr (h.listed p hp)
    · exact fun p hp => (mem_cons.1 (hl.mem_iff.1 hp)).imp_right (h.listed p)
  rcases hput with rfl | ⟨map', hrm, rfl⟩
  · refine ⟨fun p hp => ?_, hb⟩
    rw [data, values_insert hnone]
    exact mem_cons.2 (hmem p hp)
  · have hb' := hb.removeEntry (fun obj ho => ?_) hrm
    · obtain ⟨obj, -, -, rfl⟩ := vmMapRemoveEntry_spec hrm
      refine ⟨fun p hp => ?_, hb'⟩
      obtain ⟨hne, hp⟩ := hb.nodup.mem_erase_iff.1 hp
      exact (hmem p hp).resolve_left hne
    · simp only [update_self, some.injEq] at ho
      rw [← ho]
      rfl

lemma Resident.destroy (h : Resident pm) {name : List Char}
    (hg : DestroysEmpty pm (.destroy name)) (hs : destroyMemoryRegion pm name = some pm') :
    Resident pm' := by
  rcases destroyMemoryRegion_spec hs with rfl | ⟨entry, map, hget, hrm, rfl⟩
  · exact h
  refine ⟨fun p hp => ?_, h.backed.removeEntry (fun obj ho => hg entry hget obj ho) hrm⟩
  obtain ⟨obj, -, -, rfl⟩ := vmMapRemoveEntry_spec hrm
  obtain ⟨hne, hp⟩ := h.backed.nodup.mem_erase_iff.1 hp
  exact (mem_cons.1 ((values_perm hget).mem_iff.1 (h.listed p hp))).resolve_left hne

lemma Resident.step (h : Resident pm) {ev : Event} (hg : DestroysEmpty pm ev)
    (hs : step fuel pm ev = some pm') : Resident pm' := by
  cases ev with
  | create r a =>
    obtain ⟨⟨_, o⟩, h1, rfl⟩ := map_eq_some_iff.1 hs
    exact h.create h1
  | createInRange name start size prot a =>
    obtain ⟨⟨_, o⟩, h1, rfl⟩ := map_eq_some_iff.1 hs
    rcases createMemoryRegionInRange_spec h1 with rfl | ⟨addr, -, h2⟩
    · exact h
    · exact h.create h2
  | destroy name => exact h.destroy hg hs
  | extend name endAddr =>
    obtain ⟨⟨_, b⟩, h1, rfl⟩ := map_eq_some_iff.1 hs
    rcases extend_spec h1 with rfl | ⟨entry, map, b, hget, hres, rfl⟩
    · exact h
    · have hlist : map.list = pm.map.list := by
        obtain ⟨-, -, rfl | ⟨rfl, -⟩⟩ := vmMapResize_spec hres <;> rfl
      exact ⟨fun p hp => h.listed p (hlist ▸ hp), h.backed.resize hres⟩
  | fault addr type frame fragment =>
    obtain ⟨⟨map, b⟩, h1, rfl⟩ := map_eq_some_iff.1 hs
    have hlist : map.list = pm.map.list := by
      rcases vmPageFault_spec h1 with rfl | ⟨_, _, _, _, _, _, -, -, -, -, rfl, -⟩ <;> rfl
    exact ⟨fun p hp => h.listed p (hlist ▸ hp), h.backed.fault h1⟩

/-- Destroying a region with a page in memory leaves a translation to a frame given back. -/
lemma Resident.unsound_of_destroy (h : Resident pm) {name : List Char} {entry : ℕ}
    {obj : VmObject} (hget : pm.get name = some entry)
    (ho : (pm.map.entries entry).object = some obj) (hne : obj.keys ≠ [])
    (hs : destroyMemoryRegion pm name = some pm') : ¬ PageTableSound pm' := by
  intro hsound
  obtain ⟨offset, hk⟩ := exists_mem_of_ne_nil _ hne
  obtain ⟨frame, hl⟩ :=
    isSome_iff_exists.1 (AList.lookup_isSome.2 (AList.mem_keys.2 hk))
  unfold destroyMemoryRegion at hs
  rw [hget] at hs
  obtain ⟨map, hrm, rfl⟩ := map_eq_some_iff.1 hs
  obtain ⟨obj', ho', hmem, rfl⟩ := vmMapRemoveEntry_spec hrm
  obtain rfl := some.inj (ho.symm.trans ho')
  have hmap := (h.backed.entries entry hmem).mapped obj offset frame ho hl
  have hframe := (hsound _ frame hmap.1 hmap.2).1
  exact (Finset.mem_sdiff.1 hframe).2 (mem_toFinset.2 (mem_values.2 ⟨offset, hl⟩))

end

lemma resident_new (frames : Finset ℕ) : Resident (new frames) where
  listed := by simp [new, VmMap.new]
  backed := ⟨.nil, by simp [new, VmMap.new], fun page frame _ ht => by
    simp [new, VmMap.new, translate, pmapIsMapped] at ht⟩

/-- In every run in which only regions without pages in memory are destroyed, the page
table is sound in every state. -/
theorem page_table_sound (fuel : ℕ) (frames : Finset ℕ) (events : List Event)
    (h : Meets (step fuel) DestroysEmpty (new frames) events) :
    Always (step fuel) PageTableSound (new frames) events :=
  (always_of_meets (fun _ _ _ hi hg hs => Resident.step hi hg hs) (resident_new frames) h).mono
    fun _ hr => hr.backed.held

instance (pm : ProcessMemoryMap) : DecidablePred (DestroysEmpty pm)
  | .destroy name => inferInstanceAs (Decidable (∀ entry ∈ pm.get name,
      ∀ obj ∈ (pm.map.entries entry).object, obj.keys = []))
  | .create _ _ => .isTrue trivial
  | .createInRange _ _ _ _ _ => .isTrue trivial
  | .extend _ _ => .isTrue trivial
  | .fault _ _ _ _ => .isTrue trivial

/-- A region with pages that grows, next to one that is destroyed before it is used. -/
theorem page_table_sound_two_regions :
    Always (step 3) PageTableSound (new {1})
      [.create ⟨"heap".toList, 0x400000, 0x401000, ⟨true, true, false⟩⟩ ⟨1, true⟩,
        .createInRange "stack#1".toList 0x70000000 0x4000 ⟨true, true, false⟩ ⟨2, true⟩,
        .fault 0x400010 .write 5 6, .extend "heap".toList 0x402000, .fault 0x401000 .read 7 8,
        .destroy "stack#1".toList] :=
  page_table_sound 3 {1} _ (meets_of_check (by decide +kernel))

/-- The stack of a thread is used and destroyed. -/
theorem stack_still_mapped :
    ∃ pm, exec (step 3) (new {1})
      [.createInRange "stack#1".toList 0x70000000 0x4000 ⟨true, true, false⟩ ⟨1, true⟩,
        .fault 0x70003ff0 .write 5 6, .destroy "stack#1".toList] = some pm ∧
      ¬ PageTableSound pm := by
  refine ⟨_, rfl, fun h => ?_⟩
  have hframe := (h 0x70003000 5 (by decide) (by decide +kernel)).1
  exact absurd hframe (by decide +kernel)

/-- No other runs keep the page table sound. -/
theorem page_table_sound_iff {fuel : ℕ} {frames : Finset ℕ} {events : List Event}
    {pm : ProcessMemoryMap} (hrun : exec (step fuel) (new frames) events = some pm) :
    Always (step fuel) PageTableSound (new frames) events ↔
      Meets (step fuel) DestroysEmpty (new frames) events := by
  refine always_iff_meets (fun _ hr => hr.backed.held) (fun s ev t hr hs => ?_)
    (resident_new frames) hrun
  refine ⟨fun hg => Resident.step hr hg hs, fun hsound => ?_⟩
  cases ev with
  | destroy name =>
    intro entry hget obj ho
    by_contra hne
    exact hr.unsound_of_destroy hget ho hne hs hsound
  | _ => trivial

theorem page_table_sound_iff_heap : Always (step 3) PageTableSound (new {1})
    [.create ⟨"heap".toList, 0x400000, 0x401000, ⟨true, true, false⟩⟩ ⟨1, true⟩,
      .fault 0x400010 .write 5 6] :=
  (page_table_sound_iff rfl).2 (meets_of_check (by decide +kernel))

end GzOS.Vm
