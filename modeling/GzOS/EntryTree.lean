import GzOS.MapClone

/-!
# List and tree of the memory maps

Several maps share the memory of their entries. All operations but removals keep the
list of every map in order, its counter right and its tree the same as its list, as
long as new entries start at user addresses. `vm_map_remove_entry` takes the entry off
the list only, so after any removal tree and list differ.
-/
namespace GzOS.Vm
open SplayTree Runs List Option

/-- What a map has besides the memory of its entries. -/
structure MapHead where
  root : Option ℕ
  list : List ℕ
  nentries : ℕ
  pmap : Pmap

structure Kernel where
  entries : ℕ → Entry
  links : Links ℕ
  used : Finset ℕ
  frames : Finset ℕ
  memory : ℕ → ℕ → BitVec 8
  asidCounter : ℕ
  maps : List MapHead

def Machine.head (m : Machine) : MapHead := ⟨m.map.tree.root, m.map.list, m.nentries, m.map.pmap⟩

namespace Kernel

def init : Kernel where
  entries _ := Entry.zero
  links _ _ := none
  used := ∅
  frames := ∅
  memory _ _ := 0
  asidCounter := 1
  maps := []

def load (k : Kernel) (head : MapHead) : Machine where
  map := ⟨k.entries, ⟨k.links, head.root⟩, head.list, head.pmap, k.frames, false⟩
  nentries := head.nentries
  used := k.used
  memory := k.memory
  shown _ := false

def share (k : Kernel) (m : Machine) : Kernel :=
  { k with
    entries := m.map.entries
    links := m.map.tree.mem
    used := m.used
    frames := m.map.frames
    memory := m.memory }

def store (k : Kernel) (i : ℕ) (m : Machine) : Kernel :=
  { k.share m with maps := k.maps.set i m.head }

def addMap (k : Kernel) (asidCounter : ℕ) (m : Machine) : Kernel :=
  { k.share m with asidCounter, maps := k.maps ++ [m.head] }

end Kernel

/-- A clone, with the fragments of the original that the window still shows during the copy. -/
inductive MapEvent
  | new
  | add (i start stop : ℕ) (prot : Prot)
  | remove (i entry : ℕ)
  | resize (i entry newEnd : ℕ)
  | fault (i addr : ℕ) (type : FaultType)
  | clone (i : ℕ) (shown : ℕ → Bool)

/-- `nentries--` of a `size_t`. -/
def removeEntry (m : Machine) (entry : ℕ) : Option Machine :=
  (vmMapRemoveEntry m.map entry).map fun map =>
    { m with map, nentries := u32 (m.nentries + 2 ^ 32 - 1), used := m.used.erase entry }

def mapStep (a : Allocators) (fuel : ℕ) (k : Kernel) : MapEvent → Option Kernel
  | .new => do
    let counter ← getNewAsid k.asidCounter
    return k.addMap counter ((k.load ⟨none, [], 0, (VmMap.new ∅).pmap⟩).newMap a
      fun _ => false)
  | .add i start stop prot => do
    let head ← k.maps[i]?
    return k.store i (← (k.load head).newEntry a fuel start stop prot)
  | .remove i entry => do
    let head ← k.maps[i]?
    return k.store i (← removeEntry (k.load head) entry)
  | .resize i entry newEnd => do
    let head ← k.maps[i]?
    let (map, _) ← vmMapResize (k.load head).map entry newEnd
    return k.store i { k.load head with map }
  | .fault i addr type => do
    let head ← k.maps[i]?
    let (m, _) ← (k.load head).pageFault a addr type
    return k.store i m
  | .clone i shown => do
    let head ← k.maps[i]?
    let counter ← getNewAsid k.asidCounter
    let m ← vmMapClone a fuel k.asidCounter shown (k.load head)
    -- what was written through the window is in the tables of the original
    let pte j := if shown (j / 1024) then m.map.pmap.pte j else head.pmap.pte j
    return (k.store i { k.load head with map.pmap.pte := pte }).addMap counter m

/-- Every list goes up, its counter counts it and its tree reads as it. -/
def EntriesAgree (k : Kernel) : Prop := ∀ head ∈ k.maps, Ordered (k.load head)

def KeepsTree (_ : Kernel) : MapEvent → Prop
  | .remove _ _ => False
  | .add _ start _ _ => start < pmapEnd
  | _ => True

instance (k : Kernel) : (event : MapEvent) → Decidable (KeepsTree k event)
  | .new | .resize _ _ _ | .fault _ _ _ | .clone _ _ => inferInstanceAs (Decidable True)
  | .remove _ _ => inferInstanceAs (Decidable False)
  | .add _ start _ _ => inferInstanceAs (Decidable (start < pmapEnd))

def ListsEntry (a : Allocators) (fuel : ℕ) (k : Kernel) : MapEvent → Prop
  | .add i start stop prot => ∀ head, k.maps[i]? = some head →
    takesEntry fuel (blankEntry (k.load head).map (a.kmalloc k.used) start stop prot)
      (a.kmalloc k.used) = true → ∀ m, (k.load head).newEntry a fuel start stop prot = some m →
      a.kmalloc k.used ∈ m.map.list
  | .remove i entry => ∀ head, k.maps[i]? = some head → entry ∈ head.list
  | _ => True

structure Kernel.Tidy (k : Kernel) : Prop where
  sound : ∀ head ∈ k.maps, Sound (k.load head)
  disjoint : ∀ (i j : ℕ) (head head' : MapHead), i ≠ j → k.maps[i]? = some head →
    k.maps[j]? = some head' → head.list.Disjoint head'.list
  null : 0 ∉ k.used

structure Local (m m' : Machine) : Prop where
  used : m.used ⊆ m'.used
  listed : ∀ p ∈ m'.map.list, p ∈ m.map.list ∨ p ∉ m.used
  starts : ∀ p ∈ m.used, p ∉ m.map.list → m'.map.start p = m.map.start p
  links : ∀ p ∈ m.used, p ∉ m.map.list → m'.map.tree.mem p = m.map.tree.mem p

section
variable {a : Allocators} {fuel : ℕ} {k k' : Kernel} {m m' : Machine} {head : MapHead} {i : ℕ}

lemma Quiet.local (h : Quiet m m') : Local m m' where
  used := by rw [h.used]
  listed p hp := .inl (h.list ▸ hp)
  starts p _ _ := (h.bounds p).1
  links p _ _ := by rw [h.tree]

lemma Added.local {start stop : ℕ} {prot : Prot} (hadd : Added a m m' start stop prot)
    (h : Sound m) : Local m m' := by
  have hne : ∀ p ∈ m.used, p ≠ a.kmalloc m.used := fun p hp =>
    ne_of_mem_of_not_mem hp (a.kmalloc_notMem m.used)
  constructor
  · rw [hadd.used]
    exact Finset.subset_insert _ _
  · intro p hp
    rcases hadd.mem_list hp with rfl | hp
    · exact .inr (a.kmalloc_notMem m.used)
    · exact .inl hp
  · intro p hp _
    rw [VmMap.start, hadd.others p (hne p hp)]
    rfl
  · intro p hp hl
    exact hadd.links p (fun h0 => h.null (h0 ▸ hp)) (hne p hp) hl

lemma Sound.share {other : MapHead} (hs : Sound (k.load other)) (hused : k.used ⊆ m'.used)
    (hnull : 0 ∉ m'.used)
    (hsame : ∀ p ∈ other.list, m'.map.start p = (k.load other).map.start p ∧
      m'.map.tree.mem p = k.links p) : Sound ((k.share m').load other) := by
  refine ⟨⟨?_, hs.counted, ?_⟩, fun p hp => ?_, fun p hp => hused (hs.allocated p hp), hnull⟩
  · refine hs.sorted.imp_of_mem fun {p q} hp hq hpq => ?_
    change m'.map.start p < m'.map.start q
    rwa [(hsame p hp).1, (hsame q hq).1]
  · exact hs.tree.congr fun p hp => (hsame p hp).2
  · change m'.map.start p < pmapEnd
    rw [(hsame p hp).1]
    exact hs.below p hp

lemma load_head (k : Kernel) (hs : Sound m) : Sound ((k.share m).load m.head) :=
  ⟨⟨hs.sorted, hs.counted, hs.tree⟩, hs.below, hs.allocated, hs.null⟩

/-- A map that changed only its own entries can be stored back. -/
lemma Kernel.Tidy.store (h : k.Tidy) (hi : k.maps[i]? = some head)
    (hl : Local (k.load head) m') (hs : Sound m') : (k.store i m').Tidy := by
  have hget : ∀ j head', (k.store i m').maps[j]? = some head' →
      (j = i ∧ head' = m'.head) ∨ (j ≠ i ∧ k.maps[j]? = some head') := by
    intro j head' hj
    change (k.maps.set i m'.head)[j]? = some head' at hj
    rw [getElem?_set] at hj
    split_ifs at hj with hij
    · exact .inl ⟨hij.symm, (some.inj hj).symm⟩
    · exact .inr ⟨Ne.symm hij, hj⟩
  have hdisj : ∀ j other, j ≠ i → k.maps[j]? = some other → m'.head.list.Disjoint other.list := by
    intro j other hji hj p hp hpo
    have hused : p ∈ k.used := (h.sound other (mem_of_getElem? hj)).allocated p hpo
    rcases hl.listed p hp with hp | hp
    · exact h.disjoint i j head other (Ne.symm hji) hi hj hp hpo
    · exact hp hused
  refine ⟨fun head' hmem => ?_, fun j j' head1 head2 hne h1 h2 => ?_, hs.null⟩
  · obtain ⟨j, hj⟩ := mem_iff_getElem?.mp hmem
    rcases hget j head' hj with ⟨-, rfl⟩ | ⟨hji, hj⟩
    · exact load_head k hs
    have hother := h.sound head' (mem_of_getElem? hj)
    refine hother.share hl.used hs.null fun p hp => ?_
    have hused : p ∈ k.used := hother.allocated p hp
    have hout : p ∉ head.list := fun hh => h.disjoint j i head' head hji hj hi hp hh
    exact ⟨hl.starts p hused hout, hl.links p hused hout⟩
  · rcases hget j head1 h1 with ⟨rfl, rfl⟩ | ⟨hji, h1'⟩
    · rcases hget j' head2 h2 with ⟨rfl, -⟩ | ⟨hji', h2'⟩
      · exact absurd rfl hne
      · exact hdisj j' head2 hji' h2'
    · rcases hget j' head2 h2 with ⟨rfl, rfl⟩ | ⟨-, h2'⟩
      · exact (hdisj j head1 hji h1').symm
      · exact h.disjoint j j' head1 head2 hne h1' h2'

lemma Kernel.Tidy.addMap (h : k.Tidy) {counter : ℕ} (ha : Apart (k.load head) m')
    (hs : Sound m') : (k.addMap counter m').Tidy := by
  have hget : ∀ (j : ℕ) (head' : MapHead), (k.addMap counter m').maps[j]? = some head' →
      k.maps[j]? = some head' ∨ (j = k.maps.length ∧ head' = m'.head) := by
    intro j head' hj
    change (k.maps ++ [m'.head])[j]? = some head' at hj
    rcases lt_or_ge j k.maps.length with hlt | hge
    · rw [getElem?_append_left hlt] at hj
      exact .inl hj
    · rw [getElem?_append_right hge, getElem?_singleton] at hj
      split_ifs at hj with hz
      exact .inr ⟨by omega, (some.inj hj).symm⟩
  have hdisj : ∀ other ∈ k.maps, other.list.Disjoint m'.head.list := fun other ho p hp hpm =>
    ha.listed p hpm ((h.sound other ho).allocated p hp)
  refine ⟨fun head' hmem => ?_, fun j j' head1 head2 hne h1 h2 => ?_, hs.null⟩
  · obtain ⟨j, hj⟩ := mem_iff_getElem?.mp hmem
    rcases hget j head' hj with hj | ⟨-, rfl⟩
    · have hother := h.sound head' (mem_of_getElem? hj)
      refine hother.share ha.used hs.null fun p hp => ?_
      have hused : p ∈ k.used := hother.allocated p hp
      refine ⟨?_, ha.links p hused⟩
      rw [VmMap.start, ha.entries p hused]
      rfl
    · exact load_head k hs
  · rcases hget j head1 h1 with h1 | ⟨rfl, rfl⟩
    · rcases hget j' head2 h2 with h2 | ⟨-, rfl⟩
      · exact h.disjoint j j' head1 head2 hne h1 h2
      · exact hdisj head1 (mem_of_getElem? h1)
    · rcases hget j' head2 h2 with h2 | ⟨rfl, -⟩
      · exact (hdisj head2 (mem_of_getElem? h2)).symm
      · exact absurd rfl hne

/-! ## Steps -/

lemma resize_quiet {entry newEnd : ℕ} {map : VmMap} {b : Bool}
    (h : vmMapResize m.map entry newEnd = some (map, b)) :
    Local m { m with map } ∧ (Sound m → Sound { m with map }) := by
  obtain ⟨-, -, rfl | ⟨rfl, -⟩⟩ := vmMapResize_spec h
  · exact ⟨(Quiet.refl m).local, id⟩
  have hstart : ∀ p, (m.map.set entry { m.map.entries entry with stop := newEnd }).start p =
      m.map.start p := by
    intro p
    by_cases hp : p = entry
    · simp [VmMap.set, VmMap.start, hp]
    · simp [VmMap.set, VmMap.start, hp]
  refine ⟨⟨subset_rfl, fun p hp => .inl hp, fun p _ _ => hstart p, fun _ _ _ => rfl⟩,
    fun hs => ⟨⟨?_, hs.counted, hs.tree⟩, fun p hp => ?_, hs.allocated, hs.null⟩⟩
  · refine hs.sorted.imp fun {p q} hpq => ?_
    simpa only [hstart] using hpq
  · simpa only [hstart] using hs.below p hp

lemma mapStep_tidy {event : MapEvent} (h : k.Tidy) (hg : KeepsTree k event)
    (hs : mapStep a fuel k event = some k') : k'.Tidy := by
  cases event with
  | new =>
    obtain ⟨counter, -, hs⟩ := bind_eq_some_iff.1 hs
    cases hs
    obtain ⟨hsound, hapart⟩ := newMap_apart
      (m := k.load ⟨none, [], 0, (VmMap.new ∅).pmap⟩) h.null fun _ => false
    exact h.addMap hapart hsound
  | add i start stop prot =>
    obtain ⟨head, hi, hs⟩ := bind_eq_some_iff.1 hs
    obtain ⟨m, hm, hs⟩ := bind_eq_some_iff.1 hs
    cases hs
    have hsound := h.sound head (mem_of_getElem? hi)
    have hadd := hsound.newEntry_added hg hm
    exact h.store hi (hadd.local hsound) (hadd.sound hsound hg)
  | remove i entry => exact hg.elim
  | resize i entry newEnd =>
    obtain ⟨head, hi, hs⟩ := bind_eq_some_iff.1 hs
    obtain ⟨⟨map, b⟩, hm, hs⟩ := bind_eq_some_iff.1 hs
    cases hs
    obtain ⟨hlocal, hsound⟩ := resize_quiet hm
    exact h.store hi hlocal (hsound (h.sound head (mem_of_getElem? hi)))
  | fault i addr type =>
    obtain ⟨head, hi, hs⟩ := bind_eq_some_iff.1 hs
    obtain ⟨⟨m, b⟩, hm, hs⟩ := bind_eq_some_iff.1 hs
    cases hs
    have hquiet := pageFault_quiet hm
    exact h.store hi hquiet.local (hquiet.sound (h.sound head (mem_of_getElem? hi)))
  | clone i shown =>
    obtain ⟨head, hi, hs⟩ := bind_eq_some_iff.1 hs
    obtain ⟨counter, -, hs⟩ := bind_eq_some_iff.1 hs
    obtain ⟨m, hm, hs⟩ := bind_eq_some_iff.1 hs
    cases hs
    have hsound := h.sound head (mem_of_getElem? hi)
    obtain ⟨hm', hapart⟩ := vmMapClone_apart h.null
      (fun p hp => ⟨hsound.allocated p hp, hsound.below p hp⟩) hm
    refine (h.store hi ?_ ?_).addMap (?_ : Apart (Kernel.load _ head) m) hm'
    · exact ⟨subset_rfl, fun p hp => .inl hp, fun _ _ _ => rfl, fun _ _ _ => rfl⟩
    · exact ⟨⟨hsound.sorted, hsound.counted, hsound.tree⟩, hsound.below, hsound.allocated, h.null⟩
    · exact hapart

lemma tidy_init : Kernel.init.Tidy :=
  ⟨fun _ hm => absurd hm not_mem_nil, fun _ _ _ _ _ hi => absurd hi (by simp [Kernel.init]),
    Finset.notMem_empty 0⟩

lemma Kernel.Tidy.listsEntry (h : k.Tidy) {event : MapEvent} (hg : KeepsTree k event) :
    ListsEntry a fuel k event := by
  cases event with
  | add i start stop prot =>
    intro head hi htake m hm
    have hsound := h.sound head (mem_of_getElem? hi)
    have hcount : m.nentries = head.nentries + 1 := by
      obtain ⟨map, -, rfl⟩ := map_eq_some_iff.1 hm
      exact if_pos htake
    rcases (hsound.newEntry_added hg hm).placed with ⟨-, l, r, -, hlist, -⟩ | ⟨hsame, -⟩
    · rw [hlist]
      exact mem_append_right _ mem_cons_self
    · rw [hcount] at hsame
      exact absurd hsame (Nat.succ_ne_self _)
  | remove i entry => exact hg.elim
  | new => trivial
  | resize i entry newEnd => trivial
  | fault i addr type => trivial
  | clone i shown => trivial

/-- In every run without removals whose new entries start at user addresses, list,
counter and tree of every map agree in every state, and what is inserted is listed. -/
theorem entriesAgree_always (a : Allocators) (fuel : ℕ) (events : List MapEvent)
    (h : Meets (mapStep a fuel) KeepsTree .init events) :
    Always (mapStep a fuel) EntriesAgree .init events ∧
      Meets (mapStep a fuel) (ListsEntry a fuel) .init events := by
  have htidy := always_of_meets (fun _ _ _ hi hg hs => mapStep_tidy hi hg hs) tidy_init h
  constructor
  · exact htidy.mono fun _ ht head hm => (ht.sound head hm).toOrdered
  · exact h.mono htidy fun _ _ ht hkeeps => ht.listsEntry hkeeps

end

lemma sup_succ_notMem (s : Finset ℕ) : s.sup id + 1 ∉ s := fun h =>
  absurd (Finset.le_sup (f := id) h) (Nat.not_succ_le_self _)

def nextFree : Allocators where
  kmalloc used := used.sup id + 1
  pmAlloc frames := frames.sup id + 1
  kmalloc_notMem := sup_succ_notMem
  kmalloc_ne_zero _ := Nat.succ_ne_zero _
  pmAlloc_notMem := sup_succ_notMem

def dataProt : Prot := ⟨true, true, false⟩

/-- Two entries, one of which grows, and a clone with a fault and an entry whose start is
taken. -/
def cloneEvents : List MapEvent :=
  [.new, .add 0 0x20000 0x30000 dataProt, .add 0 0x10000 0x18000 dataProt,
    .resize 0 2 0x20000, .clone 0 fun _ => false, .fault 1 0x10010 .read,
    .add 1 0x20000 0x28000 dataProt]

theorem cloneEvents_agree :
    ((exec (mapStep nextFree 5) .init cloneEvents).map fun k => k.maps.map (·.list)) =
        some [[2, 1], [3, 4]] ∧ Always (mapStep nextFree 5) EntriesAgree .init cloneEvents :=
  ⟨by decide +kernel, (entriesAgree_always nextFree 5 cloneEvents
    (meets_of_check (by decide +kernel))).1⟩

/-- The first removal of a run leaves the tree with an entry that is not listed. -/
theorem remove_disagrees {a : Allocators} {fuel : ℕ} {events : List MapEvent} {k k' : Kernel}
    (i entry : ℕ) (hkeeps : Meets (mapStep a fuel) KeepsTree .init events)
    (hrun : exec (mapStep a fuel) .init events = some k)
    (hs : mapStep a fuel k (.remove i entry) = some k') : ¬ EntriesAgree k' := by
  have h := (always_of_meets (fun _ _ _ hi hg hs => mapStep_tidy hi hg hs) tidy_init
    hkeeps).last hrun
  obtain ⟨head, hi, hs⟩ := bind_eq_some_iff.1 hs
  obtain ⟨m, hm, hs⟩ := bind_eq_some_iff.1 hs
  cases hs
  obtain ⟨map, hrem, rfl⟩ := map_eq_some_iff.1 hm
  obtain ⟨obj, -, hmem, rfl⟩ := vmMapRemoveEntry_spec hrem
  have hsound := h.sound head (mem_of_getElem? hi)
  have hnodup : head.list.Nodup := hsound.nodup.of_cons
  have hout : entry ∉ head.list.erase entry := hnodup.not_mem_erase
  intro hagree
  have hlt : i < k.maps.length := (List.getElem?_eq_some_iff.1 hi).1
  have hclosed := (hagree _ (mem_of_getElem? (getElem?_set_self hlt))).tree.closed
  rcases hsound.tree.parent hnodup hmem with hroot | ⟨p, hp, hne, t, hlink⟩
  · exact hout (hclosed.1 entry hroot)
  · refine hout (hclosed.2 p (hnodup.mem_erase_iff.2 ⟨hne, hp⟩) t entry ?_)
    exact (if_neg hne).trans hlink

theorem remove_disagrees_root : ∃ k, exec (mapStep nextFree 5) .init
    [.new, .add 0 0x10000 0x11000 dataProt, .remove 0 1] = some k ∧ ¬ EntriesAgree k :=
  ⟨_, rfl, remove_disagrees 0 1 (meets_of_check (by decide +kernel))
    (rfl : exec (mapStep nextFree 5) .init [.new, .add 0 0x10000 0x11000 dataProt] = some _) rfl⟩

def removeEvents : List MapEvent :=
  [.new, .add 0 0x10000 0x11000 dataProt, .add 0 0x20000 0x21000 dataProt,
    .add 0 0x30000 0x31000 dataProt, .add 0 0x40000 0x41000 dataProt, .remove 0 3,
    .add 0 0x18000 0x19000 dataProt]

def reuseEvents : List MapEvent :=
  [.new, .add 0 0x10000 0x11000 dataProt, .remove 0 1, .add 0 0x20000 0x21000 dataProt]

def startsOf (k : Kernel) : List (List ℕ) :=
  k.maps.map fun head => head.list.map (k.load head).map.start

/-- After the removal the fifth entry is listed behind a higher one; and an entry in
the memory of a removed root is taken for the root and not listed at all. -/
theorem removeEvents_disagree : (∃ k, exec (mapStep nextFree 5) .init removeEvents = some k ∧
      startsOf k = [[0x10000, 0x20000, 0x18000, 0x40000]] ∧ ¬ EntriesAgree k) ∧
    ∃ k, exec (mapStep nextFree 5) .init reuseEvents = some k ∧
      startsOf k = [[]] ∧ ¬ EntriesAgree k := by
  refine ⟨⟨_, rfl, by decide +kernel, fun h => ?_⟩, ⟨_, rfl, by decide +kernel, fun h => ?_⟩⟩
  · have hsorted := (h _ mem_cons_self).sorted
    exact absurd hsorted (by decide +kernel)
  · have hroot := (h _ mem_cons_self).tree.closed.1 1 rfl
    exact absurd hroot (by decide +kernel)

end GzOS.Vm
