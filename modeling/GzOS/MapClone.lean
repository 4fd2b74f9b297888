import GzOS.Asids
import GzOS.MapOrder
import GzOS.Runs
import GzOS.SplayFrame

/-!
# Copying a memory map

`vm_map_clone` copies the resident pages byte by byte through the page table of the new
map; the first byte of a page faults, and the fault is served like any other. `Machine`
is the memory of all maps seen from one of them: the map, its counter, the entries that
`kmalloc` has given out and the contents of the frames. The words of the page table are
those that the window at `PT_BASE` shows.
-/
namespace GzOS.Vm
open SplayTree Runs Option List Function

structure Allocators where
  kmalloc : Finset ℕ → ℕ
  pmAlloc : Finset ℕ → ℕ
  kmalloc_notMem : ∀ used, kmalloc used ∉ used
  kmalloc_ne_zero : ∀ used, kmalloc used ≠ 0
  pmAlloc_notMem : ∀ frames, pmAlloc frames ∉ frames

/-- `shown` are the fragments of the map that was active before which the window still shows:
the TLB keeps its global entries when `pmap_activate` changes the map. -/
structure Machine where
  map : VmMap
  nentries : ℕ
  used : Finset ℕ
  memory : ℕ → ℕ → BitVec 8
  shown : ℕ → Bool

def blankEntry (map : VmMap) (entry start stop : ℕ) (prot : Prot) : VmMap :=
  VmMap.set { map with tree := { map.tree with mem := clearLinks map.tree.mem entry } } entry
    ⟨start, stop, prot, none⟩

def takesEntry (fuel : ℕ) (map : VmMap) (entry : ℕ) : Bool :=
  (splayInsert 0 (vmMapEntryCmp map.entries) fuel map.tree entry).any fun r => r.2.isNone

namespace Machine

/-- With the empty object that every caller gives the entry, whether it was inserted or not.
-/
def newEntry (a : Allocators) (fuel : ℕ) (m : Machine) (start stop : ℕ) (prot : Prot) :
    Option Machine :=
  let entry := a.kmalloc m.used
  (vmMapAddEntry fuel m.map entry start stop prot).map fun map =>
    { m with
      map := map.set entry { map.entries entry with object := some ∅ }
      nentries := if takesEntry fuel (blankEntry m.map entry start stop prot) entry
        then m.nentries + 1 else m.nentries
      used := insert entry m.used }

/-- `vm_page_fault` with the frames that `pm_alloc` gives out. -/
def pageFault (a : Allocators) (m : Machine) (faultAddr : ℕ) (faultType : FaultType) :
    Option (Machine × Bool) :=
  let frame := a.pmAlloc m.map.frames
  let fragment := a.pmAlloc (insert frame m.map.frames)
  (vmPageFault m.map faultAddr faultType frame fragment).map fun r => ({ m with map := r.1 }, r.2)

def present (m : Machine) (vaddr : ℕ) : Bool :=
  m.shown (pdeIndex vaddr) || (m.map.pmap.pde (pdeIndex vaddr)).valid

def writeThrough (m : Machine) (vaddr : ℕ) (byte : BitVec 8) : Option Machine :=
  let pte := m.map.pmap.pte (pteIndex vaddr)
  if m.present vaddr && pte.valid && pte.dirty then
    let contents := update (m.memory pte.pfn) (vaddr % pageSize) byte
    some { m with memory := update m.memory pte.pfn contents }
  else none

/-- Without a table fragment the read of the page table entry faults, otherwise the store
itself. -/
def storeByte (a : Allocators) (m : Machine) (vaddr : ℕ) (byte : BitVec 8) : Option Machine :=
  match m.writeThrough vaddr byte with
  | some m => some m
  | none =>
    let faultAddr := if m.present vaddr then vaddr else vaddr - vaddr % pageSize
    match m.pageFault a faultAddr (if m.present vaddr then .write else .read) with
    | some (m, true) => m.writeThrough vaddr byte
    | _ => none

def copyBytes (a : Allocators) (m : Machine) (dst frame : ℕ) : ℕ → Option Machine
  | 0 => some m
  | n + 1 => (copyBytes a m dst frame n).bind fun m =>
    m.storeByte a (dst + n) (m.memory frame n)

def cloneEntry (a : Allocators) (fuel : ℕ) (m : Machine) (it : ℕ) : Option Machine := do
  let e := m.map.entries it
  let m ← m.newEntry a fuel e.start e.stop e.prot
  let obj ← e.object
  exec (fun m (page : Sigma fun _ : ℕ => ℕ) =>
    m.copyBytes a (u32 (e.start + page.1)) page.2 pageSize) m obj.entries

/-- `vm_map_new`, in the memory of another map, which was active before. -/
def newMap (a : Allocators) (shown : ℕ → Bool) (m : Machine) : Machine where
  map := { VmMap.new (insert (a.pmAlloc m.map.frames) m.map.frames) with
    entries := m.map.entries
    tree := ⟨m.map.tree.mem, none⟩
    pmap.pte := fun i => if shown (i / 1024) then m.map.pmap.pte i else ⟨0, false, false, false⟩ }
  nentries := 0
  used := m.used
  memory := m.memory
  shown := shown

end Machine

/-- No number is given back. -/
def getNewAsid (asidCounter : ℕ) : Option ℕ :=
  if asidCounter < 255 then some (asidCounter + 1) else none

/-- The counter has eight bits. -/
lemma getNewAsid_toNat (counter : BitVec 8) : getNewAsid counter.toNat =
    (Asids.getNewAsid counter).toOption.map fun r => r.2.toNat := by
  rw [Asids.getNewAsid_eq, getNewAsid]
  split_ifs
  · simp only [Except.toOption, Option.map_some, BitVec.toNat_add]
    simp
    omega
  · rfl

/-- The machine seen from the new map, if the window shows `shown` of the old one when the copy
comes to these fragments. -/
def vmMapClone (a : Allocators) (fuel asidCounter : ℕ) (shown : ℕ → Bool) (m : Machine) :
    Option Machine :=
  (getNewAsid asidCounter).bind fun _ =>
    exec (Machine.cloneEntry a fuel) (m.newMap a shown) m.map.list

/-! ## List and tree -/

structure Ordered (m : Machine) : Prop where
  sorted : m.map.list.Pairwise fun p q => m.map.start p < m.map.start q
  counted : m.nentries = m.map.list.length
  tree : InOrder m.map.tree.mem .left m.map.tree.root m.map.list

structure Sound (m : Machine) : Prop extends Ordered m where
  below : ∀ p ∈ m.map.list, m.map.start p < pmapEnd
  allocated : ∀ p ∈ m.map.list, p ∈ m.used
  null : 0 ∉ m.used

variable {map : VmMap} {entry start stop : ℕ} {prot : Prot}

section
variable {a : Allocators} {fuel : ℕ} {m m' : Machine}

lemma Sound.nodup (h : Sound m) : (0 :: m.map.list).Nodup := by
  refine nodup_cons.2 ⟨fun h0 => h.null (h.allocated 0 h0), ?_⟩
  exact h.sorted.imp fun hlt he => absurd hlt (by simp [he])

lemma Sound.fresh (h : Sound m) : a.kmalloc m.used ∉ m.map.list :=
  fun hm => a.kmalloc_notMem m.used (h.allocated _ hm)

variable {map' : VmMap} {p vaddr : ℕ} {byte : BitVec 8}

lemma vmMapInsertEntry_cases (h : vmMapInsertEntry fuel map entry = some map')
    (ht : InOrder map.tree.mem .left map.tree.root map.list) (hn : (0 :: entry :: map.list).Nodup)
    (hc : Grows (vmMapEntryCmp map.entries entry) map.list) :
    (takesEntry fuel map entry ∧ ∃ tree k l, map.list = k ++ l ∧
      map' = { map with tree, list := k ++ entry :: l } ∧
      (∀ b ∈ k, vmMapEntryCmp map.entries entry b = .gt) ∧
      (∀ b ∈ l, vmMapEntryCmp map.entries entry b = .lt) ∧
      InOrder tree.mem .left tree.root (k ++ entry :: l)) ∨
    (takesEntry fuel map entry = false ∧ ∃ tree, map' = { map with tree } ∧
      (∃ b ∈ map.list, vmMapEntryCmp map.entries entry b = .eq) ∧
      InOrder tree.mem .left tree.root map.list) := by
  obtain ⟨⟨tree, same⟩, hi, hrest⟩ := bind_eq_some_iff.1 h
  have hlen : map.list.length ≤ fuel + map.list.length := by omega
  have hi' := splayInsert_mono map.list.length hi
  by_cases hne : ∀ b ∈ map.list, vmMapEntryCmp map.entries entry b ≠ .eq
  · obtain ⟨mem, k, l, hspec, -⟩ := splayInsert_spec ht hn hc hne hlen
    obtain ⟨rfl, rfl⟩ := Prod.mk.inj (some.inj (hi'.symm.trans hspec))
    exact .inl ⟨by simp [takesEntry, hi], vmMapInsertEntry_place h ht hn hc hne⟩
  · push Not at hne
    obtain ⟨b, hb, hbe⟩ := hne
    have hn' : (0 :: map.list).Nodup := hn.sublist ((sublist_cons_self _ _).cons_cons _)
    obtain ⟨mem, hspec, hin⟩ := splayInsert_found ht hn' hc hb hbe hlen
    obtain ⟨rfl, rfl⟩ := Prod.mk.inj (some.inj (hi'.symm.trans hspec))
    refine .inr ⟨by simp [takesEntry, hi], ⟨mem, some b⟩, ?_, ⟨b, hb, hbe⟩, hin⟩
    exact (some.inj hrest).symm

lemma vmMapInsertEntry_ok (ht : InOrder map.tree.mem .left map.tree.root map.list)
    (hn : (0 :: entry :: map.list).Nodup) (hc : Grows (vmMapEntryCmp map.entries entry) map.list)
    (hne : ∀ b ∈ map.list, vmMapEntryCmp map.entries entry b ≠ .eq) (hf : map.list.length < fuel) :
    ∃ map', vmMapInsertEntry fuel map entry = some map' := by
  obtain ⟨mem, k, l, hi, hkl, hk, hl, hin⟩ := splayInsert_spec ht hn hc hne hf.le
  have hn' := nodup_place hkl hn
  have hg := grows_place hkl hc hk hl
  have hlen : (k ++ entry :: l).length ≤ fuel := by
    rw [hkl] at hf
    simp only [length_append, length_cons] at hf ⊢
    omega
  obtain ⟨tree, hx, -⟩ := splayNext_spec (t := ⟨mem, some entry⟩) hin hn' hg (vmMapEntryCmp_self ..)
    hlen
  unfold vmMapInsertEntry
  simp only [hi, hx, bind_eq_bind, bind_some]
  cases l with
  | nil => exact ⟨_, rfl⟩
  | cons b l =>
    have hb : b ∈ map.list := by simp [hkl]
    exact ⟨_, if_pos hb⟩

lemma vmMapInsertEntry_keeps (S : Set ℕ) (links : Links ℕ)
    (h : vmMapInsertEntry fuel map entry = some map') (hk : Keeps (S \ {0}) S links map.tree.mem)
    (h0 : 0 ∈ S) (he : entry ∈ S) (hr : ∀ p, map.tree.root = some p → p ∈ S) :
    Keeps (S \ {0}) S links map'.tree.mem := by
  obtain ⟨⟨tree, same⟩, hi, h⟩ := bind_eq_some_iff.1 h
  obtain ⟨hk1, hr1⟩ := splayInsert_keeps hk h0 he hr hi
  dsimp only at h
  split_ifs at h
  · cases h
    exact hk1
  obtain ⟨⟨tree', next⟩, hx, h⟩ := bind_eq_some_iff.1 h
  have hk2 := (splayNext_keeps hk1 h0 hr1 hx).mono (Set.sdiff_subset (t := {0}))
  cases next with
  | none =>
    cases h
    exact hk2
  | some next =>
    dsimp only at h
    split_ifs at h
    cases h
    exact hk2

/-- `placed` says where the entry is listed, if it is. -/
structure Added (a : Allocators) (m m' : Machine) (start stop : ℕ) (prot : Prot) : Prop where
  entry : m'.map.entries (a.kmalloc m.used) = ⟨start, stop, prot, some ∅⟩
  others : ∀ p, p ≠ a.kmalloc m.used → m'.map.entries p = m.map.entries p
  links : ∀ p, p ≠ 0 → p ≠ a.kmalloc m.used → p ∉ m.map.list → m'.map.tree.mem p = m.map.tree.mem p
  used : m'.used = insert (a.kmalloc m.used) m.used
  rest : m'.map.pmap = m.map.pmap ∧ m'.map.frames = m.map.frames ∧ m'.memory = m.memory ∧
    m'.shown = m.shown
  placed : (m'.nentries = m.nentries + 1 ∧ ∃ k l, m.map.list = k ++ l ∧
      m'.map.list = k ++ a.kmalloc m.used :: l ∧ (∀ p ∈ k, m.map.start p < start) ∧
      ∀ p ∈ l, start < m.map.start p) ∨
    (m'.nentries = m.nentries ∧ m'.map.list = m.map.list ∧ ∃ p ∈ m.map.list, m.map.start p = start)
  tree : InOrder m'.map.tree.mem .left m'.map.tree.root m'.map.list

lemma cmp_blank (hs : start < pmapEnd) (he : entry ∉ m.map.list) (stop : ℕ) (prot : Prot)
    (hp : p ∈ m.map.list) : vmMapEntryCmp (blankEntry m.map entry start stop prot).entries entry p =
      compare start (m.map.start p) := by
  have hne : p ≠ entry := ne_of_mem_of_not_mem hp he
  have hbound : start < 2 ^ 31 := hs
  simp only [blankEntry, VmMap.set, vmMapEntryCmp, update_self, update_of_ne hne]
  exact compareStarts_eq hbound _

lemma Sound.blank_inOrder (h : Sound m) (he : entry ∉ m.map.list) (start stop : ℕ) (prot : Prot) :
    InOrder (blankEntry m.map entry start stop prot).tree.mem .left
      (blankEntry m.map entry start stop prot).tree.root
      (blankEntry m.map entry start stop prot).list := by
  refine h.tree.congr fun p hp => ?_
  have hne : p ≠ entry := ne_of_mem_of_not_mem hp he
  funext t
  exact if_neg hne

lemma Sound.blank_grows (h : Sound m) (hs : start < pmapEnd) (he : entry ∉ m.map.list) (stop : ℕ)
    (prot : Prot) :
    Grows (vmMapEntryCmp (blankEntry m.map entry start stop prot).entries entry) m.map.list := by
  refine h.sorted.imp_of_mem fun {p q} hp hq hpq => ?_
  rw [cmp_blank hs he stop prot hp, cmp_blank hs he stop prot hq, Nat.compare_eq_gt,
    Nat.compare_eq_lt]
  omega

lemma Sound.blank_nodup (h : Sound m) : (0 :: a.kmalloc m.used :: m.map.list).Nodup := by
  have hn := h.nodup
  rw [nodup_cons] at hn ⊢
  refine ⟨?_, nodup_cons.2 ⟨h.fresh, hn.2⟩⟩
  rw [mem_cons, not_or]
  exact ⟨(a.kmalloc_ne_zero m.used).symm, hn.1⟩

lemma Sound.blank_links (h : Sound m)
    (hadd : vmMapInsertEntry fuel (blankEntry m.map (a.kmalloc m.used) start stop prot)
      (a.kmalloc m.used) = some map) :
    ∀ p, p ≠ 0 → p ≠ a.kmalloc m.used → p ∉ m.map.list → map.tree.mem p = m.map.tree.mem p := by
  have hclosed := h.tree.closed
  have hkeeps := vmMapInsertEntry_keeps {p | p = 0 ∨ p = a.kmalloc m.used ∨ p ∈ m.map.list}
    (clearLinks m.map.tree.mem (a.kmalloc m.used)) hadd ?_ (.inl rfl) (.inr (.inl rfl))
    fun p hp => .inr (.inr (hclosed.1 p hp))
  · intro p h0 hne hl
    rw [hkeeps.outside p (by simp [h0, hne, hl])]
    funext t
    exact if_neg hne
  · refine ⟨fun p hp t b hb => ?_, fun p _ => rfl⟩
    change clearLinks m.map.tree.mem (a.kmalloc m.used) p t = some b at hb
    unfold clearLinks at hb
    split_ifs at hb with hne
    rcases hp.1 with h0 | he | hl
    · exact absurd h0 hp.2
    · exact absurd he hne
    · exact .inr (.inr (hclosed.2 p hl t b hb))

lemma Sound.newEntry_added (h : Sound m) (hs : start < pmapEnd)
    (hm : m.newEntry a fuel start stop prot = some m') : Added a m m' start stop prot := by
  obtain ⟨map, hadd, rfl⟩ := map_eq_some_iff.1 hm
  unfold vmMapAddEntry at hadd
  split_ifs at hadd with hassert
  change vmMapInsertEntry fuel (blankEntry m.map (a.kmalloc m.used) start stop prot) _ = _ at hadd
  have hfresh : a.kmalloc m.used ∉ m.map.list := h.fresh
  have htree := h.blank_inOrder hfresh start stop prot
  have hcmp := fun {p} hp => cmp_blank (p := p) hs hfresh stop prot hp
  have hlinks := h.blank_links hadd
  rcases vmMapInsertEntry_cases hadd htree h.blank_nodup (h.blank_grows hs hfresh stop prot) with
    ⟨htake, tree, k, l, hkl, rfl, hk, hl, hin⟩ | ⟨htake, tree, rfl, ⟨b, hb, hbe⟩, hin⟩
  · refine ⟨by simp [VmMap.set, blankEntry], fun p hp => by simp [VmMap.set, blankEntry, hp],
      hlinks, rfl, ⟨rfl, rfl, rfl, rfl⟩, .inl ⟨by simp [htake], k, l, hkl, rfl, ?_, ?_⟩, hin⟩
    · intro p hp
      have hlt := hk p hp
      have hmem : p ∈ m.map.list := hkl ▸ mem_append_left l hp
      rwa [hcmp hmem, Nat.compare_eq_gt] at hlt
    · intro p hp
      have hlt := hl p hp
      have hmem : p ∈ m.map.list := hkl ▸ mem_append_right k hp
      rwa [hcmp hmem, Nat.compare_eq_lt] at hlt
  · refine ⟨by simp [VmMap.set, blankEntry], fun p hp => by simp [VmMap.set, blankEntry, hp],
      hlinks, rfl, ⟨rfl, rfl, rfl, rfl⟩, .inr ⟨by simp [htake], rfl, b, hb, ?_⟩, hin⟩
    rw [hcmp hb, Nat.compare_eq_eq] at hbe
    exact hbe.symm

lemma Added.mem_list (hadd : Added a m m' start stop prot) (hp : p ∈ m'.map.list) :
    p = a.kmalloc m.used ∨ p ∈ m.map.list := by
  rcases hadd.placed with ⟨-, k, l, hkl, hlist, -⟩ | ⟨-, hlist, -⟩
  · rw [hlist] at hp
    simp only [hkl, mem_append, mem_cons] at hp ⊢
    tauto
  · exact .inr (hlist ▸ hp)

/-- The other entries stay, whether the new one is listed or not. -/
lemma Added.sound (hadd : Added a m m' start stop prot) (h : Sound m) (hs : start < pmapEnd) :
    Sound m' := by
  have hold : ∀ p ∈ m.map.list, m'.map.start p = m.map.start p := fun p hp => by
    rw [VmMap.start, hadd.others p (ne_of_mem_of_not_mem hp h.fresh)]
    rfl
  have hnew : m'.map.start (a.kmalloc m.used) = start := by rw [VmMap.start, hadd.entry]
  have hnull : 0 ∉ m'.used := by
    rw [hadd.used, Finset.mem_insert, not_or]
    exact ⟨(a.kmalloc_ne_zero m.used).symm, h.null⟩
  have hsorted : m.map.list.Pairwise fun p q => m'.map.start p < m'.map.start q :=
    h.sorted.imp_of_mem fun {p q} hp hq hpq => by rwa [hold p hp, hold q hq]
  rcases hadd.placed with ⟨hn, k, l, hkl, hlist, hk, hl⟩ | ⟨hn, hlist, -⟩
  · have hk' : ∀ p ∈ k, p ∈ m.map.list := fun p hp => by simp [hkl, hp]
    have hl' : ∀ p ∈ l, p ∈ m.map.list := fun p hp => by simp [hkl, hp]
    refine ⟨⟨?_, ?_, hadd.tree⟩, fun p hp => ?_, fun p hp => ?_, hnull⟩
    · rw [hlist]
      refine pairwise_insert (hkl ▸ hsorted) (fun p hp => ?_) fun q hq => ?_
      · rw [hnew, hold p (hk' p hp)]
        exact hk p hp
      · rw [hnew, hold q (hl' q hq)]
        exact hl q hq
    · rw [hn, hlist, h.counted, hkl]
      simp [Nat.add_assoc]
    · rcases hadd.mem_list hp with rfl | hp
      · rwa [hnew]
      · rw [hold p hp]
        exact h.below p hp
    · rw [hadd.used]
      rcases hadd.mem_list hp with rfl | hp
      · exact Finset.mem_insert_self _ _
      · exact Finset.mem_insert_of_mem (h.allocated p hp)
  · refine ⟨⟨?_, ?_, hadd.tree⟩, fun p hp => ?_, fun p hp => ?_, hnull⟩
    · rw [hlist]
      exact hsorted
    · rw [hn, hlist, h.counted]
    · rw [hlist] at hp
      rw [hold p hp]
      exact h.below p hp
    · rw [hlist] at hp
      rw [hadd.used]
      exact Finset.mem_insert_of_mem (h.allocated p hp)

/-! ## Faults and stores -/

structure Quiet (m m' : Machine) : Prop where
  list : m'.map.list = m.map.list
  tree : m'.map.tree = m.map.tree
  nentries : m'.nentries = m.nentries
  used : m'.used = m.used
  bounds : ∀ p, m'.map.start p = m.map.start p ∧ m'.map.stop p = m.map.stop p ∧
    (m'.map.entries p).prot = (m.map.entries p).prot
  others : ∀ p, p ∉ m.map.list → m'.map.entries p = m.map.entries p
  shown : m'.shown = m.shown

lemma Quiet.refl (m : Machine) : Quiet m m :=
  ⟨rfl, rfl, rfl, rfl, fun _ => ⟨rfl, rfl, rfl⟩, fun _ _ => rfl, rfl⟩

lemma Quiet.trans {m'' : Machine} (h : Quiet m m') (h' : Quiet m' m'') : Quiet m m'' where
  list := h'.list.trans h.list
  tree := h'.tree.trans h.tree
  nentries := h'.nentries.trans h.nentries
  used := h'.used.trans h.used
  bounds p := by
    obtain ⟨h1, h2, h3⟩ := h.bounds p
    obtain ⟨h1', h2', h3'⟩ := h'.bounds p
    exact ⟨h1'.trans h1, h2'.trans h2, h3'.trans h3⟩
  others p hp := (h'.others p (h.list ▸ hp)).trans (h.others p hp)
  shown := h'.shown.trans h.shown

lemma Quiet.sound (h : Quiet m m') (hm : Sound m) : Sound m' where
  sorted := by
    rw [h.list]
    refine hm.sorted.imp fun {p q} hpq => ?_
    rw [(h.bounds p).1, (h.bounds q).1]
    exact hpq
  counted := by rw [h.list, h.nentries, hm.counted]
  tree := by rw [h.list, h.tree]; exact hm.tree
  below p hp := by
    rw [(h.bounds p).1]
    exact hm.below p (h.list ▸ hp)
  allocated p hp := by
    rw [h.used]
    exact hm.allocated p (h.list ▸ hp)
  null := by rw [h.used]; exact hm.null

lemma pageFault_quiet {addr : ℕ} {type : FaultType} {served : Bool}
    (h : m.pageFault a addr type = some (m', served)) : Quiet m m' := by
  obtain ⟨⟨map, b⟩, hf, he⟩ := map_eq_some_iff.1 h
  obtain ⟨rfl, -⟩ := Prod.mk.inj he
  rcases vmPageFault_spec hf with hsame | ⟨entry, obj, obj', f, pmap, frames, hmem, -, -, -, rfl, -⟩
  · rw [hsame]
    exact Quiet.refl m
  refine ⟨rfl, rfl, rfl, rfl, fun p => ?_, fun p hp => ?_, rfl⟩
  · by_cases hp : p = entry
    · subst hp
      simp [VmMap.set, VmMap.start, VmMap.stop]
    · simp [VmMap.set, VmMap.start, VmMap.stop, hp]
  · have hne : p ≠ entry := fun he => hp (he ▸ hmem)
    simp [VmMap.set, hne]

lemma writeThrough_quiet (h : m.writeThrough vaddr byte = some m') : Quiet m m' := by
  unfold Machine.writeThrough at h
  dsimp only at h
  split_ifs at h
  cases h
  exact ⟨rfl, rfl, rfl, rfl, fun _ => ⟨rfl, rfl, rfl⟩, fun _ _ => rfl, rfl⟩

lemma storeByte_quiet (h : m.storeByte a vaddr byte = some m') : Quiet m m' := by
  unfold Machine.storeByte at h
  split at h
  · next m1 hw =>
    cases h
    exact writeThrough_quiet hw
  · dsimp only at h
    split at h
    · next m1 hf => exact (pageFault_quiet hf).trans (writeThrough_quiet h)
    · cases h

lemma copyBytes_quiet {dst frame n : ℕ} (h : m.copyBytes a dst frame n = some m') :
    Quiet m m' := by
  induction n generalizing m' with
  | zero => exact some.inj h ▸ Quiet.refl m
  | succ n ih =>
    obtain ⟨m1, h1, h2⟩ := bind_eq_some_iff.1 h
    exact (ih h1).trans (storeByte_quiet h2)

/-! ## The copy -/

/-- Nothing in use in `m` is touched, and what `m'` lists is new. -/
structure Apart (m m' : Machine) : Prop where
  used : m.used ⊆ m'.used
  listed : ∀ p ∈ m'.map.list, p ∉ m.used
  entries : ∀ p ∈ m.used, m'.map.entries p = m.map.entries p
  links : ∀ p ∈ m.used, m'.map.tree.mem p = m.map.tree.mem p

section
variable {m0 : Machine}

lemma Quiet.apart (h : Quiet m m') (hm : Apart m0 m) : Apart m0 m' where
  used := by rw [h.used]; exact hm.used
  listed p hp := hm.listed p (h.list ▸ hp)
  entries p hp := by
    rw [h.others p fun hl => hm.listed p hl hp]
    exact hm.entries p hp
  links p hp := by rw [h.tree]; exact hm.links p hp

lemma Added.apart (hadd : Added a m m' start stop prot) (h : Sound m) (hm : Apart m0 m) :
    Apart m0 m' := by
  have hnew : a.kmalloc m.used ∉ m0.used := fun hu => a.kmalloc_notMem m.used (hm.used hu)
  have hne : ∀ p ∈ m0.used, p ≠ a.kmalloc m.used := fun p hp => ne_of_mem_of_not_mem hp hnew
  constructor
  · rw [hadd.used]
    exact hm.used.trans (Finset.subset_insert _ _)
  · intro p hp
    rcases hadd.mem_list hp with rfl | hp
    · exact hnew
    · exact hm.listed p hp
  · intro p hp
    rw [hadd.others p (hne p hp)]
    exact hm.entries p hp
  · intro p hp
    have h0 : p ≠ 0 := fun he => h.null (hm.used (he ▸ hp))
    rw [hadd.links p h0 (hne p hp) fun hl => hm.listed p hl hp]
    exact hm.links p hp

lemma cloneEntry_apart {it : ℕ} (h : Sound m) (hm : Apart m0 m) (hit : it ∈ m0.used)
    (hbelow : m0.map.start it < pmapEnd) (hc : m.cloneEntry a fuel it = some m') :
    Sound m' ∧ Apart m0 m' := by
  obtain ⟨m1, h1, hc⟩ := bind_eq_some_iff.1 hc
  obtain ⟨obj, -, hc⟩ := bind_eq_some_iff.1 hc
  have hstart : (m.map.entries it).start < pmapEnd := by
    rw [hm.entries it hit]
    exact hbelow
  have hadd := h.newEntry_added hstart h1
  refine (always_of_step (I := fun m' => Sound m' ∧ Apart m0 m') (fun _ _ _ hi hs => ?_)
    ⟨hadd.sound h hstart, hadd.apart h hm⟩ obj.entries).last hc
  have hquiet := copyBytes_quiet hs
  exact ⟨hquiet.sound hi.1, hquiet.apart hi.2⟩

lemma newMap_apart (h : 0 ∉ m.used) (shown : ℕ → Bool) :
    Sound (m.newMap a shown) ∧ Apart m (m.newMap a shown) :=
  ⟨⟨⟨List.Pairwise.nil, rfl, .null⟩, fun _ hp => absurd hp not_mem_nil,
      fun _ hp => absurd hp not_mem_nil, h⟩,
    ⟨subset_rfl, fun _ hp => absurd hp not_mem_nil, fun _ _ => rfl, fun _ _ => rfl⟩⟩

lemma vmMapClone_apart {asidCounter : ℕ} {shown : ℕ → Bool} (h0 : 0 ∉ m.used)
    (hlist : ∀ p ∈ m.map.list, p ∈ m.used ∧ m.map.start p < pmapEnd)
    (hc : vmMapClone a fuel asidCounter shown m = some m') : Sound m' ∧ Apart m m' := by
  obtain ⟨-, -, hc⟩ := bind_eq_some_iff.1 hc
  refine (always_of_meets (I := fun m' => Sound m' ∧ Apart m m')
    (G := fun _ it => it ∈ m.map.list) (fun _ it _ hi hit hs => ?_)
    (newMap_apart h0 shown)
    fun pre it hp _ _ => hp.subset (by simp)).last hc
  exact cloneEntry_apart hi.1 hi.2 (hlist it hit).1 (hlist it hit).2 hs

end

end

end GzOS.Vm
