import GzOS.Kmalloc
import GzOS.Runs

/-!
# What the heap writes

The operations on the lists of free blocks write to headers only: those of the
listed blocks and that of the block they are called with. This holds of the code
alone, whatever the memory contains.
-/
namespace GzOS.Kmalloc
open ByteMemory Runs List

def Writes (headers : List ℕ) (mem mem' : Mem) : Prop :=
  ∀ x, (∀ a ∈ headers, x < a ∨ a + 16 ≤ x) → mem' x = mem x

variable {hs hs' : List ℕ} {mem m1 m2 m3 : Mem} {a w : ℕ} {f : FreeList}

lemma Writes.refl (hs : List ℕ) (mem : Mem) : Writes hs mem mem := fun _ _ => rfl

lemma Writes.trans (h1 : Writes hs m1 m2) (h2 : Writes hs m2 m3) : Writes hs m1 m3 :=
  fun x hx => (h2 x hx).trans (h1 x hx)

lemma Writes.mono (h : Writes hs m1 m2) (hsub : hs ⊆ hs') : Writes hs' m1 m2 :=
  fun x hx => h x fun a ha => hx a (hsub ha)

lemma setPrev_writes (ha : a ∈ hs) : Writes hs mem (setPrev mem a w) := by
  intro x hx
  have := hx a ha
  exact writeWord_of_ne (by omega)

lemma setSize_writes (ha : a ∈ hs) : Writes hs mem (setSize mem a w) := by
  intro x hx
  have := hx a ha
  exact writeWord_of_ne (by omega)

lemma relink_writes {next : Option ℕ} (hnext : ∀ e, next = some e → e ∈ hs) :
    Writes hs mem (relink mem next w) := by
  cases next with
  | none => exact .refl hs mem
  | some e => exact setPrev_writes (hnext e rfl)

lemma initBlock_writes (mem : Mem) (mb totalSize : ℕ) :
    Writes [mb] mem (initBlock mem mb totalSize) := by
  intro x hx
  have hout := hx mb mem_cons_self
  rw [initBlock, setSize, writeWord_of_ne (by omega), writeWord_of_ne (by omega)]
  exact zero_of_ne hout

variable {l : List ℕ} {mb req ptr : ℕ} {g : FreeList} {mp mp' : Pool}

lemma mem_of_nextOf {e : ℕ} (h : nextOf l mb = some e) : e ∈ l :=
  (dropWhile_sublist _).subset (mem_of_mem_tail (mem_of_mem_head? h))

structure Confined (hs : List ℕ) (f g : FreeList) : Prop where
  writes : Writes hs f.mem g.mem
  list : g.list ⊆ hs

lemma Confined.trans {g' : FreeList} (h1 : Confined hs f g) (h2 : Confined hs g g') :
    Confined hs f g' :=
  ⟨h1.writes.trans h2.writes, h2.list⟩

lemma insertHead_confined (ma mb : ℕ) (f : FreeList) :
    Confined (mb :: f.list) f (insertHead ma f mb) := by
  refine ⟨Writes.trans (relink_writes fun e he => ?_) (setPrev_writes mem_cons_self), ?_⟩
  · exact mem_cons_of_mem _ (mem_of_mem_head? he)
  · exact List.Subset.refl _

lemma insertAfter_confined {best : ℕ} (hbest : best ∈ f.list) (mb : ℕ) :
    Confined (mb :: f.list) f (insertAfter f best mb) := by
  refine ⟨Writes.trans (relink_writes fun e he => ?_) (setPrev_writes mem_cons_self),
    fun e he => ?_⟩
  · exact mem_cons_of_mem _ (mem_of_nextOf he)
  simp only [insertAfter, mem_append, mem_cons] at he
  rcases he with he | rfl | rfl | he
  · exact mem_cons_of_mem _ ((takeWhile_sublist _).subset he)
  · exact mem_cons_of_mem _ hbest
  · exact mem_cons_self
  · exact mem_cons_of_mem _ ((dropWhile_sublist _).subset (mem_of_mem_tail he))

lemma remove_confined (hsub : f.list ⊆ hs) (mb : ℕ) : Confined hs f (remove f mb) :=
  ⟨relink_writes fun _ he => hsub (mem_of_nextOf he), fun _ he => hsub (mem_of_mem_erase he)⟩

lemma mergeRight_confined (hsub : f.list ⊆ hs) (hmb : mb ∈ hs) :
    Confined hs f (mergeRight f mb) := by
  unfold mergeRight
  cases nextOf f.list mb with
  | none => exact ⟨.refl hs _, hsub⟩
  | some next =>
    simp only
    split_ifs
    · have hremove := remove_confined hsub next
      exact ⟨hremove.writes.trans (setSize_writes hmb), hremove.list⟩
    · exact ⟨.refl hs _, hsub⟩

lemma linkBlock_confined (ma mb : ℕ) (f : FreeList) :
    Confined (mb :: f.list) f (linkBlock ma f mb) := by
  unfold linkBlock
  split_ifs
  · exact insertHead_confined ma mb f
  cases hlast : (f.list.filter fun current => decide (current < mb)).getLast? with
  | none =>
    have hhead := insertHead_confined ma mb f
    exact hhead.trans (mergeRight_confined hhead.list mem_cons_self)
  | some best =>
    have hbest : best ∈ f.list := (mem_filter.1 (mem_of_mem_getLast? hlast)).1
    have hafter := insertAfter_confined hbest mb
    have hright := mergeRight_confined hafter.list (mem_cons_self : mb ∈ mb :: f.list)
    exact (hafter.trans hright).trans
      (mergeRight_confined hright.list (mem_cons_of_mem _ hbest))

lemma addFreeMemoryBlock_confined (ma mb totalSize : ℕ) (f : FreeList) :
    Confined (mb :: f.list) f (addFreeMemoryBlock ma f mb totalSize) := by
  have hlink := linkBlock_confined ma mb { f with mem := initBlock f.mem mb totalSize }
  refine ⟨Writes.trans ?_ hlink.writes, hlink.list⟩
  exact (initBlock_writes f.mem mb totalSize).mono (by simp)

def restOf (mb requestedSize : ℕ) : ℕ := u32 (mb + requestedSize + sizeofMemBlock)

lemma takeBlock_confined (ma : ℕ) (hmb : mb ∈ f.list) (requestedSize : ℕ) :
    Confined (restOf mb requestedSize :: f.list) f (takeBlock ma f mb requestedSize) := by
  have hremove := remove_confined (subset_cons_self (restOf mb requestedSize) f.list) mb
  unfold takeBlock
  simp only
  split_ifs
  · have hadd := addFreeMemoryBlock_confined ma (restOf mb requestedSize)
      (sub32 (mbSize (remove f mb).mem mb) requestedSize)
      ⟨setSize (remove f mb).mem mb (sub32 0 requestedSize), (remove f mb).list⟩
    have hsub : restOf mb requestedSize :: (remove f mb).list ⊆
        restOf mb requestedSize :: f.list := cons_subset_cons _ erase_subset
    refine ⟨?_, fun e he => hsub (hadd.list he)⟩
    exact (hremove.writes.trans (setSize_writes (mem_cons_of_mem _ hmb))).trans
      (hadd.writes.mono hsub)
  · exact ⟨hremove.writes.trans (setSize_writes (mem_cons_of_mem _ hmb)), hremove.list⟩

/-! The arenas. -/

def freeHeaders (arenas : List Arena) : List ℕ := arenas.flatMap Arena.freeblks

lemma mem_of_findEntry {total : ℕ} (h : findEntry mem total l = .ok (some mb)) : mb ∈ l := by
  induction l with
  | nil => cases h
  | cons e l ih =>
    rw [findEntry] at h
    split_ifs at h with hmagic hroom
    · obtain rfl : e = mb := by simpa using h
      exact mem_cons_self
    · exact mem_cons_of_mem _ (ih h)

lemma tryAllocatingInArea_confined {ma : ℕ}
    (h : tryAllocatingInArea ma f req = .ok (some (mb, g))) :
    Confined (restOf mb req :: f.list) f g := by
  obtain ⟨found, hfind, hrest⟩ := bind_ok.1 h
  cases found with
  | none => cases hrest
  | some e =>
    obtain ⟨rfl, rfl⟩ : e = mb ∧ takeBlock ma f e req = g := by
      simpa [pure, Except.pure] using hrest
    exact takeBlock_confined ma (mem_of_findEntry hfind) req

lemma allocInArenas_writes {arenas arenas' : List Arena} {mem' : Mem}
    (h : allocInArenas mem req arenas = .ok (some (mb, mem', arenas'))) :
    Writes (restOf mb req :: freeHeaders arenas) mem mem' ∧
      freeHeaders arenas' ⊆ restOf mb req :: freeHeaders arenas := by
  induction arenas generalizing arenas' with
  | nil => cases h
  | cons ar arenas ih =>
    have hheaders : ∀ a as, freeHeaders (a :: as) = a.freeblks ++ freeHeaders as :=
      fun _ _ => flatMap_cons
    rw [allocInArenas] at h
    split_ifs at h with hmagic
    obtain ⟨found, htry, hrest⟩ := bind_ok.1 h
    rcases found with _ | ⟨e, g⟩
    · obtain ⟨later, hlater, hrest⟩ := bind_ok.1 hrest
      rcases later with _ | ⟨e, m, as⟩
      · cases hrest
      obtain ⟨rfl, rfl, rfl⟩ : e = mb ∧ m = mem' ∧ ar :: as = arenas' := by
        simpa [pure, Except.pure] using hrest
      obtain ⟨hwrites, hsub⟩ := ih hlater
      refine ⟨hwrites.mono ?_, ?_⟩ <;> grind
    · obtain ⟨rfl, rfl, rfl⟩ : e = mb ∧ g.mem = mem' ∧
          { ar with freeblks := g.list } :: arenas = arenas' := by
        simpa [pure, Except.pure] using hrest
      obtain ⟨hwrites, hsub⟩ := tryAllocatingInArea_confined htry
      refine ⟨hwrites.mono ?_, ?_⟩ <;> grind

lemma freeInArenas_writes (addr mb : ℕ) (mem : Mem) (arenas : List Arena) :
    Writes (mb :: freeHeaders arenas) mem (freeInArenas addr mb mem arenas).1 := by
  induction arenas generalizing mem with
  | nil => exact .refl _ mem
  | cons ar arenas ih =>
    have hheaders : freeHeaders (ar :: arenas) = ar.freeblks ++ freeHeaders arenas :=
      flatMap_cons
    have hrest : mb :: freeHeaders arenas ⊆ mb :: freeHeaders (ar :: arenas) := by
      grind
    rw [freeInArenas]
    split_ifs
    · have hadd := (addFreeMemoryBlock_confined ar.base mb
        (u32 (abs32 (mbSize mem mb) + sizeofMemBlock)) ⟨mem, ar.freeblks⟩).writes
      refine Writes.trans (hadd.mono ?_) ((ih _).mono hrest)
      grind
    · exact (ih mem).mono hrest

lemma kmalloc_writes {size flags : ℕ} (h : kmalloc mp size flags = .ok (some ptr, mp')) :
    (∀ x, (x < ptr ∨ ptr + size ≤ x) →
      (∀ a ∈ restOf (ptr - sizeofMemBlock) (align size mbAlignment) :: freeHeaders mp.mpArena,
        x < a ∨ a + 16 ≤ x) → mp'.mem x = mp.mem x) ∧ freeHeaders mp'.mpArena ⊆
        restOf (ptr - sizeofMemBlock) (align size mbAlignment) :: freeHeaders mp.mpArena := by
  rw [kmalloc] at h
  by_cases hzero : size = 0
  · rw [if_pos hzero] at h
    cases h
  rw [if_neg hzero] at h
  obtain ⟨found, halloc, hrest⟩ := bind_ok.1 h
  rcases found with _ | ⟨mb, mem, arenas⟩
  · simp only at hrest
    split_ifs at hrest
    cases hrest
  · obtain ⟨rfl, rfl⟩ : mb + sizeofMemBlock = ptr ∧ _ = mp' := by
      simpa only [pure, Except.pure, Except.ok.injEq, Prod.mk.injEq, Option.some.injEq] using hrest
    obtain ⟨hwrites, hsub⟩ := allocInArenas_writes halloc
    refine ⟨fun x hdata hheaders => ?_, hsub⟩
    rw [← hwrites x hheaders]
    simp only
    split_ifs
    · exact zero_of_ne hdata
    · rfl

lemma kfree_writes (h : kfree mp ptr = .ok mp') :
    Writes (sub32 (dataOf mp.mem ptr) sizeofMemBlock :: freeHeaders mp.mpArena)
      mp.mem mp'.mem := by
  rw [kfree] at h
  split_ifs at h
  cases h
  exact freeInArenas_writes _ _ _ _

end GzOS.Kmalloc
