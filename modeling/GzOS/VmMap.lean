import GzOS.Bindings
import GzOS.SplayTree
import Mathlib.Data.Finset.Basic

/-!
# The memory map of a process

A map has its entries in a splay tree by start address and in a list in the same order, and
a page table. An entry that is freed while the tree still points to it stays where it is,
zeroed, until its memory is used again. What `kmalloc` and `pm_alloc` give out and whether
`HashMap::put` finds memory are choices of the run. `none` stands for a failed assertion, a
panic, a write through a null pointer or a walk that does not end within the fuel.
-/
namespace GzOS.Vm
open Bindings SplayTree Function

def pageSize : ℕ := 4096
def pmapStart : ℕ := 0
def pmapEnd : ℕ := 0x80000000

def u32 (x : ℕ) : ℕ := x % 2 ^ 32

def isAligned (addr : ℕ) : Bool := addr % pageSize == 0

structure Prot where
  read : Bool
  write : Bool
  exec : Bool
  deriving DecidableEq

def Prot.none : Prot := ⟨false, false, false⟩

inductive FaultType
  | read
  | write
  deriving DecidableEq

/-! ## The page table -/

structure Pte where
  pfn : ℕ
  valid : Bool
  dirty : Bool
  global : Bool

/-- A directory of page table fragments with 1024 pages each. -/
structure Pmap where
  pde : ℕ → Pte
  pte : ℕ → Pte

def pteIndex (vaddr : ℕ) : ℕ := vaddr / pageSize
def pdeIndex (vaddr : ℕ) : ℕ := vaddr / (1024 * pageSize)

lemma pdeIndex_eq (vaddr : ℕ) : pdeIndex vaddr = pteIndex vaddr / 1024 := by
  rw [pdeIndex, pteIndex, Nat.div_div_eq_div_mul, Nat.mul_comm]

def pmapIsMapped (pmap : Pmap) (vaddr : ℕ) : Bool :=
  (pmap.pde (pdeIndex vaddr)).valid && (pmap.pte (pteIndex vaddr)).valid

/-- Install the fragment in frame `pg`, with no page of it valid. -/
def pmapAddPde (pmap : Pmap) (vaddr pg : ℕ) : Pmap where
  pde := update pmap.pde (pdeIndex vaddr) ⟨pg, true, true, true⟩
  pte i := if i / 1024 = pdeIndex vaddr then ⟨0, false, false, true⟩ else pmap.pte i

/-- `PTE_PFN(paddr) | vm_prot_map[prot]`, for a user address. -/
def userPte (frame : ℕ) (prot : Prot) : Pte :=
  ⟨frame, prot.read || prot.write || prot.exec, prot.write, false⟩

/-! ## Objects and entries -/

/-- The pages of a `vm_object`: the frame at each offset. -/
abbrev VmObject := AList fun _ : ℕ => ℕ

structure Entry where
  start : ℕ
  stop : ℕ
  prot : Prot
  object : Option VmObject

/-- The contents of freed memory. -/
def Entry.zero : Entry := ⟨0, 0, Prot.none, none⟩

/-- `frames` are those that the allocator has given out, to this map or elsewhere;
`removed`, whether an entry has been removed, is not in the source. -/
structure VmMap where
  entries : ℕ → Entry
  tree : SplayHead ℕ
  list : List ℕ
  pmap : Pmap
  frames : Finset ℕ
  removed : Bool

def VmMap.start (map : VmMap) (entry : ℕ) : ℕ := (map.entries entry).start
def VmMap.stop (map : VmMap) (entry : ℕ) : ℕ := (map.entries entry).stop

def VmMap.set (map : VmMap) (entry : ℕ) (e : Entry) : VmMap :=
  { map with entries := update map.entries entry e }

def VmMap.new (frames : Finset ℕ) : VmMap where
  entries _ := Entry.zero
  tree := ⟨fun _ _ => none, none⟩
  list := []
  pmap := ⟨fun _ => ⟨0, false, false, false⟩, fun _ => ⟨0, false, false, false⟩⟩
  frames
  removed := false

/-- The sign of the difference as a 32-bit integer. -/
def compareStarts (a b : ℕ) : Ordering :=
  if a < b then .lt else if a = b then .eq else if a - b < 2 ^ 31 then .gt else .lt

def vmMapEntryCmp (entries : ℕ → Entry) (a b : ℕ) : Ordering :=
  compareStarts (entries a).start (entries b).start

/-- `memset` of an entry, as far as the tree is concerned. -/
def clearLinks (mem : Links ℕ) (entry : ℕ) : Links ℕ :=
  fun b t => if b = entry then none else mem b t

def insertBefore (list : List ℕ) (next entry : ℕ) : List ℕ :=
  list.takeWhile (fun e => decide (e ≠ next)) ++ entry :: list.dropWhile fun e => decide (e ≠ next)

/-- `TAILQ_NEXT`; null for an entry that is not in the list. -/
def nextOf (list : List ℕ) (entry : ℕ) : Option ℕ :=
  (list.dropWhile fun e => decide (e ≠ entry)).tail.head?

/-- An entry whose start is taken is not inserted. The local header of the splay is at
address 0. -/
def vmMapInsertEntry (fuel : ℕ) (map : VmMap) (entry : ℕ) : Option VmMap := do
  let cmp := vmMapEntryCmp map.entries
  let (tree, same) ← splayInsert 0 cmp fuel map.tree entry
  if same.isSome then return { map with tree }
  let (tree, next) ← splayNext 0 cmp fuel tree entry
  match next with
  | none => return { map with tree, list := map.list ++ [entry] }
  | some next =>
    -- an entry outside the list has a null back link
    if next ∈ map.list then return { map with tree, list := insertBefore map.list next entry }
    else none

def vmMapFindEntry (map : VmMap) (vaddr : ℕ) : Option ℕ :=
  map.list.find? fun e => decide (map.start e ≤ vaddr ∧ vaddr < map.stop e)

def vmMapAddEntry (fuel : ℕ) (map : VmMap) (entry start stop : ℕ) (prot : Prot) : Option VmMap :=
  if pmapStart ≤ start ∧ stop ≤ pmapEnd ∧ isAligned start ∧ isAligned stop then
    let map := { map with tree := { map.tree with mem := clearLinks map.tree.mem entry } }
    vmMapInsertEntry fuel (map.set entry ⟨start, stop, prot, none⟩) entry
  else none

def vmObjectFree (frames : Finset ℕ) (obj : VmObject) : Finset ℕ := frames \ (values obj).toFinset

/-- The entry leaves the list, but not the tree. -/
def vmMapRemoveEntry (map : VmMap) (entry : ℕ) : Option VmMap := do
  let obj ← (map.entries entry).object
  if entry ∈ map.list then
    return {
      entries := update map.entries entry Entry.zero
      tree := { map.tree with mem := clearLinks map.tree.mem entry }
      list := map.list.erase entry
      pmap := map.pmap
      frames := vmObjectFree map.frames obj
      removed := true }
  else none

def findGap (map : VmMap) (length : ℕ) : ℕ → List ℕ → Option ℕ
  | _, [] => none
  | start, it :: rest =>
    let gapEnd := match rest with
      | [] => pmapEnd
      | next :: _ => map.start next
    let start := if start < map.stop it then map.stop it else start
    if u32 (start + length) ≤ gapEnd then some start else findGap map length start rest

/-- The inner `none` stands for `-ENOMEM`. -/
def vmMapFindspace (map : VmMap) (start length : ℕ) : Option (Option ℕ) :=
  if isAligned start ∧ isAligned length then
    let start := if start < pmapStart then pmapStart else start
    if u32 (start + length) > pmapEnd then some none
    else
      match map.list with
      | [] => some (some start)
      | first :: rest =>
        if u32 (start + length) ≤ map.start first then some (some start)
        else some (findGap map length start (first :: rest))
  else none

def vmMapResize (map : VmMap) (entry newEnd : ℕ) : Option (VmMap × Bool) :=
  if isAligned newEnd ∧ newEnd ≥ map.stop entry then
    let resized := map.set entry { map.entries entry with stop := newEnd }
    if newEnd > map.stop entry then
      let gapEnd := match nextOf map.list entry with
        | none => pmapEnd
        | some next => map.start next
      if newEnd > gapEnd then some (map, false) else some (resized, true)
    else if newEnd < map.start entry then some (map, false)
    else some (resized, true)
  else none

/-! ## Page faults -/

def pmAlloc (map : VmMap) (frame : ℕ) : Option VmMap :=
  if frame ∈ map.frames then none else some { map with frames := insert frame map.frames }

def defaultPagerFault (map : VmMap) (entry offset : ℕ) (obj : VmObject) (frame : ℕ) :
    Option VmMap := do
  let map ← pmAlloc map frame
  if isAligned offset then
    return map.set entry { map.entries entry with object := some (obj.insert offset frame) }
  else none

/-- The fragment comes first, if it is not there yet. -/
def pmapSetPte (map : VmMap) (vaddr frame : ℕ) (prot : Prot) (fragment : ℕ) : Option VmMap :=
  let withPde := if (map.pmap.pde (pdeIndex vaddr)).valid then some map
    else (pmAlloc map fragment).map fun m => { m with pmap := pmapAddPde m.pmap vaddr fragment }
  withPde.map fun m =>
    let pte := update m.pmap.pte (pteIndex vaddr) (userPte frame prot)
    { m with pmap := { m.pmap with pte } }

/-- For one page, as the page fault calls it. -/
def pmapMap (map : VmMap) (vaddr frame : ℕ) (prot : Prot) (fragment : ℕ) : Option VmMap :=
  if isAligned vaddr ∧ pmapStart ≤ vaddr ∧ vaddr + pageSize ≤ pmapEnd then
    if pmapIsMapped map.pmap vaddr then none else pmapSetPte map vaddr frame prot fragment
  else none

/-- `frame` and `fragment` are what `pm_alloc` gives out, if needed. `false` is a
segmentation fault. -/
def vmPageFault (map : VmMap) (faultAddr : ℕ) (faultType : FaultType) (frame fragment : ℕ) :
    Option (VmMap × Bool) :=
  match vmMapFindEntry map faultAddr with
  | none => some (map, false)
  | some entry =>
    let e := map.entries entry
    if e.prot = Prot.none then some (map, false)
    else if e.prot.write = false ∧ faultType = .write then some (map, false)
    else if e.prot.read = false ∧ faultType = .read then some (map, false)
    else do
      let obj ← e.object
      let faultPage := faultAddr - faultAddr % pageSize
      let offset := u32 (faultPage + 2 ^ 32 - e.start)
      match obj.lookup offset with
      | some frame => return (← pmapMap map faultPage frame e.prot fragment, true)
      | none =>
        let map ← defaultPagerFault map entry offset obj frame
        return (← pmapMap map faultPage frame e.prot fragment, true)

/-! ## Named regions -/

/-- What `strncpy` copies, with the last byte taken as zero. -/
def generateKey (name : List Char) : List Char := name.take 31

/-- The regions by name; a region points to its entry. -/
structure ProcessMemoryMap where
  map : VmMap
  regions : AList fun _ : List Char => ℕ

def ProcessMemoryMap.data (pm : ProcessMemoryMap) : List ℕ := values pm.regions

def ProcessMemoryMap.get (pm : ProcessMemoryMap) (name : List Char) : Option ℕ :=
  pm.regions.lookup (generateKey name)

def ProcessMemoryMap.new (frames : Finset ℕ) : ProcessMemoryMap := ⟨VmMap.new frames, ∅⟩

structure RegionArgs where
  name : List Char
  start : ℕ
  stop : ℕ
  prot : Prot

/-- The memory of the entry, and whether `HashMap::put` finds memory. -/
structure Alloc where
  entry : ℕ
  put : Bool

def newRegion (fuel : ℕ) (map : VmMap) (r : RegionArgs) (entry : ℕ) : Option VmMap :=
  (vmMapAddEntry fuel map entry r.start r.stop r.prot).map fun map =>
    map.set entry { map.entries entry with object := some ∅ }

/-- The entry of the new region, or null. A region that is not put into the table is
destroyed again. -/
def createMemoryRegion (fuel : ℕ) (pm : ProcessMemoryMap) (r : RegionArgs) (a : Alloc) :
    Option (ProcessMemoryMap × Option ℕ) :=
  if (pm.get r.name).isSome then some (pm, none)
  else if a.entry = 0 ∨ a.entry ∈ pm.data then none
  else do
    let map ← newRegion fuel pm.map r a.entry
    if a.put then
      return (⟨map, pm.regions.insert (generateKey r.name) a.entry⟩, some a.entry)
    else return (⟨← vmMapRemoveEntry map a.entry, pm.regions⟩, none)

def createMemoryRegionInRange (fuel : ℕ) (pm : ProcessMemoryMap) (name : List Char)
    (start size : ℕ) (prot : Prot) (a : Alloc) : Option (ProcessMemoryMap × Option ℕ) := do
  match ← vmMapFindspace pm.map start size with
  | none => return (pm, none)
  | some addr => createMemoryRegion fuel pm ⟨name, addr, u32 (addr + size), prot⟩ a

def destroyMemoryRegion (pm : ProcessMemoryMap) (name : List Char) : Option ProcessMemoryMap :=
  match pm.get name with
  | none => some pm
  | some entry =>
    (vmMapRemoveEntry pm.map entry).map fun map => ⟨map, pm.regions.erase (generateKey name)⟩

def extend (pm : ProcessMemoryMap) (name : List Char) (endAddr : ℕ) :
    Option (ProcessMemoryMap × Bool) :=
  match pm.get name with
  | none => some (pm, false)
  | some entry =>
    if pm.map.start entry ≤ endAddr ∧ endAddr ≤ pm.map.stop entry then some (pm, true)
    else (vmMapResize pm.map entry endAddr).map fun r => ({ pm with map := r.1 }, r.2)

inductive Event
  | create (r : RegionArgs) (a : Alloc)
  | createInRange (name : List Char) (start size : ℕ) (prot : Prot) (a : Alloc)
  | destroy (name : List Char)
  | extend (name : List Char) (endAddr : ℕ)
  | fault (addr : ℕ) (type : FaultType) (frame fragment : ℕ)

def step (fuel : ℕ) (pm : ProcessMemoryMap) : Event → Option ProcessMemoryMap
  | .create r a => (createMemoryRegion fuel pm r a).map Prod.fst
  | .createInRange name start size prot a =>
    (createMemoryRegionInRange fuel pm name start size prot a).map Prod.fst
  | .destroy name => destroyMemoryRegion pm name
  | .extend name endAddr => (extend pm name endAddr).map Prod.fst
  | .fault addr type frame fragment =>
    (vmPageFault pm.map addr type frame fragment).map fun r => { pm with map := r.1 }

end GzOS.Vm
