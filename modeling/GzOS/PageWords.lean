import GzOS.Findspace

/-!
# Page tables as words in memory

A directory entry is a word with the frame of a table fragment, and the fragment is read
and written through a window at `PT_BASE`. The window shows the frames of the directory,
except where the TLB still has a global entry of another `pmap`: `pmap_activate` leaves
these. `pm_alloc` is given by the list of frames it returns. The outer `none` of a result
stands for a loop that has not ended within the fuel.
-/
namespace GzOS.Pmap
open Vm Function BitVec

abbrev Word := BitVec 32

def ptePfnMask : Word := 0x03ffffc0
def pteDirty : Word := 0x00000004
def pteValid : Word := 0x00000002
def pteGlobal : Word := 0x00000001
def pteProtMask : Word := 0xc0000006

def ptePfn (addr : Word) : Word := (addr >>> 6) &&& ptePfnMask
def ptePfnOf (pte : Word) : Word := (pte &&& ptePfnMask) <<< 6

def isValid (pte : Word) : Bool := pte &&& pteValid != 0

/-- Read, write and exec choose the entry of the table. -/
def vmProtMap : Prot → Word
  | ⟨false, false, false⟩ => 0
  | ⟨true, false, false⟩ => pteValid
  | ⟨false, true, false⟩ => pteValid ||| pteDirty
  | ⟨true, true, false⟩ => pteValid ||| pteDirty
  | ⟨false, false, true⟩ => pteValid
  | ⟨true, false, true⟩ => pteValid
  | ⟨false, true, true⟩ => pteValid ||| pteDirty
  | ⟨true, true, true⟩ => pteValid ||| pteDirty

def inKernelSpace (addr : ℕ) : Bool := 0xc0000000 ≤ addr && addr < 0xfffff000

/-- With the memory of the fragments, by frame and index, and the frames of others that the
window shows, by the index in the directory. -/
structure Tables where
  pde : ℕ → Word
  memory : Word → ℕ → Word
  ptePages : List Word
  window : ℕ → Option Word

namespace Tables

def fragment (t : Tables) (index : ℕ) : Word := ptePfnOf (t.pde index)

def reached (t : Tables) (index : ℕ) : Word := (t.window index).getD (t.fragment index)

def pteOf (t : Tables) (vaddr : ℕ) : Word :=
  t.memory (t.reached (pdeIndex vaddr)) (pteIndex vaddr % 1024)

def setPteOf (t : Tables) (vaddr : ℕ) (pte : Word) : Tables :=
  let frame := t.reached (pdeIndex vaddr)
  let fragment := update (t.memory frame) (pteIndex vaddr % 1024) pte
  { t with memory := update t.memory frame fragment }

end Tables

def pmapIsMapped (t : Tables) (vaddr : ℕ) : Bool :=
  isValid (t.pde (pdeIndex vaddr)) && isValid (t.pteOf vaddr)

def decode (pte : Word) : Pte :=
  ⟨(ptePfnOf pte).toNat, isValid pte, pte &&& pteDirty != 0, pte &&& pteGlobal != 0⟩

/-- The page table of `Vm` that is reached through the window. -/
def Tables.shown (t : Tables) : Vm.Pmap where
  pde i := decode (t.pde i)
  pte i := decode (t.memory (t.reached (i / 1024)) (i % 1024))

lemma pmapIsMapped_shown (t : Tables) (vaddr : ℕ) :
    Vm.pmapIsMapped t.shown vaddr = pmapIsMapped t vaddr := by
  simp [Vm.pmapIsMapped, Tables.shown, decode, pmapIsMapped, Tables.pteOf, pdeIndex_eq]

lemma decode_protection (addr : Word) (prot : Prot) (frame : ℕ) :
    let pte := decode (ptePfn addr ||| vmProtMap prot)
    pte.valid = (userPte frame prot).valid ∧ pte.dirty = (userPte frame prot).dirty ∧
      pte.global = (userPte frame prot).global := by
  have hpfn : ∀ mask, mask &&& ptePfnMask = 0 → ptePfn addr &&& mask = 0 := by
    intro mask hmask
    rw [ptePfn, BitVec.and_assoc, BitVec.and_comm ptePfnMask, hmask]
    exact BitVec.and_zero
  obtain ⟨r, w, x⟩ := prot
  simp only [decode, isValid, userPte, and_or_distrib_right, hpfn pteValid (by decide),
    hpfn pteDirty (by decide), hpfn pteGlobal (by decide)]
  revert r w x
  decide

/-- `PD_ENTRIES * PAGESIZE`, which is also `PTF_ENTRIES * PAGESIZE`. -/
def stride : ℕ := 1024 * pageSize

def stridedLoop (step : ℕ) (test : ℕ → Bool) (stop : ℕ) : ℕ → ℕ → Option Bool
  | 0, _ => none
  | fuel + 1, addr =>
    if addr < stop then
      if test addr then stridedLoop step test stop fuel (u32 (addr + step)) else some false
    else some true

def pmapIsRangeMapped (fuel : ℕ) (t : Tables) (start stop : ℕ) : Option Bool :=
  (stridedLoop stride (fun addr => isValid (t.pde (pdeIndex addr))) stop fuel start).bind
    fun pdes =>
      if pdes then stridedLoop stride (fun addr => isValid (t.pteOf addr)) stop fuel start
      else some false

inductive Failure
  | assertion
  | panic
  | noMemory
  deriving DecidableEq

/-- The fragment is in the directory before it is filled through the window. -/
def pmapAddPde (t : Tables) (vaddr : ℕ) (pg : Word) : Tables :=
  let pde := ptePfn pg ||| pteValid ||| pteDirty ||| pteGlobal
  let t := { t with pde := update t.pde (pdeIndex vaddr) pde, ptePages := t.ptePages ++ [pg] }
  { t with memory := update t.memory (t.reached (pdeIndex vaddr)) fun _ => pteGlobal }

def pmapSetPte (t : Tables) (vaddr : ℕ) (paddr : Word) (prot : Prot) (fresh : List Word) :
    Option (Tables × List Word) :=
  let pte := ptePfn paddr ||| vmProtMap prot ||| if inKernelSpace vaddr then pteGlobal else 0
  if isValid (t.pde (pdeIndex vaddr)) then some (t.setPteOf vaddr pte, fresh)
  else
    match fresh with
    | [] => none
    | pg :: fresh => some ((pmapAddPde t vaddr pg).setPteOf vaddr pte, fresh)

def mapPages (prot : Prot) : ℕ → Tables → ℕ → Word → List Word → Option (Tables × List Word)
  | 0, t, _, _, fresh => some (t, fresh)
  | n + 1, t, vaddr, paddr, fresh =>
    (pmapSetPte t vaddr paddr prot fresh).bind fun r =>
      mapPages prot n r.1 (vaddr + pageSize) (paddr + 0x1000) r.2

def inRange (space : Space) (start stop : ℕ) : Bool :=
  isAligned start && isAligned stop && decide (start < stop) && decide (space.start ≤ start) &&
    decide (stop ≤ space.stop)

def pmapMap (fuel : ℕ) (space : Space) (t : Tables) (start stop : ℕ) (paddr : Word) (prot : Prot)
    (fresh : List Word) : Option (Except Failure Tables) :=
  if inRange space start stop && paddr.toNat % pageSize == 0 then
    (pmapIsRangeMapped fuel t start stop).map fun mapped =>
      if mapped then .error .panic
      else
        match mapPages prot ((stop - start) / pageSize) t start paddr fresh with
        | none => .error .noMemory
        | some r => .ok r.1
  else some (.error .assertion)

def clearPages : ℕ → Tables → ℕ → Tables
  | 0, t, _ => t
  | n + 1, t, vaddr => clearPages n (t.setPteOf vaddr 0) (vaddr + pageSize)

def pmapUnmap (fuel : ℕ) (space : Space) (t : Tables) (start stop : ℕ) :
    Option (Except Failure Tables) :=
  if inRange space start stop then
    (pmapIsRangeMapped fuel t start stop).map fun mapped =>
      if mapped then .ok (clearPages ((stop - start) / pageSize) t start) else .error .assertion
  else some (.error .assertion)

def changePages (prot : Prot) : ℕ → Tables → ℕ → Tables
  | 0, t, _ => t
  | n + 1, t, vaddr =>
    changePages prot n (t.setPteOf vaddr ((t.pteOf vaddr &&& ~~~pteProtMask) ||| vmProtMap prot))
      (vaddr + pageSize)

def pmapProtect (fuel : ℕ) (space : Space) (t : Tables) (start stop : ℕ) (prot : Prot) :
    Option (Except Failure Tables) :=
  if inRange space start stop then
    (pmapIsRangeMapped fuel t start stop).map fun mapped =>
      if mapped then .ok (changePages prot ((stop - start) / pageSize) t start)
      else .error .assertion
  else some (.error .assertion)

end GzOS.Pmap
