import GzOS.Runs
import GzOS.VmMap

/-!
# The translation buffer and the page-table window

An entry of the buffer holds the words of two adjacent pages and is tagged with an address
space number (ASID), which does not count if both words have the G bit. The page tables lie
in a window of the kernel's address space that is translated the same way: page `index` of
it is the fragment in entry `index` of the directory of the active `pmap`. A `pmap` is known
by its ASID.
-/
namespace GzOS.Tlb
open Function

open Vm (Pte Prot FaultType userPte)

deriving instance DecidableEq for Vm.Pte

/-! ## Entries -/

structure TlbEntry where
  vpn2 : ℕ
  asid : ℕ
  lo0 : Pte
  lo1 : Pte
  deriving DecidableEq

namespace TlbEntry

def global (e : TlbEntry) : Bool := e.lo0.global && e.lo1.global

/-- For the pair `vpn2` when the ASID field of `EntryHi` is `asid`. -/
def hits (e : TlbEntry) (vpn2 asid : ℕ) : Bool :=
  decide (e.vpn2 = vpn2) && (e.global || decide (e.asid = asid))

def lo (e : TlbEntry) (page : ℕ) : Pte := if page % 2 = 0 then e.lo0 else e.lo1

def user (e : TlbEntry) : Prop := e.vpn2 < 0x40000 ∨ 0x60000 ≤ e.vpn2 ∧ e.vpn2 < 0x60100

instance (e : TlbEntry) : Decidable e.user := inferInstanceAs (Decidable (_ ∨ _ ∧ _))

lemma hits_iff {e : TlbEntry} {vpn2 asid : ℕ} :
    e.hits vpn2 asid ↔ e.vpn2 = vpn2 ∧ (e.global ∨ e.asid = asid) := by
  simp [hits]

end TlbEntry

/-! ## The machine -/

/-- With the protection that the regions give to each page. -/
structure UserPmap where
  pde : ℕ → Pte
  ptePages : List ℕ
  regions : ℕ → Option Prot

/-- The directory is empty, with the G bit in the part of the kernel. -/
def UserPmap.setup (regions : ℕ → Option Prot) : UserPmap :=
  ⟨fun i => ⟨0, false, false, decide (768 ≤ i)⟩, [], regions⟩

def UserPmap.addFragment (p : UserPmap) (index fragment : ℕ) : UserPmap where
  pde := update p.pde index ⟨fragment, true, true, true⟩
  ptePages := p.ptePages ++ [fragment]
  regions := p.regions

/-- The protection to map the page with, or nothing for a segmentation fault. -/
def UserPmap.faultProt (p : UserPmap) (page : ℕ) (type : FaultType) : Option Prot :=
  (p.regions page).bind fun prot =>
    if prot = Prot.none then none
    else if prot.write = false ∧ type = .write then none
    else if prot.read = false ∧ type = .read then none
    else some prot

structure Mmu where
  tlb : List TlbEntry
  /-- The ASID field of `EntryHi`. -/
  asid : ℕ
  userPmap : Option ℕ
  pmaps : ℕ → Option UserPmap
  /-- The words of the table fragments, by physical frame. -/
  tables : ℕ → ℕ → Pte
  /-- The frames that hold table fragments. -/
  frames : Finset ℕ
  asidCounter : ℕ
  /-- The address spaces whose process got a `SIG_KILL`. -/
  killed : Finset ℕ

/-- The kernel's own `pmap` has taken ASID 0. -/
def Mmu.boot : Mmu := ⟨[], 0, none, fun _ => none, fun _ _ => ⟨0, false, false, false⟩, ∅, 1, ∅⟩

def windowPair (index : ℕ) : ℕ := 0x60000 + index / 2

namespace Mmu

def word (s : Mmu) (p : UserPmap) (page : ℕ) : Pte :=
  s.tables (p.pde (page / 1024)).pfn (page % 1024)

def table (s : Mmu) (p : UserPmap) : Vm.Pmap := ⟨p.pde, s.word p⟩

def lookup (s : Mmu) (vpn2 : ℕ) : Option TlbEntry := s.tlb.find? (·.hits vpn2 s.asid)

def windowFrame (s : Mmu) (index : ℕ) : Option ℕ :=
  (s.lookup (windowPair index)).bind fun w =>
    if (w.lo index).valid then some (w.lo index).pfn else none

/-- Replace the entry that the probe finds, or some other. -/
def tlbOverwriteRandom (s : Mmu) (e : TlbEntry) : Mmu :=
  { s with tlb := e :: s.tlb.eraseP (·.hits e.vpn2 e.asid) }

def tlbInvalidate (s : Mmu) (vpn2 asid : ℕ) : Mmu :=
  { s with tlb := s.tlb.eraseP (·.hits vpn2 asid) }

/-- For an address of the window. -/
def loadDirectory (s : Mmu) (id : ℕ) (p : UserPmap) (index : ℕ) : Mmu :=
  let index0 := index - index % 2
  s.tlbOverwriteRandom ⟨windowPair index, id, p.pde index0, p.pde (index0 + 1)⟩

/-- The exception repeats for ever if the entry it loads does not match. -/
def window (s : Mmu) (id : ℕ) (p : UserPmap) (index : ℕ) : Option (Mmu × ℕ) :=
  match s.windowFrame index with
  | some frame => some (s, frame)
  | none =>
    if (p.pde index).valid then
      let t := s.loadDirectory id p index
      (t.windowFrame index).map fun frame => (t, frame)
    else none

/-! ### `pmap_map` -/

def setPmap (s : Mmu) (id : ℕ) (p : UserPmap) : Mmu :=
  { s with pmaps := update s.pmaps id (some p) }

def takeFrame (s : Mmu) (frame : ℕ) : Mmu := { s with frames := insert frame s.frames }

def storeTable (s : Mmu) (frame : ℕ) (words : ℕ → Pte) : Mmu :=
  { s with tables := update s.tables frame words }

def storeWord (s : Mmu) (frame index : ℕ) (w : Pte) : Mmu :=
  s.storeTable frame (update (s.tables frame) index w)

/-- The words of the fragment are stored through the window. -/
def pmapAddPde (s : Mmu) (id : ℕ) (p : UserPmap) (index fragment : ℕ) :
    Option (Mmu × UserPmap) :=
  if fragment ∈ s.frames then none
  else
    let q := p.addFragment index fragment
    (((s.takeFrame fragment).setPmap id q).window id q index).map fun (t, frame) =>
      (t.storeTable frame fun _ => ⟨0, false, false, true⟩, q)

def pmapSetPte (s : Mmu) (id : ℕ) (p : UserPmap) (page frame : ℕ) (prot : Prot)
    (fragment : ℕ) : Option Mmu :=
  let present :=
    if (p.pde (page / 1024)).valid then some (s, p) else s.pmapAddPde id p (page / 1024) fragment
  present.bind fun (t, q) =>
    (t.window id q (page / 1024)).map fun (u, table) =>
      (u.storeWord table (page % 1024) (userPte frame prot)).tlbInvalidate (page / 2) id

/-- One page of `pmap_map`; re-mapping a page is a panic. -/
def pmapMap (s : Mmu) (id : ℕ) (p : UserPmap) (page frame : ℕ) (prot : Prot)
    (fragment : ℕ) : Option Mmu :=
  if (p.pde (page / 1024)).valid then
    (s.window id p (page / 1024)).bind fun (t, table) =>
      if (t.tables table (page % 1024)).valid then none
      else t.pmapSetPte id p page frame prot fragment
  else s.pmapSetPte id p page frame prot fragment

/-! ### Accesses to user pages -/

inductive Translation
  | hit
  /-- `tlb_refill` reads the pair of words from this frame. -/
  | refill (frame : ℕ)
  /-- The handler loads the directory entries of the window page. -/
  | directory
  /-- The handler calls `vm_page_fault`. -/
  | fault (type : FaultType)
  deriving DecidableEq

/-- A miss makes `tlb_refill` load from the window, and if that fails the handler sees a
read of the window. -/
def translate (s : Mmu) (p : UserPmap) (page : ℕ) (type : FaultType) : Translation :=
  match s.lookup (page / 2) with
  | some e =>
    if (e.lo page).valid ∧ (type = .read ∨ (e.lo page).dirty) then .hit else .fault type
  | none =>
    match s.windowFrame (page / 1024) with
    | some frame => .refill frame
    | none => if (p.pde (page / 1024)).valid then .directory else .fault .read

/-- `tlb_refill`, with the ASID that `EntryHi` has at the time. -/
def tlbRefill (s : Mmu) (page frame : ℕ) : Mmu :=
  let even := page % 1024 - page % 2
  { s with tlb := ⟨page / 2, s.asid, s.tables frame even, s.tables frame (even + 1)⟩ :: s.tlb }

/-- `frame` and `fragment` are what `pm_alloc` gives out if the page is mapped. -/
def access (s : Mmu) (page : ℕ) (type : FaultType) (frame fragment : ℕ) : Option Mmu := do
  let id ← s.userPmap
  let p ← s.pmaps id
  if id ∈ s.killed then none
  else
    match s.translate p page type with
    | .hit => some s
    | .refill table => some (s.tlbRefill page table)
    | .directory => some (s.loadDirectory id p (page / 1024))
    | .fault cause =>
      match p.faultProt page cause with
      | some prot => s.pmapMap id p page frame prot fragment
      | none => some { s with killed := insert id s.killed }

/-! ### Address spaces -/

/-- `pmap_activate`; nothing is flushed. -/
def pmapActivate (s : Mmu) (target : Option ℕ) : Option Mmu :=
  if ∀ id ∈ target, (s.pmaps id).isSome then
    some { s with userPmap := target, asid := target.getD 0 }
  else none

def pmapNew (s : Mmu) (regions : ℕ → Option Prot) : Option Mmu :=
  if s.asidCounter < 255 then
    some { s.setPmap s.asidCounter (.setup regions) with asidCounter := s.asidCounter + 1 }
  else none

/-- Of an address space not in use. `tlb_invalidate_all` leaves ASID 0 in `EntryHi`. -/
def pmapDelete (s : Mmu) (id : ℕ) : Option Mmu := do
  let p ← s.pmaps id
  if s.userPmap = some id then none
  else some { s with
    tlb := []
    asid := 0
    pmaps := update s.pmaps id none
    frames := s.frames \ p.ptePages.toFinset }

/-- A page without a region gets one. -/
def addRegion (s : Mmu) (id page : ℕ) (prot : Prot) : Option Mmu := do
  let p ← s.pmaps id
  if (p.regions page).isSome then none
  else
    let q : UserPmap := ⟨p.pde, p.ptePages, update p.regions page (some prot)⟩
    some (s.setPmap id q)

end Mmu

/-! ## Runs -/

inductive MmuEvent
  /-- By the process or by the kernel. -/
  | access (page : ℕ) (type : FaultType) (frame fragment : ℕ)
  /-- The kernel reads the page table of the active process. -/
  | window (index : ℕ)
  /-- The pair of an address of the kernel is loaded. -/
  | kernel (entry : TlbEntry)
  | map (page frame : ℕ) (prot : Prot) (fragment : ℕ)
  | activate (target : Option ℕ)
  | create (regions : ℕ → Option Prot)
  | addRegion (id page : ℕ) (prot : Prot)
  | delete (id : ℕ)
  /-- An entry is lost to `tlbwr`. -/
  | evict (position : ℕ)

def mmuStep (s : Mmu) : MmuEvent → Option Mmu
  | .access page type frame fragment =>
    if page < 0x80000 then s.access page type frame fragment else none
  | .window index =>
    if index < 512 then do
      let id ← s.userPmap
      let p ← s.pmaps id
      (s.window id p index).map Prod.fst
    else none
  | .kernel e => if e.user then none else some { s with tlb := e :: s.tlb }
  | .map page frame prot fragment =>
    if page < 0x80000 then do
      let id ← s.userPmap
      let p ← s.pmaps id
      s.pmapMap id p page frame prot fragment
    else none
  | .activate target => s.pmapActivate target
  | .create regions => s.pmapNew regions
  | .addRegion id page prot => s.addRegion id page prot
  | .delete id => s.pmapDelete id
  | .evict position => some { s with tlb := s.tlb.eraseIdx position }

structure Mmu.Holds (s : Mmu) (p : UserPmap) (e : TlbEntry) : Prop where
  table : ∀ page, page < 0x80000 → page / 2 = e.vpn2 →
    (p.pde (page / 1024)).valid = true ∧ e.lo page = s.word p page
  directory : ∀ index, index < 512 → windowPair index = e.vpn2 → e.lo index = p.pde index

def Mmu.Isolated (s : Mmu) : Prop :=
  ∀ e ∈ s.tlb, e.user → e.hits e.vpn2 s.asid = true →
    ∃ id p, s.userPmap = some id ∧ s.pmaps id = some p ∧ s.Holds p e

end GzOS.Tlb
