import GzOS.AddressSpace
import GzOS.ByteMemory
import Mathlib.Tactic

/-!
# What the loader reads of a file

The loader takes offsets, counts and addresses from the file and adds them up in 32
bits. `sanityCheck` compares the end of each section with the end of user space and
nothing with the size of the buffer.
-/
namespace GzOS.ElfBounds
open ByteMemory Vm List Nat

/-- A buffer with a file, in the memory of the kernel. -/
structure File where
  mem : Mem
  base : ℕ
  size : ℕ
  kernel : 2 ^ 31 ≤ base
  fits : base + size < 2 ^ 32

variable (f : File) (sec : ℕ)

def eShoff : ℕ := readWord f.mem (f.base + 32)
def eShentsize : ℕ := readHalf f.mem (f.base + 46)
def eShnum : ℕ := readHalf f.mem (f.base + 48)
def eShstrndx : ℕ := readHalf f.mem (f.base + 50)

/-! A section header, by its address. -/

def shName : ℕ := readWord f.mem sec
def shType : ℕ := readWord f.mem (sec + 4)
def shFlags : ℕ := readWord f.mem (sec + 8)
def shAddr : ℕ := readWord f.mem (sec + 12)
def shOffset : ℕ := readWord f.mem (sec + 16)
def shSize : ℕ := readWord f.mem (sec + 20)

def sectionAt (i : ℕ) : ℕ := u32 (f.base + eShoff f + i * eShentsize f)

def strtab : ℕ := u32 (f.base + eShoff f + eShstrndx f * 40)

def getStringByIndex (index : ℕ) : ℕ := u32 (f.base + shOffset f (strtab f) + index)

/-- The first `n` characters of a string. -/
def characters (m : Mem) : ℕ → ℕ → List Char
  | _, 0 => []
  | a, n + 1 => if m a = 0 then [] else Char.ofNat (m a).toNat :: characters m (a + 1) n

/-- What a header says. `SHF_ALLOC` is 2 and `SHF_EXECINSTR` 4, and no key of a region has
more than 31 characters. -/
def header : Section where
  name := characters f.mem (getStringByIndex f (shName f sec)) 31
  shType := shType f sec
  alloc := shFlags f sec / 2 % 2 == 1
  execInstr := shFlags f sec / 4 % 2 == 1
  shAddr := shAddr f sec
  shSize := shSize f sec

/-- What the buffer says, wherever its fields point. -/
def elf : Elf where
  eIdent := (range 16).map fun i => (f.mem (f.base + i)).toNat
  eMachine := readHalf f.mem (f.base + 18)
  eType := readHalf f.mem (f.base + 16)
  sections := (range (eShnum f)).map fun i => header f (sectionAt f i)

/-- The sections for which `forEachSection` calls its function. -/
def visited : List ℕ := ((range (eShnum f)).map (sectionAt f)).filter fun sec => shType f sec ≠ 0

/-- The sections that are loaded and, if the name of one is taken already, that section:
`createMemoryRegion` refuses it, and nothing is loaded after it. -/
def loadSections (taken : List (List Char)) : List ℕ → List ℕ × Option ℕ
  | [] => ([], none)
  | sec :: rest =>
    if (header f sec).skipped then loadSections taken rest
    else if (header f sec).name ∈ taken then ([], some sec)
    else
      let (loaded, refused) := loadSections ((header f sec).name :: taken) rest
      (sec :: loaded, refused)

variable (taken : List (List Char))

def loaded : List ℕ := (loadSections f taken (visited f)).1

def refused : Option ℕ := (loadSections f taken (visited f)).2

/-- The sections whose names are read: `createMemoryRegion` looks for the name in the table,
and after a complete loading `getEndAddress` compares every name with `.bss`. -/
def named : List ℕ :=
  match refused f taken with
  | none => visited f
  | some sec => loaded f taken ++ [sec]

/-- The regions that `loadSections` and `createHeapRegion` come to create. -/
def regions : List RegionArgs :=
  (loaded f taken).filterMap (fun sec => loadSection (header f sec)) ++
    if refused f taken = none ∧ getEndAddress (elf f) ≠ 0 ∧
      "heap".toList ∉ taken ++ (loaded f taken).map (fun sec => (header f sec).name)
    then [createHeapRegion (elf f)] else []

/-- The assertions of `vm_map_add_entry`. -/
def Accepted (r : RegionArgs) : Prop :=
  pmapStart ≤ r.start ∧ r.stop ≤ pmapEnd ∧ isAligned r.start ∧ isAligned r.stop

/-- The bytes lie in the buffer. -/
def Inside (a n : ℕ) : Prop := f.base ≤ a ∧ a + n ≤ f.base + f.size

/-- The same in terms of the fields of the file. -/
structure WellFormed : Prop where
  headers : eShnum f = 0 ∨ eShoff f + (eShnum f - 1) * eShentsize f + 40 ≤ f.size
  strings : visited f ≠ [] → eShoff f + eShstrndx f * 40 + 40 ≤ f.size
  names : ∀ sec ∈ named f taken, ∃ n, u32 (shOffset f (strtab f) + shName f sec) ≤ n ∧
    n < f.size ∧ f.mem (f.base + n) = 0
  contents : ∀ sec ∈ loaded f taken, shType f sec = 1 → shOffset f sec + shSize f sec ≤ f.size
  addresses : ∀ sec ∈ visited f, (header f sec).skipped = false →
    shAddr f sec + shSize f sec < 2 ^ 32
  aligned : ∀ r ∈ regions f taken, r.stop ≤ pmapEnd ∧ isAligned r.start ∧ isAligned r.stop

variable {f} {sec}

/-- An address in the buffer that was reached by a small step did not wrap around. -/
lemma inside_u32 {o n : ℕ} (h : o < 2 ^ 32) : Inside f (u32 (f.base + o)) n ↔ o + n ≤ f.size := by
  have hf := f.fits
  unfold Inside u32
  omega

lemma names_iff {o : ℕ} :
    (∃ n, f.mem (u32 (f.base + o) + n) = 0 ∧ Inside f (u32 (f.base + o)) (n + 1)) ↔
      ∃ n, u32 o ≤ n ∧ n < f.size ∧ f.mem (f.base + n) = 0 := by
  have hf := f.fits
  have hsum : u32 (f.base + o) = u32 (f.base + u32 o) := by
    unfold u32
    omega
  have hlt : u32 o < 2 ^ 32 := mod_lt _ (by decide)
  have hplain (hle : u32 o < f.size) : u32 (f.base + u32 o) = f.base + u32 o :=
    mod_eq_of_lt (by omega)
  simp only [hsum, inside_u32 hlt]
  constructor
  · rintro ⟨n, hzero, hin⟩
    rw [hplain (by omega), add_assoc] at hzero
    exact ⟨u32 o + n, by omega, by omega, hzero⟩
  · rintro ⟨n, hle, hlt, hzero⟩
    refine ⟨n - u32 o, ?_, by omega⟩
    rw [hplain (by omega), add_assoc, add_sub_of_le hle]
    exact hzero

lemma sample_kernel : 2 ^ 31 ≤ 0x80100000 := by decide

lemma sample_fits : 0x80100000 + 4096 < 2 ^ 32 := by decide

/-- A buffer of one page. -/
def sampleFile (bytes : List UInt8) : File where
  mem a := bytes.getD (a - 0x80100000) 0
  base := 0x80100000
  size := 4096
  kernel := sample_kernel
  fits := sample_fits

end GzOS.ElfBounds
