import GzOS.PageWords
import Mathlib.Data.Nat.Bitwise

/-!
# Misses in the translation buffer

`tlb_refill` loads the words of a pair of pages from the page-table window. If the window
page is not in the buffer either, `tlb_exception_handler` sees the address of the load and
has to find the page from it.
-/
namespace GzOS.Pmap
open Vm Nat

def ptBase : ℕ := 0xc0000000

/-- The fields are `PTEBase`, as `tlb_init` sets it, and `BadVPN2`. -/
def context (badvaddr : Word) : Word := 0xc0000000 <<< 1 ||| (badvaddr >>> 13) <<< 4

/-- The address of the first load. The shift is in the delay slot of the branch. -/
def tlbRefill (badvaddr : Word) : Word :=
  let k0 := (context badvaddr).sshiftRight 1
  if badvaddr &&& 0x1000 ≠ 0 then k0 + 4 else k0

structure Directory where
  asid : ℕ
  pde : ℕ → Word

/-- The kernel's pmap and that of the process, which has a map as long as it has a pmap. -/
structure Active where
  kernel : Directory
  user : Option Directory

def getActivePmapByAddr (m : Active) (addr : ℕ) : Option Directory :=
  if inKernelSpace addr then some m.kernel
  else if addr < 0x80000000 then m.user
  else none

def getActiveVmMapByAddr (m : Active) (addr : ℕ) : Option Space :=
  if m.user.isSome ∧ addr < 0x80000000 then some .user
  else if 0xc0400000 ≤ addr ∧ addr < 0xfffff000 then some .kernel
  else none

def InWindow (addr : ℕ) : Prop := ptBase ≤ addr ∧ addr < ptBase + 0x400000

instance (addr : ℕ) : Decidable (InWindow addr) := inferInstanceAs (Decidable (_ ∧ _))

inductive Outcome
  | tlbOverwriteRandom (ptfStart asid : ℕ) (lo0 lo1 : Word)
  | vmPageFault (map : Space) (vaddr : ℕ) (type : FaultType)

def Directory.load (pmap : Directory) (index : ℕ) : Outcome :=
  let index0 := index / 2 * 2
  .tlbOverwriteRandom (ptBase + index0 * pageSize) pmap.asid (pmap.pde index0)
    (pmap.pde (index0 + 1))

section
variable (m : Active) (type : FaultType)

def pageFault (vaddr : ℕ) : Option Outcome :=
  (getActiveVmMapByAddr m vaddr).map (.vmPageFault · vaddr type)

/-- For an address of the window. -/
def windowFault (vaddr : ℕ) : Option Outcome :=
  let index := pteIndex (vaddr - ptBase)
  let origVaddr := u32 ((vaddr - ptBase) * 1024)
  (getActivePmapByAddr m origVaddr).bind fun pmap =>
    if isValid (pmap.pde index) then some (pmap.load index) else pageFault m type origVaddr

/-- Nothing for a failed assertion or a panic. A miss of the window on itself is traced
back once more. -/
def tlbExceptionHandler (badvaddr : ℕ) : Option Outcome :=
  if InWindow badvaddr then
    let origVaddr := u32 ((badvaddr - ptBase) * 1024)
    if ptBase + 0x80000000 / 1024 ≤ badvaddr ∧ badvaddr < ptBase + 0xc0000000 / 1024 then none
    else windowFault m type (if InWindow origVaddr then origVaddr else badvaddr)
  else pageFault m type badvaddr

end

lemma context_toNat (y : Word) : (context y).toNat = 2 ^ 31 + y.toNat / 8192 * 16 := by
  have hlt : y.toNat / 8192 * 16 < 2 ^ 31 := by have := y.isLt; omega
  have hfield : ((y >>> 13) <<< 4).toNat = y.toNat / 8192 * 16 := by
    rw [BitVec.toNat_shiftLeft, BitVec.toNat_ushiftRight, shiftRight_eq_div_pow,
      shiftLeft_eq, mod_eq_of_lt (hlt.trans (by decide))]
  rw [context, BitVec.toNat_or, hfield]
  exact (two_pow_add_eq_or_of_lt hlt 1).symm

lemma tlbRefill_toNat (y : Word) : (tlbRefill y).toNat = ptBase + 4 * (y.toNat / 4096) := by
  have hcontext := context_toNat y
  have hbit : (y &&& 0x1000).toNat = y.toNat / 4096 % 2 * 4096 := by
    rw [BitVec.toNat_and]
    change y.toNat &&& 2 ^ 12 = _
    rw [and_two_pow, testBit_eq_decide_div_mod_eq]
    rcases mod_two_eq_zero_or_one (y.toNat / 2 ^ 12) with h | h <;> simp_all
  have hmsb : (context y).msb = true := by
    rw [BitVec.msb_eq_decide, decide_eq_true_eq]
    omega
  have hshift : ((context y).sshiftRight 1).toNat = 0xc0000000 + y.toNat / 8192 * 8 := by
    rw [BitVec.sshiftRight_eq_of_msb_true hmsb]
    simp [shiftRight_eq_div_pow]
    omega
  rw [tlbRefill, ptBase]
  split <;> bv_omega

variable {m : Active} {type : FaultType} {pmap : Directory} {a b : ℕ}

/-- The spaces start at directory entries. -/
lemma owner_floor (h : getActivePmapByAddr m a = some pmap) (hb : b ≤ a)
    (hfloor : a / 2 ^ 22 * 2 ^ 22 ≤ b) : getActivePmapByAddr m b = some pmap := by
  grind [getActivePmapByAddr, inKernelSpace]

lemma map_of_page {map : Space} (h : getActiveVmMapByAddr m a = some map) :
    ¬InWindow a ∧ getActiveVmMapByAddr m (a / 4096 * 4096) = some map := by
  grind [getActiveVmMapByAddr, InWindow, ptBase]

lemma restored (y : Word) :
    u32 ((ptBase + 4 * (y.toNat / 4096) - ptBase) * 1024) = y.toNat / 4096 * 4096 := by
  have := y.isLt
  rw [u32]
  omega

lemma handler_refill (y : Word) (h : y.toNat < 0x80000000 ∨ 0xc0000000 ≤ y.toNat) :
    tlbExceptionHandler m type (tlbRefill y).toNat = windowFault m type
      (if InWindow y.toNat then y.toNat / 4096 * 4096 else ptBase + 4 * (y.toNat / 4096)) := by
  have hlt := y.isLt
  have hpage : InWindow (y.toNat / 4096 * 4096) ↔ InWindow y.toNat := by
    simp only [InWindow, ptBase]
    omega
  have hin : InWindow (ptBase + 4 * (y.toNat / 4096)) := by
    simp only [InWindow, ptBase]
    omega
  rw [tlbRefill_toNat, tlbExceptionHandler, if_pos hin, if_neg (by rw [ptBase]; omega),
    restored]
  simp only [hpage]

/-- A miss leads to the page-table word of the address, and a miss there loads the directory
entry or faults at the address. -/
theorem miss_recovery (m : Active) (type : FaultType) (y : Word) (pmap : Directory)
    (hp : getActivePmapByAddr m y.toNat = some pmap) :
    (tlbRefill y).toNat = ptBase + 4 * (y.toNat / 4096) ∧
    (∀ map, getActiveVmMapByAddr m y.toNat = some map →
      tlbExceptionHandler m type (tlbRefill y).toNat =
        some (if isValid (pmap.pde (y.toNat / 2 ^ 22)) then pmap.load (y.toNat / 2 ^ 22)
          else .vmPageFault map (y.toNat / 4096 * 4096) type)) ∧
    ∀ w : Word, InWindow w.toNat → (w.toNat - ptBase) / 4 = y.toNat / 4096 →
      isValid (pmap.pde (y.toNat / 2 ^ 22)) →
        tlbExceptionHandler m type (tlbRefill w).toNat = some (pmap.load (y.toNat / 2 ^ 22)) := by
  have hlt := y.isLt
  refine ⟨tlbRefill_toNat y, fun map hm => ?_, fun w hw hdesc hvalid => ?_⟩
  · obtain ⟨hout, hpage⟩ := map_of_page hm
    have hindex : pteIndex (ptBase + 4 * (y.toNat / 4096) - ptBase) = y.toNat / 2 ^ 22 := by
      rw [pteIndex, pageSize]
      omega
    have horig := restored y
    have howner := owner_floor hp (b := y.toNat / 4096 * 4096) (by omega) (by omega)
    have hhole : y.toNat < 0x80000000 ∨ 0xc0000000 ≤ y.toNat := by
      grind [getActivePmapByAddr, inKernelSpace]
    rw [handler_refill y hhole, if_neg hout, windowFault, hindex, horig,
      howner, Option.bind_some, pageFault, hpage]
    exact (apply_ite some ..).symm
  · obtain ⟨u, hu⟩ := Nat.exists_eq_add_of_le hw.1
    rw [hu, Nat.add_sub_cancel_left] at hdesc
    have hpage : w.toNat / 4096 * 4096 - ptBase = u / 4096 * 4096 := by
      rw [hu, ptBase]
      omega
    have hindex : pteIndex (u / 4096 * 4096) = y.toNat / 2 ^ 22 := by
      rw [pteIndex, pageSize]
      omega
    have horig : u32 (u / 4096 * 4096 * 1024) = y.toNat / 2 ^ 22 * 2 ^ 22 := by
      rw [u32]
      omega
    have howner := owner_floor hp (b := y.toNat / 2 ^ 22 * 2 ^ 22) (by omega) le_rfl
    rw [handler_refill w (.inr hw.1), if_pos hw, windowFault, hpage, hindex, horig, howner]
    exact if_pos hvalid

theorem miss_recovery_sample :
    tlbExceptionHandler ⟨⟨0, fun _ => 0⟩, some ⟨3, fun _ => 0⟩⟩ .write (tlbRefill 0x40123c).toNat =
      some (.vmPageFault .user 0x401000 .write) :=
  (miss_recovery ⟨⟨0, _⟩, some ⟨3, _⟩⟩ .write 0x40123c ⟨3, fun _ => 0⟩ rfl).2.1 .user rfl

end GzOS.Pmap
