import GzOS.Runs
import Mathlib.Data.Nat.Bitwise
import Mathlib.Logic.Function.Basic

/-!
# Windows of the PCI bus

A base address register is known by what it reads as, at first and after all ones are
written to it. The other registers that the assignment writes do not bear on it.
-/
namespace GzOS.Pci
open Function List Runs Nat

abbrev Word := BitVec 32

inductive Window
  | io
  | memory
  deriving DecidableEq

inductive MemoryType
  | io
  | memPrefetch
  | memNonPrefetch

def MemoryType.window : MemoryType → Window
  | .io => .io
  | _ => .memory

structure PCIBar where
  phyAddr : Word
  size : Word
  type : MemoryType

def PCIBar.start (b : PCIBar) : ℕ := b.phyAddr.toNat

def PCIBar.stop (b : PCIBar) : ℕ := b.start + b.size.toNat

structure Register where
  bar : Word
  /-- After the write. -/
  size : Word

def Register.implemented (r : Register) : Bool := !(r.size == 0 || r.bar == r.size)

def Register.type (r : Register) : MemoryType :=
  if r.bar &&& 1 ≠ 0 then .io
  else if r.bar &&& 8 ≠ 0 then .memPrefetch else .memNonPrefetch

/-- The size with the flag bits masked out. -/
def Register.length (r : Register) : Word :=
  -(r.size &&& ~~~if r.type.window = .io then 3 else 15)

/-- With the bars of all devices in the order they are pushed. -/
structure PCIBus where
  /-- `_pci_io_pos` and `_pci_memory_pos`. -/
  pos : Window → Word
  bars : List PCIBar

def align (pos size : Word) : Word := ((pos - 1) ||| (size - 1)) + 1

def assignBar (bus : PCIBus) (r : Register) : PCIBus :=
  if r.implemented then
    let w := r.type.window
    let bar := align (bus.pos w) r.length
    ⟨update bus.pos w (bar + r.length), bus.bars ++ [⟨bar, r.length, r.type⟩]⟩
  else bus

/-- Of one device, by its registers from `PCI_BASE_ADDRESS_0` on. -/
def assignMemoryRegion (bus : PCIBus) (device : List Register) : PCIBus :=
  device.foldl assignBar bus

def assignMemoryRegions (bus : PCIBus) (devices : List (List Register)) : PCIBus :=
  devices.foldl assignMemoryRegion bus

/-! ## Positions -/

def step (bus : PCIBus) (r : Register) : Option PCIBus := some (assignBar bus r)

def roundUp (n size : ℕ) : ℕ := (n + size - 1) / size * size

/-- Its size is a power of two, and the position after it, in exact numbers, is a word. -/
def Regular (bus : PCIBus) (r : Register) : Prop :=
  r.implemented → r.length.toNat.isPowerOfTwo ∧
    roundUp (bus.pos r.type.window).toNat r.length.toNat + r.length.toNat < 2 ^ 32

instance (bus : PCIBus) (r : Register) : Decidable (Regular bus r) :=
  inferInstanceAs (Decidable (_ → _))

lemma le_roundUp (n : ℕ) {size : ℕ} (h : 0 < size) : n ≤ roundUp n size := by
  have := lt_div_mul_add (a := n + size - 1) h
  rw [roundUp]
  omega

lemma or_two_pow_sub_one (n k : ℕ) : n ||| (2 ^ k - 1) = n / 2 ^ k * 2 ^ k + (2 ^ k - 1) := by
  have hlt : 2 ^ k - 1 < 2 ^ k := by have := Nat.two_pow_pos k; omega
  rw [mul_comm, Nat.two_pow_add_eq_or_of_lt hlt]
  apply Nat.eq_of_testBit_eq
  intro i
  simp only [testBit_or, testBit_two_pow_sub_one, testBit_two_pow_mul,
    testBit_div_two_pow]
  by_cases h : i < k
  · simp [h]
  · simp [h, Nat.le_of_not_lt h]

lemma align_toNat {pos size : Word} {k : ℕ} (hk : size.toNat = 2 ^ k)
    (h : roundUp pos.toNat size.toNat < 2 ^ 32) :
    (align pos size).toNat = roundUp pos.toNat size.toNat := by
  have hpos := Nat.two_pow_pos k
  rw [hk, roundUp] at h ⊢
  by_cases h0 : pos = 0
  · -- There is no position below 0, but the word with all ones rounds up to 0 again.
    have hzero : align 0 size = 0 := by
      rw [align, show (0 : Word) - 1 = BitVec.allOnes 32 from rfl, BitVec.allOnes_or]
      rfl
    rw [h0, hzero, div_eq_of_lt (by bv_omega)]
    simp
  · have hpred : (pos - 1).toNat = pos.toNat - 1 := by bv_omega
    have hsize : (size - 1).toNat = 2 ^ k - 1 := by bv_omega
    have hshift : pos.toNat + 2 ^ k - 1 = pos.toNat - 1 + 2 ^ k := by bv_omega
    rw [hshift, add_div_right _ hpos, succ_mul] at h ⊢
    rw [align, BitVec.toNat_add, BitVec.toNat_or, hpred, hsize, or_two_pow_sub_one]
    change (_ + _ + 1) % _ = _
    omega

/-! ## Assignments -/

/-- The ranges of a window lie one above the other, from its start to its position. -/
structure Placed (start : Window → Word) (bus : PCIBus) : Prop where
  bar : ∀ b ∈ bus.bars, b.size.toNat ∣ b.start ∧ (start b.type.window).toNat ≤ b.start ∧
    b.start < b.stop ∧ b.stop ≤ (bus.pos b.type.window).toNat
  order : bus.bars.Pairwise fun b c => b.type.window = c.type.window → b.stop ≤ c.start
  pos : ∀ w, (start w).toNat ≤ (bus.pos w).toNat

/-- A range starts at or above the position, which moves behind it. -/
lemma Placed.step {start : Window → Word} {bus t : PCIBus} {r : Register}
    (h : Placed start bus) (hr : Regular bus r) (hs : Pci.step bus r = some t) :
    Placed start t := by
  rw [Pci.step, assignBar, Option.some_inj] at hs
  split at hs
  · next himpl =>
    obtain ⟨⟨k, hk⟩, hfit⟩ := hr himpl
    have hpos : 0 < r.length.toNat := hk ▸ Nat.two_pow_pos k
    have hle := le_roundUp (bus.pos r.type.window).toNat hpos
    have hbar := align_toNat hk (lt_of_le_of_lt (Nat.le_add_right _ _) hfit)
    have hdvd := dvd_mul_left r.length.toNat
      (((bus.pos r.type.window).toNat + r.length.toNat - 1) / r.length.toNat)
    rw [← roundUp, ← hbar] at hdvd
    rw [← hbar] at hle hfit
    obtain ⟨bar, hb⟩ : ∃ bar, align (bus.pos r.type.window) r.length = bar := ⟨_, rfl⟩
    simp only [hb] at hs hle hfit hdvd
    have hnext := BitVec.toNat_add_of_lt hfit
    have hgrow : ∀ w, (bus.pos w).toNat ≤
        (update bus.pos r.type.window (bar + r.length) w).toNat := by
      intro w
      by_cases hw : w = r.type.window
      · subst hw
        rw [update_self]
        omega
      · rw [update_of_ne hw]
    subst hs
    refine ⟨fun b hmem => ?_, ?_, fun w => (h.pos w).trans (hgrow w)⟩
    · rcases mem_append.1 hmem with hmem | hmem
      · obtain ⟨hmul, hstart, hlt, hstop⟩ := h.bar b hmem
        exact ⟨hmul, hstart, hlt, hstop.trans (hgrow _)⟩
      · obtain rfl := mem_singleton.1 hmem
        refine ⟨hdvd, (h.pos _).trans hle, Nat.lt_add_of_pos_right hpos, ?_⟩
        simp only [update_self, hnext]
        exact le_rfl
    · refine pairwise_append.2 ⟨h.order, pairwise_singleton .., fun b hmem c hc hw => ?_⟩
      obtain rfl := mem_singleton.1 hc
      exact (h.bar b hmem).2.2.2.trans (hw ▸ hle)
  · exact hs ▸ h

lemma exec_step (bus : PCIBus) (rs : List Register) :
    exec step bus rs = some (rs.foldl assignBar bus) := by
  induction rs generalizing bus with
  | nil => rfl
  | cons r rs ih => exact ih _

/-- Regular registers get aligned ranges of their windows that do not overlap. -/
theorem ranges_in_order (start : Window → Word) (devices : List (List Register))
    (hreg : Meets step Regular ⟨start, []⟩ devices.flatten) :
    Placed start (assignMemoryRegions ⟨start, []⟩ devices) := by
  have hrun : exec step ⟨start, []⟩ devices.flatten =
      some (assignMemoryRegions ⟨start, []⟩ devices) := by
    rw [exec_step, foldl_flatten]
    rfl
  have hnone : Placed start ⟨start, []⟩ := ⟨by simp, Pairwise.nil, fun _ => le_rfl⟩
  exact (always_of_meets (fun _ _ _ h hr hs => h.step hr hs) hnone hreg).last hrun

/-- A network card with 32 ports and 32 bytes of memory, and a graphics card. -/
theorem ranges_in_order_sample :
    Placed (fun w => if w = .io then 0x1000 else 0x10000000)
      (assignMemoryRegions ⟨fun w => if w = .io then 0x1000 else 0x10000000, []⟩
        [[⟨1, 0xffffffe1⟩, ⟨0, 0xffffffe0⟩], [⟨8, 0xfe000008⟩, ⟨0, 0⟩]]) :=
  ranges_in_order _ _ (meets_of_check (by decide +kernel))

end GzOS.Pci
