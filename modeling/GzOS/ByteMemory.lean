import Mathlib.Algebra.Group.Nat.Defs
import Mathlib.Data.Nat.Basic
import Mathlib.Logic.Function.Basic

/-!
# Big-endian words in a byte memory

Reading and writing 32-bit words of a memory of bytes, and what a write leaves
unchanged.
-/
namespace GzOS.ByteMemory
open Function

abbrev Mem := ℕ → UInt8

def readHalf (m : Mem) (a : ℕ) : ℕ := (m a).toNat * 2 ^ 8 + (m (a + 1)).toNat

def readWord (m : Mem) (a : ℕ) : ℕ := readHalf m a * 2 ^ 16 + readHalf m (a + 2)

def writeByte (m : Mem) (a : ℕ) (v : UInt8) : Mem := update m a v

def writeHalf (m : Mem) (a w : ℕ) : Mem :=
  writeByte (writeByte m a (UInt8.ofNat (w / 2 ^ 8))) (a + 1) (UInt8.ofNat w)

def writeWord (m : Mem) (a w : ℕ) : Mem := writeHalf (writeHalf m a (w / 2 ^ 16)) (a + 2) w

def zero (m : Mem) (a n : ℕ) : Mem := fun x => if a ≤ x ∧ x < a + n then 0 else m x

def copy (m : Mem) (dst src : ℕ) : ℕ → Mem
  | 0 => m
  | n + 1 =>
    let m' := copy m dst src n
    writeByte m' (dst + n) (m' (src + n))

variable {m m' : Mem} {a b w x : ℕ}

lemma readHalf_lt : readHalf m a < 2 ^ 16 := by
  have h1 := (m a).toNat_lt
  have h2 := (m (a + 1)).toNat_lt
  unfold readHalf
  omega

lemma readWord_lt : readWord m a < 2 ^ 32 := by
  have h1 : readHalf m a < 2 ^ 16 := readHalf_lt
  have h2 : readHalf m (a + 2) < 2 ^ 16 := readHalf_lt
  unfold readWord
  omega

lemma readHalf_eq : readHalf m a = readWord m a / 2 ^ 16 := by
  have h : readHalf m (a + 2) < 2 ^ 16 := readHalf_lt
  unfold readWord
  omega

lemma readHalf_add_two : readHalf m (a + 2) = readWord m a % 2 ^ 16 := by
  have h : readHalf m (a + 2) < 2 ^ 16 := readHalf_lt
  unfold readWord
  omega

lemma readWord_congr (h : ∀ x, a ≤ x → x < a + 4 → m' x = m x) :
    readWord m' a = readWord m a := by
  simp only [readWord, readHalf, h a le_rfl (by omega), h (a + 1) (by omega) (by omega),
    h (a + 2) (by omega) (by omega), h (a + 2 + 1) (by omega) (by omega)]

lemma writeHalf_of_ne (h : x < a ∨ a + 2 ≤ x) : writeHalf m a w x = m x := by
  simp only [writeHalf, writeByte, update_apply]
  rw [if_neg (by omega), if_neg (by omega)]

lemma writeWord_of_ne (h : x < a ∨ a + 4 ≤ x) : writeWord m a w x = m x := by
  simp only [writeWord, writeHalf, writeByte, update_apply]
  rw [if_neg (by omega), if_neg (by omega), if_neg (by omega), if_neg (by omega)]

lemma readWord_writeWord_ne (h : b + 4 ≤ a ∨ a + 4 ≤ b) :
    readWord (writeWord m a w) b = readWord m b :=
  readWord_congr fun _ hlow hhigh => writeWord_of_ne (by omega)

lemma readHalf_writeHalf : readHalf (writeHalf m a w) a = w % 2 ^ 16 := by
  have h0 : writeHalf m a w a = UInt8.ofNat (w / 2 ^ 8) := by simp [writeHalf, writeByte]
  have h1 : writeHalf m a w (a + 1) = UInt8.ofNat w := by simp [writeHalf, writeByte]
  simp only [readHalf, h0, h1, UInt8.toNat_ofNat']
  omega

lemma readHalf_writeHalf_ne (h : b + 2 ≤ a ∨ a + 2 ≤ b) :
    readHalf (writeHalf m a w) b = readHalf m b := by
  simp only [readHalf, writeHalf, writeByte, update_apply]
  rw [if_neg (by omega), if_neg (by omega), if_neg (by omega), if_neg (by omega)]

lemma readWord_writeWord_mod : readWord (writeWord m a w) a = w % 2 ^ 32 := by
  rw [readWord, writeWord, readHalf_writeHalf, readHalf_writeHalf_ne (by omega), readHalf_writeHalf]
  omega

lemma readWord_writeWord (hw : w < 2 ^ 32) : readWord (writeWord m a w) a = w := by
  rw [readWord_writeWord_mod, Nat.mod_eq_of_lt hw]

variable {n dst src : ℕ}

lemma zero_of_ne (h : x < a ∨ a + n ≤ x) : zero m a n x = m x := if_neg (by omega)

lemma readWord_zero (hlow : a ≤ b) (hhigh : b + 4 ≤ a + n) : readWord (zero m a n) b = 0 := by
  have h : ∀ x, b ≤ x → x < b + 4 → zero m a n x = 0 := fun x hx hx' => if_pos (by omega)
  simp [readWord, readHalf, h b le_rfl (by omega), h (b + 1) (by omega) (by omega),
    h (b + 2) (by omega) (by omega), h (b + 2 + 1) (by omega) (by omega)]

lemma copy_of_ne (h : x < dst ∨ dst + n ≤ x) : copy m dst src n x = m x := by
  induction n with
  | zero => rfl
  | succ n ih =>
    rw [copy, writeByte, update_of_ne (by omega)]
    exact ih (by omega)

lemma copy_of_lt {i : ℕ} (hapart : src + n ≤ dst ∨ dst + n ≤ src) (hi : i < n) :
    copy m dst src n (dst + i) = m (src + i) := by
  induction n with
  | zero => cases hi
  | succ n ih =>
    rw [copy, writeByte]
    by_cases hlast : i = n
    · subst hlast
      rw [update_self, copy_of_ne (by omega)]
    · rw [update_of_ne (by omega)]
      exact ih (by omega) (by omega)

end GzOS.ByteMemory
