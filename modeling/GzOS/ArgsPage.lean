import GzOS.ByteMemory
import Mathlib.Tactic

/-!
# The page of the arguments

`createArgsRegion` puts a table of pointers at the start of a region of one page
and the arguments behind it, back to back. It adds their sizes up in `argv_size`
and never compares the sum with the size of the region.
-/
namespace GzOS.ArgsPage
open ByteMemory List Nat

/-- A string that was made from a C string. -/
structure Argument where
  bytes : List UInt8
  noNul : 0 ∉ bytes

/-- The size of the strings, each with its null. -/
def dataSize (arguments : List Argument) : ℕ := (arguments.map fun arg => arg.bytes.length + 1).sum

def tableSize (arguments : List Argument) : ℕ := 4 * (arguments.length + 1)

/-- A copy of the string with its null. -/
def StringAt (m : Mem) (a : ℕ) (bytes : List UInt8) : Prop :=
  (∀ i (h : i < bytes.length), m (a + i) = bytes[i]) ∧ m (a + bytes.length) = 0

/-- What the program finds at `argv`. -/
structure Passed (m : Mem) (argv : ℕ) (arguments : List Argument) : Prop where
  copied : ∀ i (h : i < arguments.length), StringAt m (readWord m (argv + 4 * i)) arguments[i].bytes
  behindTable : ∀ i < arguments.length, argv + tableSize arguments ≤ readWord m (argv + 4 * i)
  apart : ∀ i j (h : i < arguments.length), i < j → j < arguments.length →
    readWord m (argv + 4 * i) + arguments[i].bytes.length < readWord m (argv + 4 * j)
  null : readWord m (argv + 4 * arguments.length) = 0

variable {m m' : Mem} {a x : ℕ} {bytes : List UInt8}

lemma StringAt.congr (h : StringAt m a bytes)
    (hsame : ∀ x, a ≤ x → x ≤ a + bytes.length → m' x = m x) : StringAt m' a bytes := by
  refine ⟨fun i hi => ?_, ?_⟩
  · rw [hsame (a + i) (by omega) (by omega)]
    exact h.1 i hi
  · rw [hsame _ (by omega) le_rfl]
    exact h.2

structure Written (m m' : Mem) (table pos : ℕ) (arguments : List Argument) : Prop where
  frame : ∀ x, x < table ∨ (table + tableSize arguments ≤ x ∧ x < pos) ∨
    pos + dataSize arguments ≤ x → m' x = m x
  pointer : ∀ i < arguments.length,
    readWord m' (table + 4 * i) = (pos + dataSize (arguments.take i)) % 2 ^ 32
  copied : ∀ i (h : i < arguments.length),
    StringAt m' (pos + dataSize (arguments.take i)) arguments[i].bytes
  null : readWord m' (table + 4 * arguments.length) = 0

variable {arguments : List Argument} {i : ℕ}

end GzOS.ArgsPage
