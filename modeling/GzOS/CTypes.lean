import Mathlib.Data.List.TakeWhile

/-!
# Types and strings of C

What the sources take from the headers of the C library.
-/
namespace GzOS
open List

abbrev Byte := UInt8

/-- The origin of a `seek`. -/
inductive Whence
  | seekSet
  | seekCur
  | seekEnd
  | other
  deriving DecidableEq, Repr

/-- `UINT16_MAX`. -/
def uint16Max : ℕ := 65535

/-- The terminator of a C string. -/
def nul : Char := Char.ofNat 0

/-- `src` is the string without its terminator, `dst` the memory from the buffer on. -/
def strncpy (dst src : List Char) (n : ℕ) : List Char :=
  src.take n ++ replicate (n - src.length) nul ++ dst.drop n

/-- The memory read as a string. -/
def cString (memory : List Char) : List Char := memory.takeWhile fun c => decide (c ≠ nul)

/-- Memory of a known size read as a string: without a terminator the read leaves it. -/
def stringIn (memory : List Char) : Option (List Char) :=
  if nul ∈ memory then some (cString memory) else none

lemma cString_append {front : List Char} (h : nul ∉ front) (back : List Char) :
    cString (front ++ back) = front ++ cString back := by
  refine takeWhile_append_of_pos fun c hc => ?_
  exact decide_eq_true (ne_of_mem_of_not_mem hc h)

end GzOS
