import Mathlib.Data.BitVec
import Mathlib.Data.List.Flatten
import Mathlib.Data.List.Infix

/-!
# Streams cut into numbered pieces

Pieces are consecutive when each number is that of the piece before plus the length of
its data. `Carries` speaks about pieces in any order: sorted by their numbers they are
consecutive and their data is the beginning of a stream.
-/
namespace GzOS.NumberedStream

variable {τ α : Type} {w : ℕ} (num : τ → BitVec w) (data : τ → List α)

/-- The pieces have consecutive numbers from `start` on. -/
def Consecutive (start : BitVec w) : List τ → Prop
  | [] => True
  | t :: ts => num t = start ∧ Consecutive (start + BitVec.ofNat w (data t).length) ts

def Carries (start : BitVec w) (stream : List α) (ts : List τ) : Prop :=
  ∃ us, us.Perm ts ∧ Consecutive num data start us ∧ us.flatMap data <+: stream

variable {num data} {start : BitVec w} {ts us : List τ} {t : τ}

lemma consecutive_append :
    Consecutive num data start (ts ++ us) ↔ Consecutive num data start ts ∧
      Consecutive num data (start + BitVec.ofNat w (ts.flatMap data).length) us := by
  induction ts generalizing start with
  | nil => simp [Consecutive]
  | cons t ts ih =>
    simp [Consecutive, ih, BitVec.ofNat_add, BitVec.add_assoc, and_assoc]

lemma Consecutive.concat (h : Consecutive num data start ts)
    (ht : num t = start + BitVec.ofNat w (ts.flatMap data).length) :
    Consecutive num data start (ts ++ [t]) :=
  consecutive_append.2 ⟨h, ht, trivial⟩

lemma Consecutive.carries {stream : List α} (h : Consecutive num data start ts)
    (hp : ts.flatMap data <+: stream) : Carries num data start stream ts :=
  ⟨ts, List.Perm.refl ts, h, hp⟩

end GzOS.NumberedStream
