import Mathlib.Data.Nat.ModEq
import Mathlib.Tactic

/-!
# End-around carries

A sum of digits to a base `b` is brought back to one digit by adding its high part to
its low digit. Every round keeps the value modulo `b - 1`, and a value of two digits
needs at most two rounds.
-/
namespace GzOS.OnesComplement
open List Nat

def carryRound (b sum : ℕ) : ℕ := sum % b + sum / b

/-- Rounds while carries remain, `fuel` at most. -/
def fold (b : ℕ) : ℕ → ℕ → ℕ
  | 0, sum => sum
  | fuel + 1, sum => if sum / b = 0 then sum else fold b fuel (carryRound b sum)

variable {b : ℕ}

lemma carryRound_modEq (hb : 1 ≤ b) (sum : ℕ) : carryRound b sum ≡ sum [MOD b - 1] := by
  have hone : b ≡ 1 [MOD b - 1] := by
    have h : b - 1 + 1 ≡ 0 + 1 [MOD b - 1] := Nat.ModEq.add_right 1 (by simp [Nat.ModEq])
    simpa [Nat.sub_add_cancel hb] using h
  calc
    carryRound b sum = sum % b + 1 * (sum / b) := by rw [carryRound, one_mul]
    _ ≡ sum % b + b * (sum / b) [MOD b - 1] :=
      Nat.ModEq.add_left _ (Nat.ModEq.mul_right _ hone.symm)
    _ = sum := mod_add_div sum b

variable {sum x : ℕ}

lemma carryRound_pos (h : 0 < sum) : 0 < carryRound b sum := by
  by_contra hzero
  have hparts : sum % b = 0 ∧ sum / b = 0 := by
    rw [← Nat.add_eq_zero_iff]
    exact Nat.eq_zero_of_not_pos hzero
  have hsum := mod_add_div sum b
  rw [hparts.2] at hsum
  omega

lemma fold_modEq (hb : 1 ≤ b) (fuel sum : ℕ) : fold b fuel sum ≡ sum [MOD b - 1] := by
  induction fuel generalizing sum with
  | zero => exact Nat.ModEq.refl sum
  | succ fuel ih =>
    rw [fold]
    split
    · exact Nat.ModEq.refl sum
    · exact (ih _).trans (carryRound_modEq hb sum)

lemma fold_pos (fuel : ℕ) (h : 0 < sum) : 0 < fold b fuel sum := by
  induction fuel generalizing sum with
  | zero => exact h
  | succ fuel ih =>
    rw [fold]
    split
    · exact h
    · exact ih (carryRound_pos h)

lemma fold_lt (hb : 2 ≤ b) (h : sum < b * b) : fold b 2 sum < b := by
  have hdigit : sum % b < b := mod_lt sum (by omega)
  have hcarry : sum / b < b := Nat.div_lt_of_lt_mul h
  rw [fold]
  split
  · next hsmall =>
    exact (Nat.div_eq_zero_iff.1 hsmall).resolve_left (by omega)
  rw [fold]
  split
  · next hsmall => exact (Nat.div_eq_zero_iff.1 hsmall).resolve_left (by omega)
  · next hlarge =>
    -- the first round leaves less than `2 * b`, so the carry is one
    have htwice : carryRound b sum < 2 * b := by
      unfold carryRound
      omega
    have hge : b ≤ carryRound b sum := by
      by_contra hlt
      exact hlarge (div_eq_of_lt (by omega))
    have hdiv : carryRound b sum / b = 1 := by
      rw [Nat.div_eq_iff (by omega)]
      omega
    have hmod : carryRound b sum % b = carryRound b sum - b := by
      rw [mod_eq_sub_mod hge, mod_eq_of_lt (by omega)]
    have hle : carryRound b sum ≤ 2 * b - 2 := by
      unfold carryRound
      omega
    have hround : carryRound b (carryRound b sum) < b := by
      rw [carryRound.eq_1 b (carryRound b sum)]
      omega
    exact hround

lemma fold_add_complement (hb : 2 ≤ b) (h : sum < b * b)
    (htotal : sum + (b - 1 - fold b 2 sum) < b * b) :
    fold b 2 (sum + (b - 1 - fold b 2 sum)) = b - 1 := by
  have hfold := fold_lt hb h
  set total := sum + (b - 1 - fold b 2 sum) with hdef
  have hpos : 0 < total := by
    rcases Nat.eq_zero_or_pos sum with rfl | hsum
    · have hzero : fold b 2 0 = 0 := by simp [fold]
      omega
    · omega
  have hmod : fold b 2 total ≡ 0 [MOD b - 1] := by
    calc
      fold b 2 total ≡ total [MOD b - 1] := fold_modEq (by omega) 2 total
      _ ≡ fold b 2 sum + (b - 1 - fold b 2 sum) [MOD b - 1] :=
        Nat.ModEq.add_right _ (fold_modEq (by omega) 2 sum).symm
      _ = b - 1 := by omega
      _ ≡ 0 [MOD b - 1] := by simp [Nat.ModEq]
  have hdvd : b - 1 ∣ fold b 2 total := (modEq_zero_iff_dvd).1 hmod
  have hle := le_of_dvd (fold_pos 2 hpos) hdvd
  have hlt := fold_lt hb htotal
  omega

/-! ### The loop runs as long as it has to -/

lemma fold_of_lt (fuel : ℕ) (h : sum < b) : fold b fuel sum = sum := by
  cases fuel with
  | zero => rfl
  | succ fuel => rw [fold, if_pos (div_eq_of_lt h)]

lemma fold_of_two_le (hb : 2 ≤ b) {fuel : ℕ} (hfuel : 2 ≤ fuel) (h : sum < b * b) :
    fold b fuel sum = fold b 2 sum := by
  have hadd : ∀ m n s, fold b (m + n) s = fold b n (fold b m s) := by
    intro m n s
    induction m generalizing s with
    | zero => rw [zero_add, fold]
    | succ m ih =>
      rw [add_right_comm, fold, fold]
      split_ifs with hsmall
      · have hlt : s < b := (Nat.div_eq_zero_iff.1 hsmall).resolve_left (by omega)
        exact (fold_of_lt n hlt).symm
      · exact ih _
  obtain ⟨more, rfl⟩ := Nat.exists_eq_add_of_le hfuel
  rw [hadd, fold_of_lt more (fold_lt hb h)]

/-! ### Addition with end-around carry -/

def endAround (b x y : ℕ) : ℕ := if x + y < b then x + y else x + y - (b - 1)

lemma endAround_modEq (x y : ℕ) : endAround b x y ≡ x + y [MOD b - 1] := by
  unfold endAround
  split_ifs with h
  · exact Nat.ModEq.refl _
  have hadd : x + y - (b - 1) + (b - 1) = x + y := by omega
  calc
    x + y - (b - 1) ≡ x + y - (b - 1) + (b - 1) [MOD b - 1] := by simp [Nat.ModEq]
    _ = x + y := hadd

lemma endAround_eq_zero_iff (hb : 1 ≤ b) {y : ℕ} : endAround b x y = 0 ↔ x = 0 ∧ y = 0 := by
  unfold endAround
  split_ifs <;> omega

section Foldl
variable {ws : List ℕ}

lemma foldl_endAround_lt (hx : x < b) (hws : ∀ w ∈ ws, w < b) : ws.foldl (endAround b) x < b := by
  induction ws generalizing x with
  | nil => exact hx
  | cons w ws ih =>
    refine ih ?_ fun v hv => hws v (mem_cons_of_mem w hv)
    have hw := hws w mem_cons_self
    unfold endAround
    split_ifs <;> omega

lemma foldl_endAround_modEq (x : ℕ) : ws.foldl (endAround b) x ≡ x + ws.sum [MOD b - 1] := by
  induction ws generalizing x with
  | nil => exact Nat.ModEq.refl x
  | cons w ws ih =>
    calc
      (w :: ws).foldl (endAround b) x ≡ endAround b x w + ws.sum [MOD b - 1] := ih _
      _ ≡ x + w + ws.sum [MOD b - 1] := Nat.ModEq.add_right _ (endAround_modEq x w)
      _ = x + (w :: ws).sum := by rw [sum_cons, add_assoc]

lemma foldl_endAround_eq_zero_iff (hb : 1 ≤ b) :
    ws.foldl (endAround b) x = 0 ↔ x = 0 ∧ ws.sum = 0 := by
  induction ws generalizing x with
  | nil => simp
  | cons w ws ih =>
    rw [foldl_cons, ih, endAround_eq_zero_iff hb, sum_cons, Nat.add_eq_zero_iff, and_assoc]

lemma eq_of_modEq {y : ℕ} (hx : x < b) (hy : y < b) (h : x ≡ y [MOD b - 1])
    (hzero : x = 0 ↔ y = 0) : x = y := by
  have hpred : ∀ {z : ℕ}, z < b → z ≠ 0 → z = b - 1 ∨ z < b - 1 := by omega
  by_cases hx0 : x = 0
  · rw [hx0, hzero.1 hx0]
  have hy0 : y ≠ 0 := fun hy0 => hx0 (hzero.2 hy0)
  unfold Nat.ModEq at h
  rcases hpred hx hx0 with rfl | hxlt <;> rcases hpred hy hy0 with rfl | hylt
  · rfl
  · rw [mod_self, mod_eq_of_lt hylt] at h
    exact absurd h.symm hy0
  · rw [mod_self, mod_eq_of_lt hxlt] at h
    exact absurd h hx0
  · rwa [mod_eq_of_lt hxlt, mod_eq_of_lt hylt] at h

lemma fold_eq_zero_iff (fuel : ℕ) : fold b fuel sum = 0 ↔ sum = 0 := by
  refine ⟨fun h => ?_, fun h => ?_⟩
  · by_contra hne
    exact (fold_pos fuel (pos_of_ne_zero hne)).ne' h
  subst h
  cases fuel with
  | zero => rfl
  | succ fuel => simp [fold]

lemma fold_eq_foldl (hb : 2 ≤ b) (hsum : sum < b * b) (hws : ∀ w ∈ ws, w < b)
    (hmod : sum ≡ ws.sum [MOD b - 1]) (hzero : sum = 0 ↔ ws.sum = 0) :
    fold b 2 sum = ws.foldl (endAround b) 0 := by
  refine eq_of_modEq (fold_lt hb hsum) (foldl_endAround_lt (by omega) hws) ?_ ?_
  · calc
      fold b 2 sum ≡ sum [MOD b - 1] := fold_modEq (by omega) 2 sum
      _ ≡ 0 + ws.sum [MOD b - 1] := by rwa [zero_add]
      _ ≡ ws.foldl (endAround b) 0 [MOD b - 1] := (foldl_endAround_modEq 0).symm
  · rw [fold_eq_zero_iff, foldl_endAround_eq_zero_iff (by omega), hzero]
    simp

end Foldl

end GzOS.OnesComplement
