import Mathlib.Data.Nat.Basic
import Mathlib.Tactic.Ring

/-!
# Tilings by aligned blocks of power-of-two size

A tile covers `2 ^ order` positions from a multiple of `2 ^ order` on. A tiling says
for every position below `n` which tile owns it, if any. All changes repaint a union of
whole tiles: another kind, dropped, split in two or joined with its buddy.
-/
namespace GzOS.DyadicTiling
open Option Nat

structure Tile (κ : Type) where
  kind : κ
  head : ℕ
  order : ℕ

variable {κ : Type} {n : ℕ}

def Tile.Covers (t : Tile κ) (q : ℕ) : Prop := t.head ≤ q ∧ q < t.head + 2 ^ t.order

instance (t : Tile κ) : DecidablePred t.Covers := fun _ => inferInstanceAs (Decidable (_ ∧ _))

lemma Tile.covers_head (t : Tile κ) : t.Covers t.head :=
  ⟨le_rfl, Nat.lt_add_of_pos_right (Nat.two_pow_pos _)⟩

variable {t : Tile κ} {q p k : ℕ} {kind : κ}

lemma Tile.ne_head (h : ¬ t.Covers q) : q ≠ t.head := by
  rintro rfl
  exact h t.covers_head

structure Tiling (κ : Type) (n : ℕ) where
  owner : ℕ → Option (Tile κ)
  covers : ∀ {q t}, owner q = some t → t.Covers q
  whole : ∀ {q t}, owner q = some t → ∀ r, t.Covers r → owner r = some t
  aligned : ∀ {q t}, owner q = some t → 2 ^ t.order ∣ t.head
  inside : ∀ {q t}, owner q = some t → t.head + 2 ^ t.order ≤ n

namespace Tiling

lemma head_owner (T : Tiling κ n) (h : T.owner q = some t) : T.owner t.head = some t :=
  T.whole h t.head t.covers_head

lemma lt (T : Tiling κ n) (h : T.owner q = some t) : q < n :=
  lt_of_lt_of_le (T.covers h).2 (T.inside h)

def kindAt (T : Tiling κ n) (q : ℕ) : Option κ := (T.owner q).map Tile.kind

lemma kindAt_of_owner (T : Tiling κ n) (h : T.owner q = some t) : T.kindAt q = some t.kind := by
  rw [kindAt, h, map_some]

lemma kindAt_eq_some (T : Tiling κ n) :
    T.kindAt q = some kind ↔ ∃ t, T.owner q = some t ∧ t.kind = kind := by
  rw [kindAt, map_eq_some_iff]

lemma kindAt_eq_none (T : Tiling κ n) : T.kindAt q = none ↔ T.owner q = none := by
  rw [kindAt, map_eq_none_iff]

def repaint (T : Tiling κ n) (R : ℕ → Prop) [DecidablePred R] (g : ℕ → Option (Tile κ))
    (hR : ∀ q t, R q → T.owner q = some t → ∀ r, t.Covers r → R r)
    (hcov : ∀ q t, R q → g q = some t → t.Covers q ∧ ∀ r, t.Covers r → R r ∧ g r = some t)
    (hin : ∀ q t, R q → g q = some t → 2 ^ t.order ∣ t.head ∧ t.head + 2 ^ t.order ≤ n) :
    Tiling κ n where
  owner q := if R q then g q else T.owner q
  covers {q t} h := by
    split_ifs at h with hq
    · exact (hcov q t hq h).1
    · exact T.covers h
  whole {q t} h r hr := by
    split_ifs at h with hq
    · obtain ⟨hRr, hgr⟩ := (hcov q t hq h).2 r hr
      rw [if_pos hRr, hgr]
    -- the tile lies outside the region, since the region contains only whole tiles
    have hRr : ¬ R r := fun hRr => hq (hR r t hRr (T.whole h r hr) q (T.covers h))
    rw [if_neg hRr]
    exact T.whole h r hr
  aligned {q t} h := by
    split_ifs at h with hq
    · exact (hin q t hq h).1
    · exact T.aligned h
  inside {q t} h := by
    split_ifs at h with hq
    · exact (hin q t hq h).2
    · exact T.inside h

def assign (T : Tiling κ n) (t : Tile κ) (ht : T.owner t.head = some t) (kind : Option κ) :
    Tiling κ n :=
  T.repaint t.Covers (fun _ => kind.map fun k => ⟨k, t.head, t.order⟩)
    (fun q u hq hu => by
      obtain rfl : t = u := some.inj ((T.whole ht q hq).symm.trans hu)
      exact fun r hr => hr)
    (fun q u hq hu => by
      obtain ⟨k, -, rfl⟩ := map_eq_some_iff.1 hu
      exact ⟨hq, fun r hr => ⟨hr, hu⟩⟩)
    (fun q u hq hu => by
      have hal := T.aligned ht
      have hin := T.inside ht
      obtain ⟨k, -, rfl⟩ := map_eq_some_iff.1 hu
      exact ⟨hal, hin⟩)

lemma assign_owner (T : Tiling κ n) (t : Tile κ) (ht : T.owner t.head = some t)
    (kind : Option κ) (q : ℕ) : (T.assign t ht kind).owner q =
      if t.Covers q then kind.map fun k => ⟨k, t.head, t.order⟩ else T.owner q := rfl

lemma assign_kindAt (T : Tiling κ n) (t : Tile κ) (ht : T.owner t.head = some t)
    (kind : Option κ) (q : ℕ) :
    (T.assign t ht kind).kindAt q = if t.Covers q then kind else T.kindAt q := by
  rw [kindAt, assign_owner]
  split_ifs
  · cases kind <;> rfl
  · rfl

def halves (kind : κ) (p k q : ℕ) : Tile κ :=
  if q < p + 2 ^ k then ⟨kind, p, k⟩ else ⟨kind, p + 2 ^ k, k⟩

def split (T : Tiling κ n) {kind : κ} {p k : ℕ} (ht : T.owner p = some ⟨kind, p, k + 1⟩) :
    Tiling κ n :=
  T.repaint (Tile.Covers ⟨kind, p, k + 1⟩) (fun q => some (halves kind p k q))
    (fun q u hq hu => by
      obtain rfl := some.inj ((T.whole ht q hq).symm.trans hu)
      exact fun r hr => hr)
    (fun q u hq hu => by
      obtain rfl := some.inj hu
      have hpow : 2 ^ (k + 1) = 2 ^ k + 2 ^ k := by ring
      simp only [Tile.Covers, halves] at hq ⊢
      by_cases hlow : q < p + 2 ^ k
      · simp only [if_pos hlow]
        refine ⟨⟨hq.1, hlow⟩, fun r hr => ⟨by omega, ?_⟩⟩
        rw [if_pos hr.2]
      · simp only [if_neg hlow]
        refine ⟨by omega, fun r hr => ⟨by omega, ?_⟩⟩
        rw [if_neg (by omega)])
    (fun q u hq hu => by
      obtain rfl := some.inj hu
      have hpow : 2 ^ (k + 1) = 2 ^ k + 2 ^ k := by ring
      have hp : 2 ^ k ∣ p := dvd_trans (pow_dvd_pow 2 (le_succ k)) (T.aligned ht)
      have hin : p + 2 ^ (k + 1) ≤ n := T.inside ht
      unfold halves
      split_ifs
      · exact ⟨hp, by simp only; omega⟩
      · exact ⟨Nat.dvd_add hp dvd_rfl, by simp only; omega⟩)

lemma split_owner (T : Tiling κ n) (ht : T.owner p = some ⟨kind, p, k + 1⟩) (q : ℕ) :
    (T.split ht).owner q =
      if Tile.Covers (⟨kind, p, k + 1⟩ : Tile κ) q then some (halves kind p k q) else T.owner q :=
  rfl

lemma split_owner_half (T : Tiling κ n) (ht : T.owner p = some ⟨kind, p, k + 1⟩)
    (hq : Tile.Covers (⟨kind, p, k + 1⟩ : Tile κ) q) :
    ∃ head, (T.split ht).owner q = some ⟨kind, head, k⟩ ∧ (head = q ↔ q = p ∨ q = p + 2 ^ k) := by
  have hpos := Nat.two_pow_pos k
  rw [split_owner]
  unfold halves
  split_ifs with hlow
  · exact ⟨p, rfl, by omega⟩
  · exact ⟨p + 2 ^ k, rfl, by omega⟩

lemma split_kindAt (T : Tiling κ n) (ht : T.owner p = some ⟨kind, p, k + 1⟩) (q : ℕ) :
    (T.split ht).kindAt q = T.kindAt q := by
  rw [kindAt, split_owner]
  split_ifs with hq
  · rw [T.kindAt_of_owner (T.whole ht q hq)]
    unfold halves
    split_ifs <;> rfl
  · rfl

def join (T : Tiling κ n) (kind : κ) {kind₁ kind₂ : κ} {p k : ℕ}
    (h₁ : T.owner p = some ⟨kind₁, p, k⟩) (h₂ : T.owner (p + 2 ^ k) = some ⟨kind₂, p + 2 ^ k, k⟩)
    (hp : 2 ^ (k + 1) ∣ p) : Tiling κ n :=
  T.repaint (Tile.Covers ⟨kind, p, k + 1⟩) (fun _ => some ⟨kind, p, k + 1⟩)
    (fun q u hq hu r hr => by
      have hpow : 2 ^ (k + 1) = 2 ^ k + 2 ^ k := by ring
      simp only [Tile.Covers] at hq hr ⊢
      by_cases hlow : q < p + 2 ^ k
      · obtain rfl := some.inj ((T.whole h₁ q ⟨hq.1, hlow⟩).symm.trans hu)
        simp only at hr
        omega
      · have hhigh : Tile.Covers (⟨kind₂, p + 2 ^ k, k⟩ : Tile κ) q := by
          constructor
          · simp only
            omega
          · simp only
            omega
        obtain rfl := some.inj ((T.whole h₂ q hhigh).symm.trans hu)
        simp only at hr
        omega)
    (fun q u hq hu => by
      obtain rfl := some.inj hu
      exact ⟨hq, fun r hr => ⟨hr, rfl⟩⟩)
    (fun q u hq hu => by
      obtain rfl := some.inj hu
      have hpow : 2 ^ (k + 1) = 2 ^ k + 2 ^ k := by ring
      have hin := T.inside h₂
      simp only at hin ⊢
      exact ⟨hp, by omega⟩)

def single (kind : κ) (k : ℕ) : Tiling κ (2 ^ k) where
  owner q := if q < 2 ^ k then some ⟨kind, 0, k⟩ else none
  covers {q t} h := by
    split_ifs at h with hq
    obtain rfl := some.inj h
    exact ⟨zero_le q, by simpa using hq⟩
  whole {q t} h r hr := by
    split_ifs at h with hq
    obtain rfl := some.inj h
    have hr' : r < 2 ^ k := by simpa using hr.2
    rw [if_pos hr']
  aligned {q t} h := by
    split_ifs at h with hq
    obtain rfl := some.inj h
    exact dvd_zero _
  inside {q t} h := by
    split_ifs at h with hq
    obtain rfl := some.inj h
    simp

end Tiling

/-- The other half of the block of the next order. -/
def buddy (p k : ℕ) : ℕ := if p % 2 ^ (k + 1) = 0 then p + 2 ^ k else p - 2 ^ k

lemma upper_half (hp : 2 ^ k ∣ p) (hodd : ¬ p % 2 ^ (k + 1) = 0) :
    2 ^ k ≤ p ∧ 2 ^ (k + 1) ∣ p - 2 ^ k := by
  obtain ⟨c, rfl⟩ := hp
  have hpow : 2 ^ (k + 1) = 2 ^ k * 2 := pow_succ 2 k
  rw [hpow, mul_mod_mul_left] at hodd
  have hc : c % 2 = 1 := by
    rcases mod_two_eq_zero_or_one c with h | h
    · exact absurd (by rw [h, mul_zero]) hodd
    · exact h
  have hle : 1 ≤ c := by omega
  constructor
  · exact Nat.le_mul_of_pos_right _ hle
  refine ⟨c / 2, ?_⟩
  have hsplit : c = 2 * (c / 2) + 1 := by omega
  rw [hpow, mul_assoc]
  nth_rewrite 1 [hsplit]
  rw [mul_add, mul_one, Nat.add_sub_cancel]

end GzOS.DyadicTiling
