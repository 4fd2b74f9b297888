import GzOS.ProbeTable
import Mathlib.Combinatorics.Pigeonhole
import Mathlib.Order.Interval.Finset.Nat

/-!
# Linear probing in a bounded window

A key probes the `window` slots from its home on, around a table of `size` slots. A slot
is used as soon as more keys have their homes in a range that ends there than fit in
front of it. So whether a key that comes last finds a slot can be said without the
table.
-/
namespace GzOS.ProbeTable
open List Option Nat

variable {K V : Type}

def circle (size window home : ℕ) : List ℕ := (range window).map fun d => (home + d) % size

/-- With all other keys in place, the key finds a slot in its window: those with homes in a
range that ends there fit in front of it. -/
def FitsLast (home : K → ℕ) (window : ℕ) (keys : Set K) (x : K) : Prop :=
  ∃ s, home x ≤ s ∧ s < home x + window ∧ ∀ a ≤ s, ∀ others : Finset K,
    (∀ y ∈ others, y ∈ keys ∧ y ≠ x ∧ a ≤ home y ∧ home y ≤ s) → others.card ≤ s - a

variable {home : K → ℕ} {size window : ℕ} {keys keys' : Set K} {x : K}

lemma FitsLast.mono (hsub : keys' ⊆ keys) (h : FitsLast home window keys x) :
    FitsLast home window keys' x := by
  obtain ⟨s, hxs, hs, hbound⟩ := h
  refine ⟨s, hxs, hs, fun a ha others hothers => hbound a ha others fun y hy => ?_⟩
  obtain ⟨hmem, hrest⟩ := hothers y hy
  exact ⟨hsub hmem, hrest⟩

lemma exists_finset_of_not_fitsLast [DecidableEq K] (h : ¬ FitsLast home window keys x) :
    ∃ others : Finset K, (∀ y ∈ others, y ∈ keys ∧ y ≠ x) ∧
      ¬ FitsLast home window (others : Set K) x := by
  have hcrowd : ∀ s, ∃ others : Finset K, home x ≤ s → s < home x + window → ∃ a ≤ s,
      (∀ y ∈ others, y ∈ keys ∧ y ≠ x ∧ a ≤ home y ∧ home y ≤ s) ∧ s - a < others.card := by
    intro s
    by_cases hs : home x ≤ s ∧ s < home x + window
    · by_contra hnone
      refine h ⟨s, hs.1, hs.2, fun a ha others hothers => ?_⟩
      by_contra hcard
      exact hnone ⟨others, fun _ _ => ⟨a, ha, hothers, by omega⟩⟩
    · exact ⟨∅, fun h1 h2 => absurd ⟨h1, h2⟩ hs⟩
  choose crowd hcrowd using hcrowd
  refine ⟨(Finset.Ico (home x) (home x + window)).biUnion crowd, ?_, ?_⟩
  · intro y hy
    obtain ⟨s, hs, hy⟩ := Finset.mem_biUnion.1 hy
    obtain ⟨hxs, hs⟩ := Finset.mem_Ico.1 hs
    obtain ⟨a, -, hothers, -⟩ := hcrowd s hxs hs
    exact ⟨(hothers y hy).1, (hothers y hy).2.1⟩
  · rintro ⟨s, hxs, hs, hbound⟩
    obtain ⟨a, ha, hothers, hcard⟩ := hcrowd s hxs hs
    have := hbound a ha (crowd s) fun y hy =>
      ⟨Finset.mem_coe.2 (Finset.mem_biUnion.2 ⟨s, Finset.mem_Ico.2 ⟨hxs, hs⟩, hy⟩),
        (hothers y hy).2⟩
    omega

lemma exists_run_start {p : ℕ → Prop} {b s : ℕ} (h : ∀ j, b ≤ j → j ≤ s → p j) :
    ∃ a ≤ b, (∀ j, a ≤ j → j ≤ s → p j) ∧ ∀ c, a = c + 1 → ¬ p c := by
  classical
  have hrun : ∃ a, ∀ j, a ≤ j → j ≤ s → p j := ⟨b, h⟩
  refine ⟨Nat.find hrun, Nat.find_min' hrun h, Nat.find_spec hrun, fun c hc hp => ?_⟩
  refine Nat.find_min hrun (by omega : c < Nat.find hrun) fun j hj hjs => ?_
  rcases Nat.eq_or_lt_of_le hj with rfl | hlt
  · exact hp
  · exact Nat.find_spec hrun j (by omega) hjs

section Table

variable [DecidableEq K] {data : ℕ → Option (Entry K V)} {i : ℕ}

lemma place_circle (h : place data (circle size window (home x)) x = some i) :
    ∃ d < window, i = (home x + d) % size ∧
      ∀ c < d, ∃ e, data ((home x + c) % size) = some e ∧ e.key ≠ x := by
  rw [place, circle, find?_map] at h
  obtain ⟨d, hd, rfl⟩ := map_eq_some_iff.1 h
  obtain ⟨-, hmem, hbefore⟩ := find?_range_eq_some.1 hd
  refine ⟨d, mem_range.1 hmem, rfl, fun c hc => ?_⟩
  have hpast := hbefore c hc
  cases hdata : data ((home x + c) % size) with
  | none => simp [hdata] at hpast
  | some e =>
    refine ⟨e, rfl, ?_⟩
    simpa [hdata] using hpast

lemma place_circle_eq_none : place data (circle size window (home x)) x = none ↔
    ∀ d < window, ∃ e, data ((home x + d) % size) = some e ∧ e.key ≠ x := by
  rw [place, circle, find?_map, map_eq_none_iff, find?_eq_none]
  refine forall_congr' fun d => imp_congr mem_range ?_
  cases hdata : data ((home x + d) % size) with
  | none => simp [hdata]
  | some e => simp [hdata]

/-- More stored keys have their homes in a range that ends there than fit in front of it. -/
lemma Packed.used_of_card (h : Packed (fun k => circle size window (home k)) data) {a s : ℕ}
    {others : Finset K} (hstored : ∀ y ∈ others, ∃ v, Holds data y v)
    (hhome : ∀ y ∈ others, a ≤ home y ∧ home y ≤ s) (hcard : s - a < others.card) :
    data (s % size) ≠ none := by
  intro hfree
  -- no key with its home at or before the free slot goes past it
  have hslot : ∀ y ∈ others, ∃ j, a ≤ j ∧ j < s ∧ ∃ v, data (j % size) = some ⟨y, v⟩ := by
    intro y hy
    obtain ⟨v, i, hi⟩ := hstored y hy
    obtain ⟨d, -, rfl, hbefore⟩ := place_circle (h i _ hi)
    obtain ⟨hay, hys⟩ := hhome y hy
    have hne : home y + d ≠ s := by
      rintro rfl
      rw [hfree] at hi
      cases hi
    refine ⟨home y + d, by omega, ?_, v, hi⟩
    by_contra hpast
    obtain ⟨e, he, -⟩ := hbefore (s - home y) (by omega)
    simp only [Nat.add_sub_cancel' hys, hfree] at he
    cases he
  choose! slot hslot using hslot
  have hmaps : ∀ y ∈ others, slot y ∈ Finset.Ico a s := fun y hy =>
    Finset.mem_Ico.2 ⟨(hslot y hy).1, (hslot y hy).2.1⟩
  obtain ⟨y, hy, z, hz, hne, heq⟩ :=
    Finset.exists_ne_map_eq_of_card_lt_of_maps_to (by rwa [card_Ico]) hmaps
  obtain ⟨-, -, v, hv⟩ := hslot y hy
  obtain ⟨-, -, w, hw⟩ := hslot z hz
  rw [heq, hw] at hv
  exact hne (congrArg Entry.key (some.inj hv)).symm

lemma Packed.place_eq_none (h : Packed (fun k => circle size window (home k)) data)
    (hx : ∀ v, ¬ Holds data x v) (hfit : ¬ FitsLast home window {y | ∃ v, Holds data y v} x) :
    place data (circle size window (home x)) x = none := by
  refine place_circle_eq_none.2 fun d hd => ?_
  have hused : data ((home x + d) % size) ≠ none := by
    intro hfree
    refine hfit ⟨home x + d, by omega, by omega, fun a _ others hothers => ?_⟩
    by_contra hcard
    exact h.used_of_card (fun y hy => (hothers y hy).1) (fun y hy => (hothers y hy).2.2)
      (by omega) hfree
  obtain ⟨e, he⟩ := ne_none_iff_exists'.1 hused
  refine ⟨e, he, ?_⟩
  rintro rfl
  exact hx e.data ⟨_, he⟩

lemma Packed.used_before (h : Packed (fun k => circle size window (home k)) data)
    (hsize : ∀ k, home k + window ≤ size) {e : Entry K V} (he : data i = some e) :
    home e.key ≤ i ∧ ∀ j, home e.key ≤ j → j < i → data j ≠ none := by
  obtain ⟨d, hd, rfl, hbefore⟩ := place_circle (h i e he)
  have hin : ∀ c ≤ d, (home e.key + c) % size = home e.key + c := fun c hc =>
    mod_eq_of_lt (by have := hsize e.key; omega)
  rw [hin d le_rfl]
  refine ⟨by omega, fun j hj hjd hfree => ?_⟩
  obtain ⟨f, hf, -⟩ := hbefore (j - home e.key) (by omega)
  rw [hin _ (by omega), Nat.add_sub_cancel' hj, hfree] at hf
  cases hf

/-- A window without room would hold one key more than its homes allow. -/
lemma Packed.place_ne_none (h : Packed (fun k => circle size window (home k)) data)
    (hsize : ∀ k, home k + window ≤ size) (hstored : ∀ i e, data i = some e → e.key ∈ keys)
    (hfit : FitsLast home window keys x) :
    place data (circle size window (home x)) x ≠ none := by
  obtain ⟨s, hxs, hs, hbound⟩ := hfit
  intro hnone
  have hwindow : ∀ j, home x ≤ j → j ≤ s → ∃ e, data j = some e ∧ e.key ≠ x := by
    intro j hj hjs
    obtain ⟨e, he, hne⟩ := place_circle_eq_none.1 hnone (j - home x) (by omega)
    have := hsize x
    rw [Nat.add_sub_cancel' hj, Nat.mod_eq_of_lt (by omega)] at he
    exact ⟨e, he, hne⟩
  obtain ⟨a, hax, hused, hedge⟩ := exists_run_start (p := fun j => data j ≠ none)
    (by
      intro j hj hjs
      obtain ⟨e, he, -⟩ := hwindow j hj hjs
      rw [he]
      exact some_ne_none e)
  -- the keys of these slots have their homes there, and there is one too many of them
  have hkey : ∀ j ∈ Finset.Icc a s, ∃ y, (∃ v, data j = some ⟨y, v⟩) ∧ y ≠ x ∧ a ≤ home y ∧
      home y ≤ s := by
    intro j hj
    obtain ⟨haj, hjs⟩ := Finset.mem_Icc.1 hj
    obtain ⟨⟨y, v⟩, he⟩ := ne_none_iff_exists'.1 (hused j haj hjs)
    obtain ⟨hyj, hbefore⟩ := h.used_before hsize he
    simp only at hyj hbefore
    refine ⟨y, ⟨v, he⟩, ?_, ?_, by omega⟩
    · rintro rfl
      obtain ⟨f, hf, hne⟩ := hwindow j hyj hjs
      rw [he] at hf
      exact hne (congrArg Entry.key (some.inj hf)).symm
    · by_contra hlow
      obtain ⟨b, hb⟩ := exists_eq_succ_of_ne_zero (by omega : a ≠ 0)
      exact hedge b hb (hbefore b (by omega) (by omega))
  have : Nonempty K := ⟨x⟩
  choose! key hkey using hkey
  have hinj : Set.InjOn key (Finset.Icc a s : Finset ℕ) := by
    intro j hj k hk heq
    obtain ⟨v, hv⟩ := (hkey j hj).1
    obtain ⟨w, hw⟩ := (hkey k hk).1
    exact h.valid.unique j k _ _ hv hw heq
  have hcount := hbound a (by omega) ((Finset.Icc a s).image key) (by
    intro y hy
    obtain ⟨j, hj, rfl⟩ := Finset.mem_image.1 hy
    obtain ⟨⟨v, hv⟩, hrest⟩ := hkey j hj
    exact ⟨hstored j _ hv, hrest⟩)
  rw [Finset.card_image_of_injOn hinj, card_Icc] at hcount
  omega

end Table

end GzOS.ProbeTable
