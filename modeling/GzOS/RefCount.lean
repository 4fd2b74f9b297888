import Mathlib.Data.List.Basic
import Mathlib.Data.List.Perm.Basic
import Mathlib.Tactic

/-!
# Shared ownership by reference counts

A cell counts its owners; the release that takes the count to zero gives the value back,
for its destructor. `Counted` says that a heap and a list of owners fit together.
-/
namespace GzOS.RefCount
open List

structure Cell (κ : Type) where
  value : κ
  refs : ℕ

abbrev Heap (κ : Type) := List (Cell κ)

variable {κ : Type}

namespace Heap

def value (h : Heap κ) (i : ℕ) : Option κ := h[i]?.map Cell.value

def alloc (h : Heap κ) (v : κ) : Heap κ := h ++ [⟨v, 1⟩]

def acquire (h : Heap κ) (i : ℕ) : Heap κ := h.modify i fun c => { c with refs := c.refs + 1 }

def release (h : Heap κ) (i : ℕ) : Heap κ := h.modify i fun c => { c with refs := c.refs - 1 }

def dropped (h : Heap κ) (i : ℕ) : Option κ :=
  h[i]?.bind fun c => if c.refs = 1 then some c.value else none

lemma value_modify (h : Heap κ) (i : ℕ) {f : Cell κ → Cell κ} (hf : ∀ c, (f c).value = c.value)
    (j : ℕ) : value (h.modify i f) j = h.value j := by
  simp only [value, getElem?_modify]
  cases h[j]? with
  | none => rfl
  | some c => by_cases hij : i = j <;> simp [hij, hf]

@[simp] lemma value_acquire (h : Heap κ) (i j : ℕ) : (h.acquire i).value j = h.value j :=
  h.value_modify i (by simp) j

@[simp] lemma value_release (h : Heap κ) (i j : ℕ) : (h.release i).value j = h.value j :=
  h.value_modify i (by simp) j

variable {h : Heap κ} {v : κ} {i : ℕ}

lemma value_alloc_of_lt (hi : i < h.length) : (h.alloc v).value i = h.value i := by
  simp [value, alloc, getElem?_append_left hi]

@[simp] lemma value_alloc_length (h : Heap κ) (v : κ) : (h.alloc v).value h.length = some v := by
  simp [value, alloc]

lemma lt_of_value (hv : h.value i = some v) : i < h.length := by
  obtain ⟨c, hc, _⟩ := Option.map_eq_some_iff.1 hv
  exact (List.getElem?_eq_some_iff.1 hc).1

lemma value_alloc_cases {w : κ} (hw : (h.alloc v).value i = some w) :
    h.value i = some w ∨ (i = h.length ∧ w = v) := by
  have hlt := lt_of_value hw
  simp only [alloc, length_append, length_singleton] at hlt
  rcases Nat.lt_succ_iff_lt_or_eq.1 hlt with hi | rfl
  · exact .inl ((value_alloc_of_lt hi).symm.trans hw)
  · rw [value_alloc_length] at hw
    exact .inr ⟨rfl, (Option.some.inj hw).symm⟩

end Heap

structure Counted (h : Heap κ) (owners : List ℕ) : Prop where
  valid : ∀ i ∈ owners, i < h.length
  refs : ∀ (i : ℕ) (c : Cell κ), h[i]? = some c → c.refs = owners.count i

variable {h : Heap κ} {owners owners' : List ℕ} {i : ℕ}

lemma Counted.perm (hc : Counted h owners) (hp : owners.Perm owners') : Counted h owners' where
  valid i hi := hc.valid i (hp.mem_iff.2 hi)
  refs i c hi := (hc.refs i c hi).trans (hp.count_eq i)

lemma Counted.alloc (hc : Counted h owners) (v : κ) :
    Counted (h.alloc v) (h.length :: owners) where
  valid i hi := by
    simp only [Heap.alloc, length_append, length_singleton]
    rcases mem_cons.1 hi with rfl | hi
    · omega
    · have := hc.valid i hi
      omega
  refs i c hi := by
    have hfresh : h.length ∉ owners := fun hm => absurd (hc.valid _ hm) (lt_irrefl _)
    by_cases hlt : i < h.length
    · rw [Heap.alloc, getElem?_append_left hlt] at hi
      rw [hc.refs i c hi, count_cons_of_ne (by omega)]
    rw [Heap.alloc, getElem?_append_right (by omega)] at hi
    obtain ⟨hzero, rfl⟩ := List.getElem?_eq_some_iff.1 hi
    have hi' : i = h.length := by
      simp only [length_singleton] at hzero
      omega
    subst hi'
    simp [count_eq_zero_of_not_mem hfresh]

lemma Counted.modify (hc : Counted h owners) {f : Cell κ → Cell κ}
    (hvalid : ∀ j ∈ owners', j < h.length)
    (hf : ∀ c, c.refs = owners.count i → (f c).refs = owners'.count i)
    (hothers : ∀ j, j ≠ i → owners'.count j = owners.count j) :
    Counted (modify h i f) owners' where
  valid j hj := by
    rw [length_modify]
    exact hvalid j hj
  refs j c hj := by
    rw [getElem?_modify] at hj
    obtain ⟨d, hd, rfl⟩ := Option.map_eq_some_iff.1 hj
    have hrefs := hc.refs j d hd
    by_cases hij : i = j
    · subst hij
      simpa using hf d hrefs
    · simpa [hij, hothers j (Ne.symm hij)] using hrefs

lemma Counted.acquire (hc : Counted h owners) (hi : i ∈ owners) :
    Counted (h.acquire i) (i :: owners) := by
  refine hc.modify (fun j hj => ?_) (fun c hrefs => ?_) fun j hj => count_cons_of_ne hj.symm
  · rcases mem_cons.1 hj with rfl | hj
    · exact hc.valid j hi
    · exact hc.valid j hj
  · rw [hrefs, count_cons_self]

lemma Counted.release (hc : Counted h owners) (i : ℕ) :
    Counted (h.release i) (owners.erase i) := by
  refine hc.modify (fun j hj => ?_) (fun c hrefs => ?_) fun j hj => count_erase_of_ne hj
  · exact hc.valid j (mem_of_mem_erase hj)
  · rw [hrefs, count_erase_self]

lemma Counted.dropped (hc : Counted h owners) (hi : i ∈ owners) :
    h.dropped i = if i ∈ owners.erase i then none else h.value i := by
  obtain ⟨c, hcell⟩ : ∃ c, h[i]? = some c := ⟨_, getElem?_eq_getElem (hc.valid i hi)⟩
  have hrefs := hc.refs i c hcell
  have hpos : 0 < owners.count i := count_pos_iff.2 hi
  have hlast : i ∈ owners.erase i ↔ c.refs ≠ 1 := by
    rw [← count_pos_iff, count_erase_self]
    omega
  by_cases hone : c.refs = 1
  · rw [if_neg (by simp [hlast, hone])]
    simp [Heap.dropped, Heap.value, hcell, hone]
  · rw [if_pos (hlast.2 hone)]
    simp [Heap.dropped, hcell, hone]

end GzOS.RefCount
