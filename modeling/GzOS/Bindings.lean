import Mathlib.Data.List.AList

/-!
# Finite maps and partial functions

The values bound in a finite map, as a list, under insertion and erasure, and the
bindings of a partial function that is changed at one key.
-/
namespace GzOS.Bindings
open List Function

variable {κ β : Type} [DecidableEq κ]

def values (t : AList fun _ : κ => β) : List β := t.entries.map fun e => e.2

variable {t : AList fun _ : κ => β} {k : κ} {b : β}

lemma mem_values : b ∈ values t ↔ ∃ k, t.lookup k = some b := by
  constructor
  · intro h
    obtain ⟨⟨k, b⟩, he, rfl⟩ := mem_map.1 h
    exact ⟨k, AList.mem_lookup_iff.2 he⟩
  · rintro ⟨k, hk⟩
    exact mem_map.2 ⟨⟨k, b⟩, AList.mem_lookup_iff.1 hk, rfl⟩

lemma erase_of_lookup_none (h : t.lookup k = none) : t.erase k = t :=
  AList.ext (kerase_of_notMem_keys (AList.lookup_eq_none.1 h))

lemma values_insert (h : t.lookup k = none) (b : β) : values (t.insert k b) = b :: values t := by
  have : values (t.insert k b) = b :: values (t.erase k) := rfl
  rw [this, erase_of_lookup_none h]

lemma values_perm (h : t.lookup k = some b) : (values t).Perm (b :: values (t.erase k)) := by
  have hmem := AList.mem_lookup_iff.1 h
  obtain ⟨b', l1, l2, _, heq, herase⟩ := exists_of_kerase (mem_keys_of_mem hmem)
  have hmem' : (⟨k, b'⟩ : Σ _ : κ, β) ∈ t.entries := by simp [heq]
  obtain rfl : b = b' := by
    have := AList.mem_lookup_iff.2 hmem'
    exact Option.some.inj (h.symm.trans this)
  have hp : values (t.erase k) = (l1 ++ l2).map fun e => e.2 := congrArg _ herase
  rw [hp, values, heq]
  simp only [map_append]
  exact perm_middle

/-! ## Partial functions -/

section Update

variable {f : κ → Option β} {i : κ} {c : β}

lemma update_some_cases (h : update f k (some b) i = some c) :
    i = k ∧ c = b ∨ i ≠ k ∧ f i = some c := by
  by_cases hi : i = k
  · subst hi
    rw [update_self] at h
    exact .inl ⟨rfl, (Option.some.inj h).symm⟩
  · rw [update_of_ne hi] at h
    exact .inr ⟨hi, h⟩

lemma update_none_cases (h : update f k none i = some c) : i ≠ k ∧ f i = some c := by
  by_cases hi : i = k
  · rw [hi, update_self] at h
    cases h
  · rw [update_of_ne hi] at h
    exact ⟨hi, h⟩

lemma update_some_bound (h : ∃ c, f i = some c) (k : κ) (b : β) :
    ∃ c, update f k (some b) i = some c := by
  by_cases hi : i = k
  · exact ⟨b, by rw [hi, update_self]⟩
  · rwa [update_of_ne hi]

end Update

end GzOS.Bindings
