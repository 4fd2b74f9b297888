import Mathlib.Data.List.Basic
import Mathlib.Logic.Function.Basic

/-!
# Open addressing with a bounded probe sequence

Every key has a finite list of slots, its probe sequence. Lookup takes the first slot
that holds the key; insertion the first that is free or holds it. `Valid` is what
lookups need. `Packed` is that insertion always finds the slot a stored key already has:
it holds as long as nothing is removed.
-/
namespace GzOS.ProbeTable
open Function List Option

structure Entry (K V : Type) where
  key : K
  data : V

variable {K V : Type}

def Holds (data : ℕ → Option (Entry K V)) (key : K) (value : V) : Prop :=
  ∃ i, data i = some ⟨key, value⟩

structure Valid (probes : K → List ℕ) (data : ℕ → Option (Entry K V)) : Prop where
  placed : ∀ i e, data i = some e → i ∈ probes e.key
  unique : ∀ i j e f, data i = some e → data j = some f → e.key = f.key → i = j

variable {probes : K → List ℕ} {data : ℕ → Option (Entry K V)} {key : K} {value : V} {i : ℕ}

lemma Valid.update (h : Valid probes data) (hi : i ∈ probes key)
    (hkey : ∀ j e, data j = some e → e.key = key → j = i) :
    Valid probes (update data i (some ⟨key, value⟩)) := by
  constructor
  · intro j e he
    by_cases hj : j = i
    · subst hj
      obtain rfl : (⟨key, value⟩ : Entry K V) = e := by simpa using he
      exact hi
    · exact h.placed j e (by simpa [hj] using he)
  · have hother : ∀ j e, Function.update data i (some ⟨key, value⟩) j = some e →
        e.key = key → j = i := by
      intro j e he hk
      by_contra hj
      exact hj (hkey j e (by simpa [hj] using he) hk)
    have hself : ∀ e, Function.update data i (some ⟨key, value⟩) i = some e → e.key = key := by
      intro e he
      obtain rfl : (⟨key, value⟩ : Entry K V) = e := by simpa using he
      rfl
    intro j k e f he hf hef
    by_cases hj : j = i
    · subst hj
      exact (hother k f hf (hef ▸ hself e he)).symm
    by_cases hk : k = i
    · subst hk
      exact hother j e he (hef.trans (hself f hf))
    · exact h.unique j k e f (by simpa [hj] using he) (by simpa [hk] using hf) hef

lemma Valid.erase (h : Valid probes data) : Valid probes (Function.update data i none) := by
  have hold : ∀ j e, Function.update data i none j = some e → data j = some e := by
    intro j e he
    by_cases hj : j = i
    · subst hj
      simp at he
    · simpa [hj] using he
  exact ⟨fun j e he => h.placed j e (hold j e he),
    fun j k e f he hf hef => h.unique j k e f (hold j e he) (hold k f hf) hef⟩

lemma Valid.of_keys (h : Valid probes data) {data' : ℕ → Option (Entry K V)}
    (hkeys : ∀ i e', data' i = some e' → ∃ e, data i = some e ∧ e.key = e'.key) :
    Valid probes data' := by
  constructor
  · intro i e' he'
    obtain ⟨e, he, hk⟩ := hkeys i e' he'
    exact hk ▸ h.placed i e he
  · intro i j e' f' he' hf' hef
    obtain ⟨e, he, hke⟩ := hkeys i e' he'
    obtain ⟨f, hf, hkf⟩ := hkeys j f' hf'
    exact h.unique i j e f he hf (by rw [hke, hkf, hef])

lemma holds_erase (h : Valid probes data) {w : V} (hi : data i = some ⟨key, w⟩) (key' : K)
    (value' : V) :
    Holds (update data i none) key' value' ↔ key' ≠ key ∧ Holds data key' value' := by
  constructor
  · rintro ⟨j, hj⟩
    have hji : j ≠ i := by
      rintro rfl
      simp at hj
    have hold : data j = some ⟨key', value'⟩ := by simpa [hji] using hj
    exact ⟨fun hk => hji (h.unique j i _ _ hold hi hk), j, hold⟩
  · rintro ⟨hk, j, hj⟩
    have hji : j ≠ i := by
      rintro rfl
      exact hk (by simpa [hi] using (congrArg (Option.map Entry.key) hj).symm)
    exact ⟨j, by simpa [hji] using hj⟩

variable [DecidableEq K]

def place (data : ℕ → Option (Entry K V)) (probes : List ℕ) (key : K) : Option ℕ :=
  probes.find? fun i => (data i).all fun e => decide (e.key = key)

def locate (data : ℕ → Option (Entry K V)) (probes : List ℕ) (key : K) : Option ℕ :=
  probes.find? fun i => (data i).any fun e => decide (e.key = key)

def fetch (data : ℕ → Option (Entry K V)) (probes : List ℕ) (key : K) : Option V :=
  (locate data probes key).bind fun i => (data i).map Entry.data

def Packed (probes : K → List ℕ) (data : ℕ → Option (Entry K V)) : Prop :=
  ∀ i e, data i = some e → place data (probes e.key) e.key = some i

variable {l : List ℕ}

lemma mem_of_place (h : place data l key = some i) : i ∈ l := mem_of_find?_eq_some h

lemma free_or_key_of_place (h : place data l key = some i) :
    data i = none ∨ ∃ value, data i = some ⟨key, value⟩ := by
  have hp := find?_some h
  cases hd : data i with
  | none => exact .inl rfl
  | some e =>
    obtain rfl : e.key = key := by simpa [hd] using hp
    exact .inr ⟨e.data, rfl⟩

lemma key_of_locate (h : locate data l key = some i) : ∃ value, data i = some ⟨key, value⟩ := by
  have hp := find?_some h
  cases hd : data i with
  | none => simp [hd] at hp
  | some e =>
    obtain rfl : e.key = key := by simpa [hd] using hp
    exact ⟨e.data, rfl⟩

lemma Packed.valid (h : Packed probes data) : Valid probes data := by
  constructor
  · intro i e he
    exact mem_of_place (h i e he)
  intro i j e f he hf hkey
  have hi := h i e he
  rw [hkey, h j f hf] at hi
  exact (some.inj hi).symm

lemma Valid.locate (h : Valid probes data) {w : V} (hi : data i = some ⟨key, w⟩) :
    locate data (probes key) key = some i := by
  cases hl : ProbeTable.locate data (probes key) key with
  | none =>
    have hnot := find?_eq_none.1 hl i (h.placed i _ hi)
    simp [hi] at hnot
  | some j =>
    obtain ⟨w', hw'⟩ := key_of_locate hl
    rw [h.unique j i _ _ hw' hi rfl]

lemma fetch_eq_some_iff (h : Valid probes data) :
    fetch data (probes key) key = some value ↔ Holds data key value := by
  constructor
  · intro hf
    obtain ⟨i, hi, hv⟩ := bind_eq_some_iff.1 hf
    obtain ⟨w, hw⟩ := key_of_locate hi
    obtain rfl : w = value := by simpa [hw] using hv
    exact ⟨i, hw⟩
  · rintro ⟨i, hi⟩
    simp [fetch, h.locate hi, hi]

lemma holds_update (hi : data i = none ∨ ∃ w, data i = some ⟨key, w⟩)
    (hkey : ∀ j e, data j = some e → e.key = key → j = i) (key' : K) (value' : V) :
    Holds (update data i (some ⟨key, value⟩)) key' value' ↔
      if key' = key then value' = value else Holds data key' value' := by
  constructor
  · rintro ⟨j, hj⟩
    by_cases hji : j = i
    · subst hji
      obtain ⟨rfl, rfl⟩ : key = key' ∧ value = value' := by simpa using hj
      simp
    · have hold : data j = some ⟨key', value'⟩ := by simpa [hji] using hj
      rw [if_neg fun hk => hji (hkey j _ hold hk)]
      exact ⟨j, hold⟩
  · split_ifs with hk
    · rintro rfl
      exact ⟨i, by simp [hk]⟩
    rintro ⟨j, hj⟩
    have hji : j ≠ i := by
      rintro rfl
      rcases hi with hi | ⟨w, hi⟩
      · simp [hi] at hj
      · exact hk (by simpa [hi] using (congrArg (Option.map Entry.key) hj).symm)
    exact ⟨j, by simpa [hji] using hj⟩

lemma Packed.only_slot (h : Packed probes data) (hi : place data (probes key) key = some i) :
    ∀ j e, data j = some e → e.key = key → j = i := by
  intro j e he hk
  have hj := h j e he
  rw [hk, hi] at hj
  exact (some.inj hj).symm

lemma find?_of_imp {p q : ℕ → Bool} (h : l.find? p = some i) (hqp : ∀ x, q x → p x)
    (hq : q i) : l.find? q = some i := by
  induction l with
  | nil => simp at h
  | cons x l ih =>
    by_cases hp : p x
    · obtain rfl : x = i := by simpa [hp] using h
      simp [hq]
    have hqx : ¬ q x := fun hx => hp (hqp x hx)
    simp only [find?_cons, hqx]
    apply ih
    simpa [hp] using h

lemma Packed.update (h : Packed probes data) (hi : place data (probes key) key = some i) :
    Packed probes (update data i (some ⟨key, value⟩)) := by
  intro j e he
  by_cases hji : j = i
  · subst hji
    obtain rfl : (⟨key, value⟩ : Entry K V) = e := by simpa using he
    apply find?_of_imp hi
    · intro x hx
      by_cases hxj : x = j
      · subst hxj
        rcases free_or_key_of_place hi with hd | ⟨w, hd⟩
        · simp [hd]
        · simp [hd]
      · simpa [hxj] using hx
    · simp
  · have hold : data j = some e := by simpa [hji] using he
    have hne : e.key ≠ key := fun hk => hji (h.only_slot hi j e hold hk)
    apply find?_of_imp (h j e hold)
    · intro x hx
      by_cases hxi : x = i
      · subst hxi
        exact absurd (by simpa using hx) hne.symm
      · simpa [hxi] using hx
    · simp [hji, hold]

/-- Even if a later slot of the sequence still holds an older entry. -/
lemma locate_update_place (h : place data l key = some i) :
    locate (update data i (some ⟨key, value⟩)) l key = some i := by
  apply find?_of_imp h
  · intro x hx
    by_cases hxi : x = i
    · subst hxi
      rcases free_or_key_of_place h with hd | ⟨w, hd⟩
      · simp [hd]
      · simp [hd]
    · rw [update_of_ne hxi] at hx
      cases hd : data x with
      | none => simp
      | some e => simpa [hd] using hx
  · simp

lemma fetch_update {entry : Option (Entry K V)} (hold : ∀ e, data i = some e → e.key ≠ key)
    (hnew : ∀ e, entry = some e → e.key ≠ key) :
    fetch (update data i entry) l key = fetch data l key := by
  have hlocate : locate (update data i entry) l key = locate data l key := by
    unfold locate
    congr 1
    funext j
    by_cases hj : j = i
    · subst hj
      rw [update_self]
      have hboth : ∀ o : Option (Entry K V), (∀ e, o = some e → e.key ≠ key) →
          o.any (fun e => decide (e.key = key)) = false := by
        intro o ho
        cases o with
        | none => rfl
        | some e => simpa using ho e rfl
      rw [hboth _ hnew, hboth _ hold]
    · rw [update_of_ne hj]
  rw [fetch, fetch, hlocate]
  cases hl : locate data l key with
  | none => rfl
  | some j =>
    obtain ⟨w, hw⟩ := key_of_locate hl
    have hj : j ≠ i := by
      rintro rfl
      exact hold _ hw rfl
    rw [bind_some, bind_some, update_of_ne hj]

end GzOS.ProbeTable
