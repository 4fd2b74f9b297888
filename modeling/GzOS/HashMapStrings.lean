import GzOS.CTypes
import GzOS.HashMapGrowth

/-!
# Strings as keys

A string key is copied into a buffer of 32 bytes whose last byte the copy never writes.
From 31 characters on the copy ends with whatever stands in memory behind it, so two
keys may become one and one key two. A rehash of a table that stores a key twice is the
second way to disturb another key.
-/
namespace GzOS.HashMap
open Runs ProbeTable List Option

variable {V : Type}

def maxKeySize : ℕ := 32

/-- As the map reads its result. -/
def generateStringKey (key buffer : List Char) : List Char :=
  cString (strncpy buffer key (maxKeySize - 1))

def putString (fuel : ℕ) (m : HashmapMap V) (key buffer : List Char) (value : V) :
    Option (HashmapMap V) :=
  hashmapPut fuel m (generateStringKey key buffer) value

def getString (m : HashmapMap V) (key buffer : List Char) : Option V :=
  hashmapGet m (generateStringKey key buffer)

def removeString (m : HashmapMap V) (key buffer : List Char) : HashmapMap V × Bool :=
  match hashmapGet m (generateStringKey key buffer) with
  | none => (m, false)
  | some _ =>
    match hashmapRemove m (generateStringKey key buffer) with
    | none => (m, false)
    | some m' => (m', true)

def Reachable (m : HashmapMap V) : Prop :=
  ∃ fuel ops, exec (stringStep fuel) hashmapNew ops = some m

def Single (m : HashmapMap V) : Prop :=
  ∀ i j e f, m.data i = some e → m.data j = some f → e.key = f.key → i = j

def Steady (m : HashmapMap V) (key : List Char) : Prop := hashmapHash m key ≠ none ∨ Single m

/-- Calls for the first key do not change what is found for the second. -/
def Untouched (V : Type) (k₁ k₂ : List Char) : Prop :=
  ∀ m : HashmapMap V, Reachable m → ∀ buffer buffer',
    (∀ fuel value m', Steady m (generateStringKey k₁ buffer) →
      putString fuel m k₁ buffer value = some m' →
        getString m' k₂ buffer' = getString m k₂ buffer') ∧
    getString (removeString m k₁ buffer).1 k₂ buffer' = getString m k₂ buffer'

/-- What was put under the name is found under it. -/
def Found (V : Type) (key : List Char) : Prop :=
  ∀ m : HashmapMap V, Reachable m → ∀ buffer buffer' fuel value m',
    Steady m (generateStringKey key buffer) → putString fuel m key buffer value = some m' →
      getString m' key buffer' = some value

/-! The copy of a key. -/

section Copy

variable {key buffer k₁ k₂ : List Char}

lemma nul_not_mem_take (h : nul ∉ key) (n : ℕ) : nul ∉ key.take n :=
  fun hmem => h (mem_of_mem_take hmem)

lemma generateStringKey_short (h : nul ∉ key) (hlen : key.length < maxKeySize - 1) :
    generateStringKey key buffer = key := by
  obtain ⟨n, hn⟩ := Nat.exists_eq_add_of_lt hlen
  have hpad : maxKeySize - 1 - key.length = n + 1 := by omega
  rw [generateStringKey, strncpy, hpad, append_assoc,
    cString_append (nul_not_mem_take h _), take_of_length_le hlen.le, replicate_succ,
    cons_append, cString, takeWhile_cons_of_neg (by simp), append_nil]

/-- The copy of a long key ends with what the buffer contained. -/
lemma generateStringKey_long (h : nul ∉ key) (hlen : maxKeySize - 1 ≤ key.length) :
    generateStringKey key buffer =
      key.take (maxKeySize - 1) ++ cString (buffer.drop (maxKeySize - 1)) := by
  rw [generateStringKey, strncpy, Nat.sub_eq_zero_of_le hlen, replicate_zero,
    append_nil, cString_append (nul_not_mem_take h _)]

lemma take_generateStringKey (buffer : List Char) (h : nul ∉ key) :
    (generateStringKey key buffer).take (maxKeySize - 1) = key.take (maxKeySize - 1) := by
  by_cases hlen : key.length < maxKeySize - 1
  · rw [generateStringKey_short h hlen]
  rw [generateStringKey_long h (by omega), take_append_of_le_length, take_take, Nat.min_self]
  rw [length_take]
  omega

def Apart (k₁ k₂ : List Char) : Prop :=
  k₁.length < maxKeySize - 1 ∨ k₂.length < maxKeySize - 1 ∨
    k₁.take (maxKeySize - 1) ≠ k₂.take (maxKeySize - 1)

lemma eq_of_take_eq {n : ℕ} (h : k₁.take n = k₂.take n) (hlen : k₁.length < n) : k₁ = k₂ := by
  have hshort : k₂.length < n := by
    have := congrArg length h
    rw [length_take, length_take] at this
    omega
  rwa [take_of_length_le hlen.le, take_of_length_le hshort.le] at h

lemma generateStringKey_ne (b1 b2 : List Char) (h1 : nul ∉ k₁) (h2 : nul ∉ k₂) (hne : k₁ ≠ k₂)
    (hapart : Apart k₁ k₂) : generateStringKey k₁ b1 ≠ generateStringKey k₂ b2 := by
  intro heq
  have htake : k₁.take (maxKeySize - 1) = k₂.take (maxKeySize - 1) := by
    rw [← take_generateStringKey b1 h1, ← take_generateStringKey b2 h2, heq]
  rcases hapart with hlen | hlen | hdiff
  · exact hne (eq_of_take_eq htake hlen)
  · exact hne (eq_of_take_eq htake.symm hlen).symm
  · exact hdiff htake

end Copy

/-! The table under it. -/

structure Placed (m : HashmapMap V) : Prop where
  pos : 0 < m.tableSize
  placed : ∀ i e, m.data i = some e → i ∈ probes m.tableSize e.key

lemma Tight.isPlaced {m : HashmapMap V} (h : Tight m) : Placed m := ⟨h.pos, h.sound.valid.placed⟩

lemma tight_loop {put : HashmapMap V → List Char → V → Option (HashmapMap V)}
    (hput : KeepsTight put) {m t t' : HashmapMap V} {slots : List ℕ} (ht : Tight t)
    (h : slots.foldlM (moveSlot put m) t = some t') : Tight t' := by
  induction slots generalizing t with
  | nil =>
    cases h
    exact ht
  | cons i slots ih =>
    obtain ⟨t1, hmove, hrest⟩ := bind_eq_some_iff.1 h
    refine ih ?_ hrest
    cases hd : m.data i with
    | none =>
      simp only [moveSlot, hd, some.injEq] at hmove
      exact hmove ▸ ht
    | some e =>
      simp only [moveSlot, hd] at hmove
      exact (hput t t1 e.key e.data ht hmove).1

variable {fuel : ℕ} {m m' : HashmapMap V} {k key : List Char} {value : V}

lemma placed_step {op : StringOp V} (hm : Placed m) (h : stringStep fuel m op = some m') :
    Placed m' := by
  cases op with
  | put key value =>
    cases fuel with
    | zero => cases h
    | succ fuel =>
      rw [stringStep, hashmapPut] at h
      cases hindex : hashmapHash m key with
      | some index =>
        rw [hindex] at h
        cases h
        have hmem := mem_of_place (place_of_hashmapHash hindex)
        refine ⟨hm.pos, fun i e he => ?_⟩
        by_cases hi : i = index
        · subst hi
          obtain rfl : (⟨key, value⟩ : Entry (List Char) V) = e := by simpa using he
          exact hmem
        · exact hm.placed i e (by simpa [hi] using he)
      | none =>
        rw [hindex] at h
        obtain ⟨m1, hrehash, hput⟩ := bind_eq_some_iff.1 h
        have hempty : Tight (⟨2 * m.tableSize, 0, fun _ => none⟩ : HashmapMap V) :=
          ⟨by simpa using hm.pos, fun _ _ he => by cases he⟩
        have htight := tight_loop (hashmapPut_keepsTight fuel) hempty hrehash
        exact (hashmapPut_keepsTight fuel m1 m' key value htight hput).1.isPlaced
  | remove key =>
    cases h
    rw [hashmapRemove]
    cases locate m.data (probes m.tableSize key) key with
    | none => exact hm
    | some curr =>
      refine ⟨hm.pos, fun i e he => ?_⟩
      by_cases hi : i = curr
      · subst hi
        simp at he
      · exact hm.placed i e (by simpa [hi] using he)

lemma Reachable.placed (h : Reachable m) : Placed m := by
  obtain ⟨fuel, ops, hrun⟩ := h
  have halways : Always (stringStep fuel) Placed hashmapNew ops :=
    always_of_step (fun _ _ _ hm hstep => placed_step hm hstep) hashmapNew_tight.isPlaced ops
  exact halways.last hrun

lemma hashmapGet_of_written (hm : Sound m) (hm' : Sound m') (h : Written m m' key value)
    (k : List Char) : hashmapGet m' k = if k = key then some value else hashmapGet m k := by
  ext v
  refine (fetch_eq_some_iff hm'.valid).trans ((h k v).trans ?_)
  split_ifs with hk
  · simp [eq_comm]
  · exact (fetch_eq_some_iff hm.valid).symm

lemma hashmapGet_hashmapPut (hm : Reachable m) (hsteady : Steady m key)
    (h : hashmapPut fuel m key value = some m') (k : List Char) :
    hashmapGet m' k = if k = key then some value else hashmapGet m k := by
  cases fuel with
  | zero => cases h
  | succ fuel =>
    rw [hashmapPut] at h
    cases hindex : hashmapHash m key with
    | some index =>
      rw [hindex] at h
      cases h
      split_ifs with hk
      · subst hk
        exact hashmapGet_update hindex
      refine fetch_update ?_ ?_
      · rcases free_or_key_of_place (place_of_hashmapHash hindex) with hfree | ⟨w, hw⟩
        · simp [hfree]
        · simpa [hw] using Ne.symm hk
      · simpa using Ne.symm hk
    | none =>
      rw [hindex] at h
      obtain ⟨m1, hrehash, hput⟩ := bind_eq_some_iff.1 h
      have hsingle : Single m := hsteady.resolve_left fun hne => hne hindex
      have hsound : Sound m := ⟨hm.placed.pos, hm.placed.placed, hsingle⟩
      obtain ⟨htight, hsame⟩ := rehashInto_spec (hashmapPut_keepsTight fuel) hsound hrehash
      obtain ⟨htight', hwritten⟩ := hashmapPut_keepsTight fuel m1 m' key value htight hput
      refine hashmapGet_of_written hsound htight'.sound (fun k v => ?_) k
      rw [hwritten, hsame]

lemma hashmapGet_removeString {key1 buffer : List Char} (hk : k ≠ generateStringKey key1 buffer) :
    hashmapGet (removeString m key1 buffer).1 k = hashmapGet m k := by
  rw [removeString]
  split
  case h_1 => rfl
  case h_2 =>
    rw [hashmapRemove]
    cases hlocate : locate m.data (probes m.tableSize (generateStringKey key1 buffer))
      (generateStringKey key1 buffer) with
    | none => rfl
    | some curr =>
      obtain ⟨w, hw⟩ := key_of_locate hlocate
      refine fetch_update ?_ (by simp)
      simpa [hw] using Ne.symm hk

lemma hashmapNew_reachable : Reachable (hashmapNew (V := V)) := ⟨0, [], rfl⟩

lemma hashmapHash_hashmapNew (key : List Char) :
    hashmapHash (hashmapNew (V := V)) key ≠ none := by
  have hsize : ¬ (0 : ℤ) ≥ (initialSize / 2 : ℕ) := by decide
  rw [hashmapHash, hashmapNew, if_neg hsize]
  exact some_ne_none _

/-- Two different string keys are kept apart exactly if one has at most 30 characters or they
differ in the first 31, and a key is found again exactly if it has at most 30, in every
reachable table and for puts that do not rehash a table with a key stored twice. -/
theorem string_keys_apart (V : Type) [Nonempty V] (k₁ k₂ : List Char) (h₁ : nul ∉ k₁)
    (h₂ : nul ∉ k₂) (hne : k₁ ≠ k₂) :
    (Untouched V k₁ k₂ ↔ Apart k₁ k₂) ∧ (Found V k₁ ↔ k₁.length < maxKeySize - 1) := by
  obtain ⟨value⟩ := ‹Nonempty V›
  have hput : ∀ key, ∃ m, hashmapPut 1 (hashmapNew) key value = some m ∧
      ∀ k, hashmapGet m k = if k = key then some value else none := by
    intro key
    obtain ⟨index, hindex⟩ := ne_none_iff_exists'.1 (hashmapHash_hashmapNew key)
    obtain ⟨m, hm⟩ : ∃ m, hashmapPut 1 (hashmapNew) key value = some m := by
      rw [hashmapPut, hindex]
      exact ⟨_, rfl⟩
    exact ⟨m, hm, hashmapGet_hashmapPut hashmapNew_reachable (.inl (hashmapHash_hashmapNew key)) hm⟩
  refine ⟨⟨fun huntouched => ?_, fun hapart m hm buffer buffer' => ?_⟩, ⟨fun hfound => ?_, ?_⟩⟩
  · by_contra hapart
    simp only [Apart, not_or, not_lt, not_not] at hapart
    obtain ⟨hlen1, hlen2, htake⟩ := hapart
    have hsame : generateStringKey k₂ [] = generateStringKey k₁ [] := by
      rw [generateStringKey_long h₁ hlen1, generateStringKey_long h₂ hlen2, htake]
    obtain ⟨m, hm, hget⟩ := hput (generateStringKey k₁ [])
    have hchange := (huntouched hashmapNew hashmapNew_reachable [] []).1 1 value m
      (.inl (hashmapHash_hashmapNew _)) hm
    rw [getString, hget, if_pos hsame] at hchange
    cases hchange
  · have hdiff := (generateStringKey_ne buffer buffer' h₁ h₂ hne hapart).symm
    refine ⟨fun fuel value m' hsteady hm' => ?_, hashmapGet_removeString hdiff⟩
    rw [getString, hashmapGet_hashmapPut hm hsteady hm', if_neg hdiff]
    rfl
  · by_contra hlen
    -- the put finds the last byte cleared, the get finds another
    obtain ⟨m, hm, hget⟩ := hput (generateStringKey k₁ [])
    have hmiss := hfound hashmapNew hashmapNew_reachable [] (replicate maxKeySize 'x') 1 value
      m (.inl (hashmapHash_hashmapNew _)) hm
    have hother : generateStringKey k₁ (replicate maxKeySize 'x') ≠ generateStringKey k₁ [] := by
      rw [generateStringKey_long h₁ (by omega), generateStringKey_long h₁ (by omega)]
      intro heq
      exact absurd (append_cancel_left heq) (by decide)
    rw [getString, hget, if_neg hother] at hmiss
    cases hmiss
  · intro hlen m hm buffer buffer' fuel value m' hsteady hm'
    have hsame : generateStringKey k₁ buffer' = generateStringKey k₁ buffer := by
      rw [generateStringKey_short h₁ hlen, generateStringKey_short h₁ hlen]
    rw [getString, hashmapGet_hashmapPut hm hsteady hm', if_pos hsame]

theorem string_keys_apart_short : Untouched ℕ ['a'] ['b'] ∧ Found ℕ ['a'] := by
  have h := string_keys_apart ℕ ['a'] ['b'] (by decide) (by decide) (by decide)
  exact ⟨h.1.2 (.inl (by decide)), h.2.2 (by decide)⟩

/-- Keys 16 and 32 start in the same slot; after the remove 32 is stored twice, and the
other keys fill the window. -/
def crowdedTwice : List (StringOp ℕ) :=
  [.put (generateKey 16) 0, .put (generateKey 32) 1, .remove (generateKey 16),
    .put (generateKey 32) 2, .put (generateKey 305) 3, .put (generateKey 420) 3,
    .put (generateKey 499) 3, .put (generateKey 580) 3, .put (generateKey 1173) 3,
    .put (generateKey 1195) 3]

def cleared : List Char := List.replicate maxKeySize nul

/-- Keys of 32 characters with the first 31 in common are one key; a key of 31 characters
is missed when the last byte of the second buffer is set; and a put that rehashes a table
with a key stored twice brings the older value of that key back. -/
theorem string_keys_collide :
    (∃ m, putString 1 hashmapNew (replicate 31 'a' ++ ['b']) cleared 1 = some m ∧
      getString (hashmapNew (V := ℕ)) (replicate 31 'a' ++ ['c']) cleared = none ∧
      getString m (replicate 31 'a' ++ ['c']) cleared = some 1) ∧
    (∃ m, putString 1 hashmapNew (replicate 31 'a') cleared 1 = some m ∧
      getString m (replicate 31 'a') (replicate maxKeySize 'x') = none) ∧
    ∃ m m', exec (stringStep 1) hashmapNew crowdedTwice = some m ∧
      putString 2 m (generateKey 1201) cleared 4 = some m' ∧
      getString m (generateKey 32) cleared = some 2 ∧
      getString m' (generateKey 32) cleared = some 1 := by
  refine ⟨?_, ?_, ?_⟩
  · have hone : (putString 1 hashmapNew (replicate 31 'a' ++ ['b']) cleared 1).any (fun m =>
        decide (getString (hashmapNew (V := ℕ)) (replicate 31 'a' ++ ['c']) cleared = none ∧
          getString m (replicate 31 'a' ++ ['c']) cleared = some 1)) = true := by
      decide +kernel
    obtain ⟨m, hm, hfacts⟩ := (any_eq_true _ _).1 hone
    exact ⟨m, hm, of_decide_eq_true hfacts⟩
  · have hmissed : (putString 1 hashmapNew (replicate 31 'a') cleared 1).any (fun m =>
        decide (getString m (replicate 31 'a') (replicate maxKeySize 'x') = none)) = true := by
      decide +kernel
    obtain ⟨m, hm, hfacts⟩ := (any_eq_true _ _).1 hmissed
    exact ⟨m, hm, of_decide_eq_true hfacts⟩
  · have hstale : (exec (stringStep 1) hashmapNew crowdedTwice).any (fun m =>
        (putString 2 m (generateKey 1201) cleared 4).any fun m' =>
          decide (getString m (generateKey 32) cleared = some 2 ∧
            getString m' (generateKey 32) cleared = some 1)) = true := by
      decide +kernel
    obtain ⟨m, hm, hput⟩ := (any_eq_true _ _).1 hstale
    obtain ⟨m', hm', hfacts⟩ := (any_eq_true _ _).1 hput
    exact ⟨m, m', hm, hm', of_decide_eq_true hfacts⟩

end GzOS.HashMap
