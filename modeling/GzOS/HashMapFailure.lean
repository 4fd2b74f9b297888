import GzOS.HashMap

/-!
# The hash map without memory

If the allocation fails in the rehash that a put begins with, nothing has changed. If it
fails in a put of the loop that moves the entries, those that were not yet moved are
lost. The template over the map does not look at the status at all.
-/
namespace GzOS.HashMap
open Runs ProbeTable Option List

variable {V : Type}

inductive Status
  | mapOk
  | mapOmem
  deriving DecidableEq

/-- The status, the table and the number of calls of `calloc`. -/
structure Outcome (V : Type) where
  status : Status
  table : HashmapMap V
  callocs : ℕ

/-- It ends at the first put that has no memory. -/
def rehashLoop (put : HashmapMap V → List Char → V → ℕ → Option (Outcome V))
    (old : HashmapMap V) : List ℕ → HashmapMap V → ℕ → Option (Outcome V)
  | [], m, n => some ⟨.mapOk, m, n⟩
  | i :: slots, m, n =>
    match old.data i with
    | none => rehashLoop put old slots m n
    | some e => (put m e.key e.data n).bind fun r =>
      if r.status = .mapOk then rehashLoop put old slots r.table r.callocs else some r

/-- `calloc n` says whether the call number `n` has memory. -/
def hashmapRehash (calloc : ℕ → Bool)
    (put : HashmapMap V → List Char → V → ℕ → Option (Outcome V)) (m : HashmapMap V) (n : ℕ) :
    Option (Outcome V) :=
  if calloc n then
    rehashLoop put m (range m.tableSize) ⟨2 * m.tableSize, 0, fun _ => none⟩ (n + 1)
  else some ⟨.mapOmem, m, n + 1⟩

/-- With allocations that may fail. -/
def hashmapPutCalloc (calloc : ℕ → Bool) :
    ℕ → HashmapMap V → List Char → V → ℕ → Option (Outcome V)
  | 0, _, _, _, _ => none
  | fuel + 1, m, key, value, n =>
    match hashmapHash m key with
    | some index =>
      some ⟨.mapOk, { m with
        data := Function.update m.data index (some ⟨key, value⟩)
        size := m.size + 1 }, n⟩
    | none => (hashmapRehash calloc (hashmapPutCalloc calloc fuel) m n).bind fun r =>
      if r.status = .mapOmem then some r
      else hashmapPutCalloc calloc fuel r.table key value r.callocs

/-- The result and the table, with its two allocations. -/
def putNothrow (calloc : ℕ → Bool) (newData newKey : Bool) (fuel : ℕ) (m : HashmapMap V)
    (key : List Char) (value : V) : Option (Bool × HashmapMap V) :=
  if newData = false then some (false, m)
  else if newKey = false then some (false, m)
  else (hashmapPutCalloc calloc fuel m key value 0).map fun r => (true, r.table)

/-- A put that has no memory leaves every key as it was. -/
def Atomic (m : HashmapMap V) (key : List Char) : Prop :=
  ∀ calloc fuel value r, hashmapPutCalloc calloc fuel m key value 0 = some r →
    r.status = .mapOmem → ∀ k, hashmapGet r.table k = hashmapGet m k

/-- A put that reports success can be read back. -/
def Reliable (m : HashmapMap V) (key : List Char) : Prop :=
  ∀ calloc newData newKey fuel value m',
    putNothrow calloc newData newKey fuel m key value = some (true, m') →
      hashmapGet m' key = some value

def doublings (key : List Char) : ℕ → HashmapMap V → Option (HashmapMap V)
  | 0, m => some m
  | n + 1, m =>
    if hashmapHash m key = none then (rehashInto (hashmapPut 1) m).bind (doublings key n) else none

def Flat (m : HashmapMap V) (key : List Char) : Prop :=
  ∀ n m', doublings key n m = some m' → hashmapHash m' key = none →
    rehashInto (hashmapPut 1) m' ≠ none

/-! Single puts. -/

variable {calloc : ℕ → Bool} {fuel n : ℕ} {m m' : HashmapMap V} {key : List Char} {value : V}
  {r : Outcome V}

lemma hashmapPutCalloc_of_put (h : hashmapPut 1 m key value = some m') :
    hashmapPutCalloc calloc (fuel + 1) m key value n = some ⟨.mapOk, m', n⟩ := by
  rw [hashmapPut_one] at h
  obtain ⟨index, hindex, rfl⟩ := map_eq_some_iff.1 h
  rw [hashmapPutCalloc, hindex]

lemma hashmapPutCalloc_full (hfull : hashmapHash m key = none) :
    hashmapPutCalloc calloc (fuel + 1) m key value n =
      (hashmapRehash calloc (hashmapPutCalloc calloc fuel) m n).bind fun r =>
        if r.status = .mapOmem then some r
        else hashmapPutCalloc calloc fuel r.table key value r.callocs := by
  rw [hashmapPutCalloc, hfull]

lemma hashmapPutCalloc_of_fail (hfull : hashmapHash m key = none) (hfail : calloc n = false) :
    hashmapPutCalloc calloc (fuel + 1) m key value n = some ⟨.mapOmem, m, n + 1⟩ := by
  have hrehash : hashmapRehash calloc (hashmapPutCalloc calloc fuel) m n =
      some ⟨.mapOmem, m, n + 1⟩ := by
    rw [hashmapRehash, hfail]
    rfl
  rw [hashmapPutCalloc_full hfull, hrehash]
  rfl

/-! The loop of a rehash. -/

section Loop

variable {old t t' : HashmapMap V} {slots : List ℕ}

/-- Every put has had memory, with the table of the one that cannot fail. -/
def Agrees (x : Option (Outcome V)) (y : Option (HashmapMap V)) : Prop :=
  x.map (fun r => (r.status, r.table)) = y.map fun m => (.mapOk, m)

lemma Agrees.bind {x : Option (Outcome V)} {y : Option (HashmapMap V)}
    {f : Outcome V → Option (Outcome V)} {g : HashmapMap V → Option (HashmapMap V)}
    (h : Agrees x y) (hfg : ∀ r, r.status = .mapOk → Agrees (f r) (g r.table)) :
    Agrees (x.bind f) (y.bind g) := by
  cases x with
  | none =>
    obtain rfl : y = none := map_eq_none_iff.1 h.symm
    rfl
  | some r =>
    obtain ⟨m, rfl, hr⟩ := map_eq_some_iff.1 h.symm
    obtain ⟨hstatus, rfl⟩ := Prod.mk.inj hr
    exact hfg r hstatus.symm

lemma rehashLoop_agrees {put : HashmapMap V → List Char → V → Option (HashmapMap V)}
    {putCalloc : HashmapMap V → List Char → V → ℕ → Option (Outcome V)}
    (hput : ∀ m key value n, Agrees (putCalloc m key value n) (put m key value))
    (t : HashmapMap V) (n : ℕ) :
    Agrees (rehashLoop putCalloc old slots t n) (slots.foldlM (moveSlot put old) t) := by
  induction slots generalizing t n with
  | nil => rfl
  | cons i slots ih =>
    rw [rehashLoop, foldlM_cons, moveSlot]
    cases old.data i with
    | none => exact ih t n
    | some e =>
      refine (hput t e.key e.data n).bind fun r hr => ?_
      rw [if_pos hr]
      exact ih r.table r.callocs

lemma rehashLoop_flat (rest : List ℕ) (h : slots.foldlM (moveSlot (hashmapPut 1) old) t = some t') :
    rehashLoop (hashmapPutCalloc calloc (fuel + 1)) old (slots ++ rest) t n =
      rehashLoop (hashmapPutCalloc calloc (fuel + 1)) old rest t' n := by
  induction slots generalizing t with
  | nil =>
    cases h
    rfl
  | cons i slots ih =>
    obtain ⟨t1, hmove, hrest⟩ := bind_eq_some_iff.1 h
    rw [cons_append, rehashLoop]
    cases hd : old.data i with
    | none =>
      simp only [moveSlot, hd, some.injEq] at hmove
      subst hmove
      exact ih hrest
    | some e =>
      simp only [moveSlot, hd] at hmove
      simp only [hashmapPutCalloc_of_put hmove]
      exact ih hrest

lemma rehashLoop_zero (h : rehashLoop (hashmapPutCalloc calloc 0) old slots t n = some r) :
    r.status = .mapOk := by
  induction slots generalizing t with
  | nil =>
    cases h
    rfl
  | cons i slots ih =>
    rw [rehashLoop] at h
    cases hd : old.data i with
    | none =>
      rw [hd] at h
      exact ih h
    | some e =>
      rw [hd] at h
      cases h

lemma foldlM_range_none {f : HashmapMap V → ℕ → Option (HashmapMap V)} {size : ℕ}
    (h : (range size).foldlM f t = none) :
    ∃ i < size, ∃ t', (range i).foldlM f t = some t' ∧ f t' i = none := by
  induction size with
  | zero => cases h
  | succ size ih =>
    cases hfront : (range size).foldlM f t with
    | none =>
      obtain ⟨i, hi, hsome⟩ := ih hfront
      exact ⟨i, by omega, hsome⟩
    | some t' =>
      refine ⟨size, by omega, t', hfront, ?_⟩
      rw [range_succ, foldlM_append, hfront] at h
      simpa using h

end Loop

/-- As long as there is memory, the put with its rehashes is the one that cannot fail. -/
theorem hashmapPutCalloc_agrees (fuel : ℕ) (m : HashmapMap V) (key : List Char) (value : V)
    (n : ℕ) :
    Agrees (hashmapPutCalloc (fun _ => true) fuel m key value n) (hashmapPut fuel m key value) := by
  induction fuel generalizing m key value n with
  | zero => rfl
  | succ fuel ih =>
    cases hindex : hashmapHash m key with
    | some index =>
      rw [hashmapPutCalloc, hashmapPut, hindex]
      rfl
    | none =>
      rw [hashmapPutCalloc_full hindex, hashmapRehash, if_pos rfl, hashmapPut, hindex]
      refine (rehashLoop_agrees ih _ (n + 1)).bind fun r hr => ?_
      rw [if_neg (by simp [hr])]
      exact ih r.table key value r.callocs

lemma hashmapPutCalloc_of_flat (hfull : hashmapHash m key = none) (hok : calloc n)
    (hflat : rehashInto (hashmapPut 1) m = some m') :
    hashmapPutCalloc calloc (fuel + 2) m key value n =
      hashmapPutCalloc calloc (fuel + 1) m' key value (n + 1) := by
  have hrehash : hashmapRehash calloc (hashmapPutCalloc calloc (fuel + 1)) m n =
      some ⟨.mapOk, m', n + 1⟩ := by
    rw [hashmapRehash, if_pos hok, ← append_nil (range m.tableSize)]
    exact rehashLoop_flat [] hflat
  rw [hashmapPutCalloc_full hfull, hrehash]
  rfl

lemma hashmapGet_congr (hm : Sound m) (hm' : Sound m')
    (h : ∀ k v, Holds m'.data k v ↔ Holds m.data k v) (k : List Char) :
    hashmapGet m' k = hashmapGet m k :=
  ext fun v => (fetch_eq_some_iff hm'.valid).trans
    ((h k v).trans (fetch_eq_some_iff hm.valid).symm)

lemma get_of_flat (hm : Sound m) (hflat : Flat m key)
    (h : hashmapPutCalloc calloc fuel m key value n = some r) (hr : r.status = .mapOmem)
    (k : List Char) : hashmapGet r.table k = hashmapGet m k := by
  induction fuel generalizing m n with
  | zero => cases h
  | succ fuel ih =>
    cases hindex : hashmapHash m key with
    | some index =>
      rw [hashmapPutCalloc, hindex] at h
      cases h
      cases hr
    | none =>
      cases hok : calloc n with
      | false =>
        rw [hashmapPutCalloc_of_fail hindex hok] at h
        cases h
        rfl
      | true =>
        obtain ⟨m1, hm1⟩ := ne_none_iff_exists'.1 (hflat 0 m rfl hindex)
        cases fuel with
        | zero =>
          rw [hashmapPutCalloc_full hindex] at h
          obtain ⟨r1, hrehash, hrest⟩ := bind_eq_some_iff.1 h
          rw [hashmapRehash, if_pos hok] at hrehash
          simp only [rehashLoop_zero hrehash] at hrest
          cases hrest
        | succ fuel =>
          rw [hashmapPutCalloc_of_flat hindex hok hm1] at h
          obtain ⟨htight, hsame⟩ := rehashInto_spec (hashmapPut_keepsTight 1) hm hm1
          have hrest : Flat m1 key := fun d m' hd => hflat (d + 1) m' (by
            rw [doublings, if_pos hindex, hm1]
            exact hd)
          rw [ih htight.sound hrest h]
          exact hashmapGet_congr hm htight.sound hsame k

/-- A rehash with no slot for an entry, and no memory for the rehash this asks for, loses
the entry. -/
lemma lost_of_not_flat (hm : Sound m) (hfull : hashmapHash m key = none)
    (hflat : rehashInto (hashmapPut 1) m = none) (hok : calloc n)
    (hfail : calloc (n + 1) = false) :
    ∃ r k, hashmapPutCalloc calloc 2 m key value n = some r ∧ r.status = .mapOmem ∧
      hashmapGet r.table k ≠ hashmapGet m k := by
  obtain ⟨i, hi, t, hfront, hstop⟩ := foldlM_range_none hflat
  obtain ⟨e, he⟩ : ∃ e, m.data i = some e := by
    cases hd : m.data i with
    | none => simp [hd] at hstop
    | some e => exact ⟨e, rfl⟩
  have hnone : hashmapHash t e.key = none := by
    simpa only [he, hashmapPut_one, map_eq_none_iff] using hstop
  obtain ⟨rest, hrange⟩ : ∃ rest, range m.tableSize = range i ++ i :: rest := by
    obtain ⟨k, hk⟩ := Nat.exists_eq_add_of_lt hi
    rw [hk, Nat.add_assoc, range_add, range_succ_eq_map]
    exact ⟨_, rfl⟩
  have hloop : rehashLoop (hashmapPutCalloc calloc 1) m (range m.tableSize)
      ⟨2 * m.tableSize, 0, fun _ => none⟩ (n + 1) = some ⟨.mapOmem, t, n + 2⟩ := by
    rw [hrange, rehashLoop_flat _ hfront, rehashLoop, he]
    simp only [hashmapPutCalloc_of_fail hnone hfail]
    rfl
  obtain ⟨htight, hholds⟩ := rehash_loop (hashmapPut_keepsTight 1) hm i hfront
  refine ⟨⟨.mapOmem, t, n + 2⟩, e.key, ?_, rfl, ?_⟩
  · rw [hashmapPutCalloc_full hfull, hashmapRehash, if_pos hok, hloop]
    rfl
  have hold : hashmapGet m e.key = some e.data := (fetch_eq_some_iff hm.valid).2 ⟨i, he⟩
  rw [hold]
  intro hnew
  obtain ⟨j, hj, hje⟩ := (hholds _ _).1 ((fetch_eq_some_iff htight.sound.valid).1 hnew)
  have := hm.valid.unique j i _ _ hje he rfl
  omega

lemma lost_of_doublings (calloc : ℕ → Bool) (value : V) (d : ℕ) (hm : Sound m)
    (hd : doublings key d m = some m')
    (hfull : hashmapHash m' key = none) (hflat : rehashInto (hashmapPut 1) m' = none)
    (hok : ∀ i ≤ d, calloc (n + i)) (hfail : calloc (n + d + 1) = false) :
    ∃ r k, hashmapPutCalloc calloc (d + 2) m key value n = some r ∧
      r.status = .mapOmem ∧ hashmapGet r.table k ≠ hashmapGet m k := by
  induction d generalizing m n with
  | zero =>
    cases hd
    exact lost_of_not_flat hm hfull hflat (hok 0 le_rfl) hfail
  | succ d ih =>
    rw [doublings] at hd
    split_ifs at hd with hindex
    obtain ⟨m1, hm1, hd⟩ := bind_eq_some_iff.1 hd
    obtain ⟨htight, hsame⟩ := rehashInto_spec (hashmapPut_keepsTight 1) hm hm1
    obtain ⟨r, k, hput, hr, hne⟩ := ih htight.sound hd
      (fun i hi => by
        have := hok (i + 1) (by omega)
        rwa [Nat.add_comm i 1, ← Nat.add_assoc] at this)
      (by
        rw [Nat.add_right_comm n 1 d]
        exact hfail)
    refine ⟨r, k, ?_, hr, ?_⟩
    · rw [← hput]
      exact hashmapPutCalloc_of_flat hindex (hok 0 (by omega)) hm1
    · rwa [hashmapGet_congr hm htight.sound hsame] at hne

lemma atomic_iff_flat (value : V) (hm : Sound m) : Atomic m key ↔ Flat m key := by
  constructor
  · intro hatomic d m' hd hfull hflat
    -- the first call that fails is the one inside the rehash of the last table
    obtain ⟨r, k, hput, hr, hne⟩ := lost_of_doublings (n := 0) (fun i => decide (i ≤ d)) value d
      hm hd hfull hflat (by simp) (by simp)
    exact hne (hatomic _ _ _ _ hput hr k)
  · intro hflat calloc fuel value r hr homem
    exact get_of_flat hm hflat hr homem

/-- For every table and key, whatever allocations fail: a put that has no memory changes
nothing and a put that returns true is found, exactly if the key has a slot before any
rehash. Of the first part alone, in a table that stores every key once, the condition
is that no rehash needs a rehash inside. -/
theorem put_atomic_iff [Nontrivial V] (m : HashmapMap V) (key : List Char) :
    (Atomic m key ∧ Reliable m key ↔ hashmapHash m key ≠ none) ∧
      (Sound m → (Atomic m key ↔ Flat m key)) := by
  obtain ⟨v, w, hvw⟩ := exists_pair_ne V
  refine ⟨⟨?_, fun hslot => ?_⟩, atomic_iff_flat v⟩
  · rintro ⟨-, hreliable⟩ hfull
    have hfound : ∀ value, hashmapGet m key = some value := by
      intro value
      refine hreliable (fun _ => false) true true 1 value m ?_
      have hput : hashmapPutCalloc (fun _ => false) 1 m key value 0 = some ⟨.mapOmem, m, 1⟩ :=
        hashmapPutCalloc_of_fail hfull rfl
      rw [putNothrow, hput]
      rfl
    exact hvw (some.inj ((hfound v).symm.trans (hfound w)))
  · obtain ⟨index, hindex⟩ := ne_none_iff_exists'.1 hslot
    have hput : ∀ calloc fuel value r, hashmapPutCalloc calloc fuel m key value 0 = some r →
        r = ⟨.mapOk, ⟨m.tableSize, m.size + 1,
          Function.update m.data index (some ⟨key, value⟩)⟩, 0⟩ := by
      intro calloc fuel value r hr
      cases fuel with
      | zero => cases hr
      | succ fuel =>
        rw [hashmapPutCalloc, hindex] at hr
        exact (some.inj hr).symm
    constructor
    · intro calloc fuel value r hr homem
      rw [hput _ _ _ _ hr] at homem
      cases homem
    · intro calloc newData newKey fuel value m' hm'
      rw [putNothrow] at hm'
      split_ifs at hm' with hdata hkey
      · cases hm'
      · cases hm'
      obtain ⟨r, hr, hrm⟩ := map_eq_some_iff.1 hm'
      obtain rfl : r.table = m' := (Prod.mk.inj hrm).2
      rw [hput _ _ _ _ hr]
      exact hashmapGet_update hindex

/-- In a new table every key has a slot. -/
theorem put_atomic_new : Atomic (hashmapNew (V := ℕ)) (generateKey 16) ∧
    Reliable (hashmapNew (V := ℕ)) (generateKey 16) :=
  (put_atomic_iff hashmapNew (generateKey 16)).1.2 (by decide +kernel)

/-- One of the nine keys is moved last; in 512 slots the others fill its window. -/
def crowding : List (Op ℕ) :=
  [.put 67 1, .put 439 2, .put 2681 3, .put 4239 4, .put 4499 5, .put 4513 6, .put 5196 7,
    .put 5438 8, .put 414 9]

/-- When that rehash has no memory, the key is lost; and when the first has none, the put
returns true without its value. -/
theorem put_not_atomic : ∃ m, exec (step 1) hashmapNew crowding = some m ∧ get m 67 = some 1 ∧
    (∃ r, hashmapPutCalloc (fun n => decide (n = 0)) 3 m (generateKey 5950) 10 0 = some r ∧
      r.status = .mapOmem ∧ get r.table 67 = none) ∧
    ∃ m', putNothrow (fun _ => false) true true 1 m (generateKey 5950) 10 = some (true, m') ∧
      get m' 5950 = none := by
  have hrun : (exec (step 1) hashmapNew crowding).any (fun m => decide (get m 67 = some 1) &&
      (hashmapPutCalloc (fun n => decide (n = 0)) 3 m (generateKey 5950) 10 0).any (fun r =>
        decide (r.status = .mapOmem ∧ get r.table 67 = none)) &&
      (putNothrow (fun _ => false) true true 1 m (generateKey 5950) 10).any (fun r =>
        decide (r.1 = true ∧ get r.2 5950 = none))) = true := by decide +kernel
  obtain ⟨m, hm, hfacts⟩ := (any_eq_true _ _).1 hrun
  simp only [Bool.and_eq_true] at hfacts
  obtain ⟨⟨hget, hlost⟩, htrue⟩ := hfacts
  obtain ⟨r, hr, hlost⟩ := (any_eq_true _ _).1 hlost
  obtain ⟨⟨b, m'⟩, hm', htrue⟩ := (any_eq_true _ _).1 htrue
  obtain ⟨rfl, hnone⟩ := of_decide_eq_true htrue
  exact ⟨m, hm, of_decide_eq_true hget, ⟨r, hr, of_decide_eq_true hlost⟩, m', hm', hnone⟩

end GzOS.HashMap
