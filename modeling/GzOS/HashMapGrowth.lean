import GzOS.HashMap
import GzOS.LinearProbing

/-!
# How far the hash map grows

A put doubles the table until the window of its key has a free slot. From 2 ^ 32 + 8
slots on the windows are the same in every table, so what has no slot there never gets
one, and all other keys are safe.
-/
namespace GzOS.HashMap
open Runs ProbeTable List Function Nat Set

variable {V : Type}

def hashOf (key : List Char) : ℕ := hashmapHashInt (2 ^ 32) key

lemma hashOf_lt (key : List Char) : hashOf key < 2 ^ 32 := mod_lt _ (by norm_num)

lemma hashmapHashInt_eq (tableSize : ℕ) (key : List Char) :
    hashmapHashInt tableSize key = hashOf key % tableSize := by
  unfold hashOf hashmapHashInt
  simp only
  rw [mod_eq_of_lt (UInt32.toNat_lt _)]

lemma probeSequence_eq (tableSize n curr : ℕ) :
    probeSequence tableSize n (curr % tableSize) = circle tableSize n curr := by
  induction n generalizing curr with
  | zero => rfl
  | succ n ih =>
    have hrest : (fun d => (curr + d) % tableSize) ∘ succ =
        fun d => (curr + 1 + d) % tableSize := by
      funext d
      simp only [comp_apply]
      congr 1
      omega
    rw [probeSequence, mod_add_mod, ih, circle, circle, range_succ_eq_map, map_cons, map_map, hrest]
    rfl

lemma probes_eq (tableSize : ℕ) :
    probes tableSize = fun key => circle tableSize maxChainLength (hashOf key) := by
  funext key
  rw [probes, hashmapHashInt_eq, probeSequence_eq]

def stored (m : HashmapMap V) : Set (List Char) := {key | ∃ value, Holds m.data key value}

/-- Every key finds a slot on the unbounded line after all others. -/
def Roomy (keys : Set (List Char)) : Prop := ∀ key ∈ keys, FitsLast hashOf maxChainLength keys key

inductive StringOp (V : Type)
  | put (key : List Char) (value : V)
  | remove (key : List Char)

def StringOp.key : StringOp V → List Char
  | .put key _ => key
  | .remove key => key

def stringStep (fuel : ℕ) (m : HashmapMap V) : StringOp V → Option (HashmapMap V)
  | .put key value => hashmapPut fuel m key value
  | .remove key => some ((hashmapRemove m key).getD m)

def Room (m : HashmapMap V) : StringOp V → Prop
  | .put key _ => hashmapHash m key ≠ none ∨ Roomy (insert key (stored m))
  | .remove _ => True

/-- From one slot on, 33 doublings lead to a large table. -/
def callDepth : ℕ := 33 + 3

variable {fuel : ℕ} {m m' : HashmapMap V} {key : List Char} {value : V}
  {keys keys' : Set (List Char)}

lemma Roomy.mono (hsub : keys' ⊆ keys) (h : Roomy keys) : Roomy keys' :=
  fun x hx => (h x (hsub hx)).mono hsub

variable {i : ℕ} {op : StringOp V} {l : List (List Char)}

lemma mem_stored {e : Entry (List Char) V} (h : m.data i = some e) :
    e.key ∈ stored m := ⟨e.data, i, h⟩

lemma Tight.packed_circle (h : Tight m) :
    Packed (fun key => circle m.tableSize maxChainLength (hashOf key)) m.data := by
  rw [← probes_eq]
  exact h.packed

/-! A put only grows the table, and adds no key but its own. -/

def Grows (put : HashmapMap V → List Char → V → Option (HashmapMap V)) : Prop :=
  ∀ m m' key value, put m key value = some m' →
    m.tableSize ≤ m'.tableSize ∧ stored m' ⊆ insert key (stored m)

lemma grows_loop {put : HashmapMap V → List Char → V → Option (HashmapMap V)} (hput : Grows put)
    {slots : List ℕ} {t t' : HashmapMap V} (h : slots.foldlM (moveSlot put m) t = some t') :
    t.tableSize ≤ t'.tableSize ∧ stored t' ⊆ stored t ∪ stored m := by
  induction slots generalizing t with
  | nil =>
    cases h
    exact ⟨le_rfl, subset_union_left⟩
  | cons i slots ih =>
    obtain ⟨t1, hmove, hrest⟩ := Option.bind_eq_some_iff.1 h
    obtain ⟨hsize, hkeys⟩ := ih hrest
    cases hd : m.data i with
    | none =>
      simp only [moveSlot, hd, Option.some.injEq] at hmove
      subst hmove
      exact ⟨hsize, hkeys⟩
    | some e =>
      simp only [moveSlot, hd] at hmove
      obtain ⟨hsize1, hkeys1⟩ := hput t t1 e.key e.data hmove
      refine ⟨hsize1.trans hsize, fun k hk => ?_⟩
      rcases hkeys hk with hk | hk
      · rcases hkeys1 hk with rfl | hk
        · exact .inr (mem_stored hd)
        · exact .inl hk
      · exact .inr hk

lemma rehashInto_grows {put : HashmapMap V → List Char → V → Option (HashmapMap V)}
    (hput : Grows put) (h : rehashInto put m = some m') :
    2 * m.tableSize ≤ m'.tableSize ∧ stored m' ⊆ stored m := by
  obtain ⟨hsize, hkeys⟩ := grows_loop hput h
  refine ⟨hsize, fun k hk => ?_⟩
  rcases hkeys hk with ⟨v, i, hi⟩ | hk
  · cases hi
  · exact hk

lemma stored_update {index : ℕ} {size : ℤ} :
    stored ⟨m.tableSize, size, update m.data index (some ⟨key, value⟩)⟩ ⊆
      insert key (stored m) := by
  rintro k ⟨v, i, hi⟩
  by_cases hindex : i = index
  · subst hindex
    simp only [update_self, Option.some.injEq, Entry.mk.injEq] at hi
    exact .inl hi.1.symm
  · simp only [update_of_ne hindex] at hi
    exact .inr ⟨v, i, hi⟩

lemma hashmapPut_grows (fuel : ℕ) : Grows (hashmapPut (V := V) fuel) := by
  induction fuel with
  | zero =>
    intro m m' key value h
    cases h
  | succ fuel ih =>
    intro m m' key value h
    rw [hashmapPut] at h
    cases hindex : hashmapHash m key with
    | some index =>
      rw [hindex] at h
      cases h
      exact ⟨le_rfl, stored_update⟩
    | none =>
      rw [hindex] at h
      obtain ⟨m1, hrehash, hput⟩ := Option.bind_eq_some_iff.1 h
      obtain ⟨hsize, hkeys⟩ := rehashInto_grows ih hrehash
      obtain ⟨hsize', hkeys'⟩ := ih m1 m' key value hput
      exact ⟨by omega, hkeys'.trans (insert_subset_insert hkeys)⟩

/-! Large tables. -/

/-- No window goes around a table of this size. -/
def lineSize : ℕ := 2 ^ 32 + maxChainLength

lemma hashOf_add_le (hsize : lineSize ≤ m.tableSize) (key : List Char) :
    hashOf key + maxChainLength ≤ m.tableSize := by
  have := hashOf_lt key
  unfold lineSize at hsize
  omega

lemma hashmapHash_of_roomy (hm : Tight m) (hsize : lineSize ≤ m.tableSize)
    (hstored : stored m ⊆ keys) (hroomy : Roomy keys) (hkey : key ∈ keys)
    (hhalf : m.size < (m.tableSize / 2 : ℕ)) : hashmapHash m key ≠ none := by
  rw [hashmapHash, if_neg (by omega), probes_eq]
  exact hm.packed_circle.place_ne_none (hashOf_add_le hsize)
    (fun i e he => hstored (mem_stored he)) (hroomy key hkey)

structure Moved (keys : Set (List Char)) (m : HashmapMap V) (n : ℕ) (t : HashmapMap V) : Prop where
  tight : Tight t
  tableSize : t.tableSize = 2 * m.tableSize
  keys : stored t ⊆ keys
  size_le : t.size ≤ n
  size_lt : ∀ j < n, m.data j = none → t.size < n

/-- Every entry finds a slot: the table is not half full before all are moved. -/
lemma moved_loop (fuel : ℕ) (hsize : lineSize ≤ m.tableSize) (hstored : stored m ⊆ keys)
    (hroomy : Roomy keys) {n : ℕ} (hn : n ≤ m.tableSize) :
    ∃ t, (range n).foldlM (moveSlot (hashmapPut (fuel + 1)) m)
      ⟨2 * m.tableSize, 0, fun _ => none⟩ = some t ∧ Moved keys m n t := by
  have hpos : 0 < m.tableSize := lt_of_lt_of_le (by decide) hsize
  induction n with
  | zero =>
    refine ⟨_, rfl, ⟨by simpa using hpos, fun i e he => by cases he⟩, rfl, ?_, le_rfl, ?_⟩
    · rintro k ⟨v, i, hi⟩
      cases hi
    · intro j hj
      omega
  | succ n ih =>
    obtain ⟨t, ht, hmoved⟩ := ih (by omega)
    have hstep : ∀ t', moveSlot (hashmapPut (fuel + 1)) m t n = some t' →
        (range (n + 1)).foldlM (moveSlot (hashmapPut (fuel + 1)) m)
          ⟨2 * m.tableSize, 0, fun _ => none⟩ = some t' := by
      intro t' ht'
      rw [range_succ, foldlM_append, ht]
      simpa using ht'
    have hle := hmoved.size_le
    cases hd : m.data n with
    | none =>
      refine ⟨t, hstep t (by rw [moveSlot, hd]), hmoved.tight, hmoved.tableSize, hmoved.keys,
        by omega, fun j _ _ => by omega⟩
    | some e =>
      have hkey := hstored (mem_stored hd)
      obtain ⟨index, hindex⟩ := Option.ne_none_iff_exists'.1
        (hashmapHash_of_roomy hmoved.tight (by rw [hmoved.tableSize]; omega) hmoved.keys hroomy
          hkey (by rw [hmoved.tableSize]; omega))
      have hput : hashmapPut (fuel + 1) t e.key e.data = some ⟨t.tableSize, t.size + 1,
          update t.data index (some ⟨e.key, e.data⟩)⟩ := by
        rw [hashmapPut, hindex]
      refine ⟨_, hstep _ (by rw [moveSlot, hd]; exact hput), ?_⟩
      refine ⟨(hashmapPut_keepsTight _ _ _ _ _ hmoved.tight hput).1, hmoved.tableSize, ?_, ?_, ?_⟩
      · exact stored_update.trans (insert_subset hkey hmoved.keys)
      · show t.size + 1 ≤ _
        omega
      intro j hj hfree
      show t.size + 1 < _
      have hjn : j ≠ n := by
        rintro rfl
        rw [hd] at hfree
        cases hfree
      have := hmoved.size_lt j (by omega) hfree
      omega

lemma Tight.free_end (hm : Tight m) (hi : lineSize ≤ i) (hsize : i < m.tableSize) :
    m.data i = none := by
  by_contra hused
  obtain ⟨e, he⟩ := Option.ne_none_iff_exists'.1 hused
  obtain ⟨d, hd, hid, -⟩ := place_circle (hm.packed_circle i e he)
  have := hashOf_lt e.key
  unfold lineSize at hi
  rw [mod_eq_of_lt (by omega)] at hid
  omega

/-- A table may be half full after one rehash, but not after two. -/
lemma hashmapPut_large (fuel : ℕ) (hsize : lineSize ≤ m.tableSize) (hstored : stored m ⊆ keys)
    (hroomy : Roomy keys) (hkey : key ∈ keys) :
    ∃ m', hashmapPut (fuel + 3) m key value = some m' := by
  have hfound : ∀ (fuel : ℕ) (m : HashmapMap V), hashmapHash m key ≠ none →
      ∃ m', hashmapPut (fuel + 1) m key value = some m' := by
    intro fuel m hne
    obtain ⟨index, hindex⟩ := Option.ne_none_iff_exists'.1 hne
    rw [hashmapPut, hindex]
    exact ⟨_, rfl⟩
  by_cases hindex : hashmapHash m key = none
  case neg => exact hfound _ m hindex
  obtain ⟨m1, hm1, hmoved1⟩ := moved_loop (fuel + 1) hsize hstored hroomy le_rfl
  rw [← rehashInto_eq] at hm1
  rw [hashmapPut, hindex]
  simp only [hm1, Option.bind_some]
  by_cases hindex1 : hashmapHash m1 key = none
  case neg => exact hfound _ m1 hindex1
  have hsize1 : lineSize + 1 ≤ m1.tableSize := by
    have : 0 < lineSize := by decide
    rw [hmoved1.tableSize]
    omega
  obtain ⟨m2, hm2, hmoved2⟩ := moved_loop fuel (by omega) hmoved1.keys hroomy le_rfl
  rw [← rehashInto_eq] at hm2
  rw [hashmapPut, hindex1]
  simp only [hm2]
  have hfree := hmoved1.tight.free_end (i := m1.tableSize - 1) (by omega) (by omega)
  have hlt := hmoved2.size_lt (m1.tableSize - 1) (by omega) hfree
  exact hfound _ m2 (hashmapHash_of_roomy hmoved2.tight (by rw [hmoved2.tableSize]; omega)
    hmoved2.keys hroomy hkey (by rw [hmoved2.tableSize]; omega))

/-- Induction on how often the table can double before every key fits. -/
lemma hashmapPut_returns (n : ℕ) (hsize : lineSize ≤ m.tableSize * 2 ^ n)
    (hstored : stored m ⊆ keys) (hroomy : Roomy keys) (hkey : key ∈ keys) :
    ∃ m', hashmapPut (n + 3) m key value = some m' := by
  induction n generalizing m key value with
  | zero => exact hashmapPut_large 0 (by simpa using hsize) hstored hroomy hkey
  | succ n ih =>
    -- a put inside the rehash begins with a table that is one doubling further
    have hloop : ∀ (slots : List ℕ) (t : HashmapMap V), lineSize ≤ t.tableSize * 2 ^ n →
        stored t ⊆ keys → ∃ t', slots.foldlM (moveSlot (hashmapPut (n + 3)) m) t = some t' := by
      intro slots
      induction slots with
      | nil => exact fun t _ _ => ⟨t, rfl⟩
      | cons i slots ihslots =>
        intro t hlarge hkeys
        cases hd : m.data i with
        | none =>
          simp only [foldlM_cons, moveSlot, hd]
          exact ihslots t hlarge hkeys
        | some e =>
          have hmem := hstored (mem_stored hd)
          obtain ⟨t1, ht1⟩ : ∃ t1, hashmapPut (n + 3) t e.key e.data = some t1 :=
            ih hlarge hkeys hmem
          obtain ⟨hgrow, hkeys1⟩ := hashmapPut_grows _ _ _ _ _ ht1
          obtain ⟨t', ht'⟩ := ihslots t1 (hlarge.trans (mul_le_mul_right _ hgrow))
            (hkeys1.trans (insert_subset hmem hkeys))
          refine ⟨t', ?_⟩
          rw [foldlM_cons]
          simp only [moveSlot, hd]
          exact Option.bind_eq_some_iff.2 ⟨t1, ht1, ht'⟩
    have hdouble : m.tableSize * 2 ^ (n + 1) = 2 * m.tableSize * 2 ^ n := by ring
    rw [hdouble] at hsize
    rw [hashmapPut]
    cases hindex : hashmapHash m key with
    | some index => exact ⟨_, rfl⟩
    | none =>
      obtain ⟨m1, hm1⟩ := hloop (range m.tableSize) ⟨2 * m.tableSize, 0, fun _ => none⟩ hsize
        (by
          rintro k ⟨v, i, hi⟩
          cases hi)
      obtain ⟨hgrow, hkeys1⟩ := rehashInto_grows (hashmapPut_grows _) hm1
      obtain ⟨m', hm'⟩ : ∃ m', hashmapPut (n + 3) m1 key value = some m' :=
        ih (hsize.trans (mul_le_mul_right _ hgrow)) (hkeys1.trans hstored) hkey
      exact ⟨m', Option.bind_eq_some_iff.2 ⟨m1, hm1, hm'⟩⟩

/-- A key without room has no slot in any table: its put rehashes for ever. -/
lemma hashmapPut_diverges (hm : Tight m) (hkey : key ∉ stored m)
    (hfit : ¬ FitsLast hashOf maxChainLength (stored m) key) (fuel : ℕ) :
    hashmapPut fuel m key value = none := by
  induction fuel generalizing m with
  | zero => rfl
  | succ fuel ih =>
    have hindex : hashmapHash m key = none := by
      rw [hashmapHash, probes_eq]
      split_ifs
      · rfl
      · exact hm.packed_circle.place_eq_none (fun v hv => hkey ⟨v, hv⟩) hfit
    rw [hashmapPut, hindex]
    cases hrehash : rehashInto (hashmapPut fuel) m with
    | none => rfl
    | some m1 =>
      obtain ⟨htight, hsame⟩ := rehashInto_spec (hashmapPut_keepsTight fuel) hm.sound hrehash
      have hstored : stored m1 = stored m := by
        simp only [stored, hsame]
      exact ih htight (hstored ▸ hkey) (hstored ▸ hfit)

/-! Runs of puts and removes. -/

lemma room_step (hpos : 0 < m.tableSize) (hop : Room m op) :
    ∃ m', stringStep callDepth m op = some m' ∧ 0 < m'.tableSize := by
  cases op with
  | put key value =>
    obtain ⟨m', hm'⟩ : ∃ m', hashmapPut callDepth m key value = some m' := by
      rcases hop with hne | hroomy
      · obtain ⟨index, hindex⟩ := Option.ne_none_iff_exists'.1 hne
        rw [callDepth, hashmapPut, hindex]
        exact ⟨_, rfl⟩
      · have hlarge : lineSize ≤ m.tableSize * 2 ^ 33 :=
          le_trans (by decide) (Nat.le_mul_of_pos_left (2 ^ 33) hpos)
        exact hashmapPut_returns 33 hlarge (subset_insert _ _) hroomy (mem_insert _ _)
    exact ⟨m', hm', hpos.trans_le (hashmapPut_grows _ _ _ _ _ hm').1⟩
  | remove key =>
    refine ⟨_, rfl, ?_⟩
    rw [hashmapRemove]
    cases locate m.data (probes m.tableSize key) key with
    | none => exact hpos
    | some curr => exact hpos

lemma stored_step (hop : op.key ∈ keys) (hstored : stored m ⊆ keys)
    (h : stringStep fuel m op = some m') : stored m' ⊆ keys := by
  cases op with
  | put key value =>
    exact (hashmapPut_grows _ _ _ _ _ h).2.trans (insert_subset hop hstored)
  | remove key =>
    cases h
    rw [hashmapRemove]
    cases locate m.data (probes m.tableSize key) key with
    | none => exact hstored
    | some curr =>
      rintro k ⟨v, i, hi⟩
      refine hstored ⟨v, i, ?_⟩
      by_cases hic : i = curr
      · subst hic
        simp at hi
      · simpa [hic] using hi

lemma tight_of_puts (hm : Tight m)
    (h : exec (stringStep fuel) m (l.map fun k => .put k value) = some m') :
    Tight m' ∧ ∀ k, k ∈ stored m' ↔ k ∈ l ∨ k ∈ stored m := by
  induction l generalizing m with
  | nil =>
    cases h
    simp [hm]
  | cons key l ih =>
    obtain ⟨m1, hput, hrest⟩ := exec_cons_some.1 h
    obtain ⟨htight, hwritten⟩ := hashmapPut_keepsTight fuel m m1 key value hm hput
    obtain ⟨htight', hstored⟩ := ih htight hrest
    have hkey : ∀ k, k ∈ stored m1 ↔ k = key ∨ k ∈ stored m := by
      intro k
      unfold Written at hwritten
      simp only [stored, hwritten]
      by_cases hk : k = key
      · simp [hk]
      · simp [hk]
    refine ⟨htight', fun k => ?_⟩
    rw [hstored, hkey, mem_cons, ← or_assoc, or_comm (a := k ∈ l)]

lemma hashmapNew_tight : Tight (hashmapNew (V := V)) :=
  ⟨hashmapNew_sound.pos, fun _ _ he => by cases he⟩

lemma not_mem_stored_hashmapNew : key ∉ stored (hashmapNew (V := V)) := by
  rintro ⟨v, i, hi⟩
  cases hi

lemma exec_of_roomy (hroomy : Roomy keys) {ops : List (StringOp V)}
    (hops : ∀ op ∈ ops, op.key ∈ keys) :
    ∃ m, exec (stringStep callDepth) hashmapNew ops = some m := by
  refine exec_of_meets (I := fun m => 0 < m.tableSize ∧ stored m ⊆ keys)
    (G := fun _ op => op.key ∈ keys) ?_ ⟨hashmapNew_sound.pos, ?_⟩ ?_
  · rintro m op ⟨hpos, hstored⟩ hop
    have hroom : Room m op := by
      cases op with
      | put key value => exact .inr (hroomy.mono (insert_subset hop hstored))
      | remove key => trivial
    obtain ⟨m', hm', hpos'⟩ := room_step hpos hroom
    exact ⟨m', hm', hpos', stored_step hop hstored hm'⟩
  · exact fun key hkey => absurd hkey not_mem_stored_hashmapNew
  · intro pre op hpre _ _
    exact hops op (hpre.subset (mem_append_right _ (mem_singleton_self op)))

lemma diverges_after_puts
    (h : exec (stringStep fuel) hashmapNew (l.map fun k => .put k value) = some m) (hl : key ∉ l)
    (hfit : ¬ FitsLast hashOf maxChainLength {k | k ∈ l} key) (fuel' : ℕ) :
    hashmapPut fuel' m key value = none := by
  obtain ⟨htight, hstored⟩ := tight_of_puts hashmapNew_tight h
  have hkeys : stored m = {k | k ∈ l} := by
    ext k
    exact (hstored k).trans (or_iff_left not_mem_stored_hashmapNew)
  rw [← hkeys] at hfit
  exact hashmapPut_diverges htight (by rwa [hkeys]) hfit fuel'

/-- Every run returns whose puts find a slot or have room. And a set of keys has room
exactly if every run of puts and removes of its keys returns. -/
theorem put_returns (V : Type) [Nonempty V] :
    (∀ ops : List (StringOp V), Meets (stringStep callDepth) Room hashmapNew ops →
      exec (stringStep callDepth) hashmapNew ops ≠ none) ∧
    ∀ keys : Set (List Char), (∀ ops : List (StringOp V), (∀ op ∈ ops, op.key ∈ keys) →
      ∃ fuel, exec (stringStep fuel) hashmapNew ops ≠ none) ↔ Roomy keys := by
  obtain ⟨value⟩ := ‹Nonempty V›
  refine ⟨fun ops hops => ?_, fun keys => ⟨fun hall => ?_, fun hroomy ops hops => ?_⟩⟩
  · obtain ⟨m, hm⟩ := exec_of_meets (fun _ _ hpos hop => room_step hpos hop)
      hashmapNew_sound.pos hops
    rw [hm]
    exact Option.some_ne_none m
  · by_contra hroomy
    obtain ⟨key, hkey, hfit⟩ : ∃ key ∈ keys, ¬ FitsLast hashOf maxChainLength keys key := by
      simpa [Roomy] using hroomy
    obtain ⟨others, hothers, hfit⟩ := exists_finset_of_not_fitsLast hfit
    obtain ⟨fuel, hrun⟩ := hall ((others.toList.map fun k => .put k value) ++ [.put key value])
      (by
        intro op hop
        rcases mem_append.1 hop with hop | hop
        · obtain ⟨k, hk, rfl⟩ := mem_map.1 hop
          exact (hothers k (Finset.mem_toList.1 hk)).1
        · obtain rfl := mem_singleton.1 hop
          exact hkey)
    obtain ⟨m', hm'⟩ := Option.ne_none_iff_exists'.1 hrun
    rw [exec_append] at hm'
    obtain ⟨m, hm, hput⟩ := Option.bind_eq_some_iff.1 hm'
    obtain ⟨_, hput, -⟩ := exec_cons_some.1 hput
    have hnone : hashmapPut fuel m key value = none := by
      refine diverges_after_puts hm (fun hmem => ?_) ?_ fuel
      · exact (hothers key (Finset.mem_toList.1 hmem)).2 rfl
      · simp only [Finset.mem_toList]
        exact hfit
    exact Option.some_ne_none _ (hput.symm.trans hnone)
  · obtain ⟨m, hm⟩ := exec_of_roomy hroomy hops
    refine ⟨callDepth, ?_⟩
    rw [hm]
    exact Option.some_ne_none m

theorem put_returns_again :
    exec (stringStep callDepth) (hashmapNew (V := ℕ))
      [.put ['a'] 1, .put ['b'] 2, .remove ['a'], .put ['a'] 3] ≠ none := by
  refine (put_returns ℕ).1 _ ?_
  have hslot : Meets (stringStep callDepth) (fun m (op : StringOp ℕ) =>
      hashmapHash m op.key ≠ none) hashmapNew
      [.put ['a'] 1, .put ['b'] 2, .remove ['a'], .put ['a'] 3] :=
    meets_of_check (by decide +kernel)
  intro pre op hpre m hm
  have := hslot pre op hpre m hm
  cases op with
  | put key value => exact .inl this
  | remove key => trivial

def block (second : Bool) : List Char :=
  if second then ['x', 'z', 'l', '1', 'u'] else ['d', '5', '0', '0', 'a']

def colliding (n : ℕ) : List Char :=
  block (n.testBit 0) ++ block (n.testBit 1) ++ block (n.testBit 2) ++ block (n.testBit 3)

/-- Nine keys of twenty characters with one hash: after puts of eight of them the put of the
ninth does not return. -/
theorem put_never_returns : (∀ n < 9, (colliding n).length ≤ 31 ∧ Char.ofNat 0 ∉ colliding n) ∧
    ∃ m, exec (stringStep 1) hashmapNew
        (((range 8).map colliding).map fun key => .put key 0) = some m ∧
      ∀ fuel, hashmapPut fuel m (colliding 8) 0 = none := by
  have hreturn : exec (stringStep 1) hashmapNew
      (((range 8).map colliding).map fun key => .put key 0) ≠ none := by decide +kernel
  obtain ⟨m, hm⟩ := Option.ne_none_iff_exists'.1 hreturn
  refine ⟨by decide +kernel, m, hm, diverges_after_puts hm (by decide +kernel) ?_⟩
  -- eight other keys have the home of the ninth, and its window has eight slots
  rintro ⟨s, hlow, hhigh, hbound⟩
  have hcount := hbound (hashOf (colliding 8)) hlow ((range 8).map colliding).toFinset (by
    intro key hkey
    have hmem := mem_toFinset.1 hkey
    have hsame : ∀ k ∈ (range 8).map colliding,
        k ≠ colliding 8 ∧ hashOf k = hashOf (colliding 8) := by decide +kernel
    obtain ⟨hne, hhome⟩ := hsame key hmem
    exact ⟨hmem, hne, hhome.ge, hhome.le.trans hlow⟩)
  have hcard : ((range 8).map colliding).toFinset.card = 8 :=
    toFinset_card_of_nodup (by decide +kernel)
  simp only [maxChainLength] at hhigh
  omega

end GzOS.HashMap
