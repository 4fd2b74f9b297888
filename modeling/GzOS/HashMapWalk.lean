import GzOS.HashMap
import Mathlib.Data.Finset.Card

/-!
# Walking over the hash map

`hashmap_iterate` hands every used slot to a callback, which may change the element and
remove its key. A callback that touches no slot but its own is called once for every
element. The walk does not start if the size is zero, so the size has to bound the used
slots; a put of a stored key makes it too large, and nothing makes it too small.
-/
namespace GzOS.HashMap
open ProbeTable List Function Option

variable {V : Type}

/-- The element behind the pointer of `get` is changed in place. -/
def modify (m : HashmapMap V) (key : UInt32) (f : V → V) : HashmapMap V :=
  match locate m.data (probes m.tableSize (generateKey key)) (generateKey key) with
  | none => m
  | some i =>
    { m with data := update m.data i ((m.data i).map fun e => ⟨e.key, f e.data⟩) }

def visitSlot (f : HashmapMap V → ℕ → Entry (List Char) V → HashmapMap V) (m : HashmapMap V)
    (i : ℕ) : HashmapMap V :=
  match m.data i with
  | none => m
  | some e => f m i e

def hashmapIterate (f : HashmapMap V → ℕ → Entry (List Char) V → HashmapMap V)
    (m : HashmapMap V) : HashmapMap V :=
  if m.size ≤ 0 then m else (range m.tableSize).foldl (visitSlot f) m

variable {m m' : HashmapMap V}

lemma holds_modify (hm : Sound m) (key : UInt32) (f : V → V) :
    Sound (modify m key f) ∧ ∀ k v, Holds (modify m key f).data k v ↔
      if k = generateKey key then ∃ w, Holds m.data k w ∧ v = f w else Holds m.data k v := by
  cases hl : locate m.data (probes m.tableSize (generateKey key)) (generateKey key) with
  | none =>
    have hsame : modify m key f = m := by simp only [modify, hl]
    have hnone : ∀ w, ¬ Holds m.data (generateKey key) w := by
      rintro w ⟨i, hi⟩
      cases hl.symm.trans (hm.valid.locate hi)
    rw [hsame]
    refine ⟨hm, fun k v => ?_⟩
    split_ifs with hk
    · subst hk
      refine ⟨fun h => absurd h (hnone v), ?_⟩
      rintro ⟨w, hw, -⟩
      exact absurd hw (hnone w)
    · exact Iff.rfl
  | some i =>
    obtain ⟨value, hi⟩ := key_of_locate hl
    have hplaced := hm.valid.placed i ⟨generateKey key, value⟩ hi
    have honly : ∀ j e, m.data j = some e → e.key = generateKey key → j = i :=
      fun j e hj hk => hm.valid.unique j i e _ hj hi hk
    simp only [modify, hl, hi]
    refine ⟨⟨hm.pos, hm.valid.update hplaced honly⟩, fun k v => ?_⟩
    refine (holds_update (.inr ⟨value, hi⟩) honly k v).trans ?_
    split_ifs with hk
    · subst hk
      refine ⟨fun hv => ⟨value, ⟨i, hi⟩, hv⟩, ?_⟩
      rintro ⟨w, ⟨j, hj⟩, rfl⟩
      obtain rfl := honly j _ hj rfl
      have hw : value = w := by simpa [hi] using hj
      rw [hw]
    · exact Iff.rfl

lemma get_modify (hm : Sound m) (key : UInt32) (f : V → V) :
    get (modify m key f) = update (get m) key ((get m key).map f) := by
  obtain ⟨hm', hholds⟩ := holds_modify hm key f
  refine funext fun k => ext fun v => ?_
  rw [get_eq_some_iff hm', hholds]
  by_cases hk : k = key
  · subst hk
    rw [if_pos rfl, update_self, map_eq_some_iff]
    exact exists_congr fun w => and_congr (get_eq_some_iff hm).symm eq_comm
  · rw [if_neg (generateKey_injective.ne hk), update_of_ne hk]
    exact (get_eq_some_iff hm).symm

/-! ## The size -/

def used (m : HashmapMap V) : Finset ℕ :=
  (Finset.range m.tableSize).filter fun i => (m.data i).isSome = true

lemma mem_used {i : ℕ} : i ∈ used m ↔ i < m.tableSize ∧ (m.data i).isSome := by
  simp [used]

/-- The size is at least the number of entries. -/
def Capped (m : HashmapMap V) : Prop := ((used m).card : ℤ) ≤ m.size

lemma capped_empty (tableSize : ℕ) : Capped (⟨tableSize, 0, fun _ => none⟩ : HashmapMap V) := by
  have hnone : used (⟨tableSize, 0, fun _ => none⟩ : HashmapMap V) = ∅ := by simp [used]
  simp [Capped, hnone]

lemma Capped.write (h : Capped m) (index : ℕ) (e : Option (Entry (List Char) V)) :
    Capped { m with data := update m.data index e, size := m.size + 1 } := by
  have hsub : used { m with data := update m.data index e, size := m.size + 1 } ⊆
      insert index (used m) := by
    intro i hi
    rw [mem_used] at hi
    rw [Finset.mem_insert, mem_used]
    by_cases hne : i = index
    · exact .inl hne
    · exact .inr ⟨hi.1, by simpa [hne] using hi.2⟩
  have hcard := (Finset.card_le_card hsub).trans (Finset.card_insert_le index (used m))
  unfold Capped at h ⊢
  simp only
  omega

lemma Capped.of_used (h : Capped m) (hused : used m' ⊆ used m) (hsize : m'.size = m.size) :
    Capped m' := by
  have hcard := Finset.card_le_card hused
  unfold Capped at h ⊢
  omega

lemma Capped.modify (h : Capped m) (key : UInt32) (f : V → V) : Capped (modify m key f) := by
  unfold HashMap.modify
  split
  · exact h
  next i _ =>
  refine h.of_used (fun j hj => ?_) rfl
  rw [mem_used] at hj ⊢
  refine ⟨hj.1, ?_⟩
  by_cases hji : j = i
  · subst hji
    simpa using hj.2
  · simpa [hji] using hj.2

lemma moveSlots_capped {put : HashmapMap V → List Char → V → Option (HashmapMap V)}
    (hput : ∀ m m' key value, Capped m → put m key value = some m' → Capped m')
    {t t' : HashmapMap V} {slots : List ℕ} (hstart : Capped t)
    (h : slots.foldlM (moveSlot put m) t = some t') : Capped t' := by
  induction slots generalizing t with
  | nil =>
    cases h
    exact hstart
  | cons i is ih =>
    obtain ⟨t1, h1, h⟩ := bind_eq_some_iff.1 h
    refine ih ?_ h
    unfold moveSlot at h1
    split at h1
    · exact some.inj h1 ▸ hstart
    · exact hput _ _ _ _ hstart h1

lemma rehashInto_capped {put : HashmapMap V → List Char → V → Option (HashmapMap V)}
    (hput : ∀ m m' key value, Capped m → put m key value = some m' → Capped m')
    (h : rehashInto put m = some m') : Capped m' := by
  exact moveSlots_capped hput (capped_empty (2 * m.tableSize)) h

lemma hashmapPut_capped {fuel : ℕ} {key : List Char} {value : V} (h : Capped m)
    (hput : hashmapPut fuel m key value = some m') : Capped m' := by
  induction fuel generalizing m m' key value with
  | zero => cases hput
  | succ fuel ih =>
    rw [hashmapPut] at hput
    split at hput
    · next index _ =>
      cases hput
      exact h.write index _
    · obtain ⟨m1, hrehash, hput⟩ := bind_eq_some_iff.1 hput
      exact ih (rehashInto_capped (fun _ _ _ _ hc hp => ih hc hp) hrehash) hput

lemma Capped.clear (h : Capped m) {i : ℕ} (hi : i ∈ used m) :
    Capped { m with data := update m.data i none, size := m.size - 1 } := by
  have hused : used { m with data := update m.data i none, size := m.size - 1 } =
      (used m).erase i := by
    ext j
    rw [Finset.mem_erase, mem_used, mem_used]
    by_cases hji : j = i
    · subst hji
      simp
    · simp [hji]
  have hcard := Finset.card_erase_of_mem hi
  have hpos := Finset.card_pos.2 ⟨i, hi⟩
  unfold Capped at h ⊢
  rw [hused]
  simp only
  omega

/-! ## The walk -/

variable {f : HashmapMap V → ℕ → Entry (List Char) V → HashmapMap V}
  {g : Entry (List Char) V → Option (Entry (List Char) V)} {Good : Entry (List Char) V → Prop}

structure Local (Good : Entry (List Char) V → Prop)
    (f : HashmapMap V → ℕ → Entry (List Char) V → HashmapMap V)
    (g : Entry (List Char) V → Option (Entry (List Char) V)) : Prop where
  size : ∀ m i e, Sound m → m.data i = some e → Good e → (f m i e).tableSize = m.tableSize
  data : ∀ m i e, Sound m → m.data i = some e → Good e → (f m i e).data = update m.data i (g e)
  capped : ∀ m i e, Sound m → m.data i = some e → Good e → Capped m → Capped (f m i e)
  key : ∀ e e', g e = some e' → e'.key = e.key

structure Walked (g : Entry (List Char) V → Option (Entry (List Char) V)) (m : HashmapMap V)
    (n : ℕ) (m' : HashmapMap V) : Prop where
  tableSize : m'.tableSize = m.tableSize
  data : ∀ i, m'.data i = if i < n then (m.data i).bind g else m.data i
  capped : Capped m'

lemma Walked.sound {n : ℕ} (h : Walked g m n m') (hm : Sound m)
    (hkey : ∀ e e', g e = some e' → e'.key = e.key) : Sound m' := by
  refine ⟨h.tableSize ▸ hm.pos, ?_⟩
  rw [h.tableSize]
  refine hm.valid.of_keys fun i e' he' => ?_
  rw [h.data] at he'
  split_ifs at he'
  · obtain ⟨e, he, hg⟩ := bind_eq_some_iff.1 he'
    exact ⟨e, he, (hkey e e' hg).symm⟩
  · exact ⟨e', he', rfl⟩

lemma walk_loop (hf : Local Good f g) (hm : Sound m) (hc : Capped m)
    (hgood : ∀ i e, m.data i = some e → Good e) (n : ℕ) :
    Walked g m n ((range n).foldl (visitSlot f) m) := by
  induction n with
  | zero => exact ⟨rfl, fun i => by simp, hc⟩
  | succ n ih =>
    rw [range_succ, foldl_append, foldl_cons, foldl_nil]
    obtain ⟨t, ht⟩ : ∃ t, (range n).foldl (visitSlot f) m = t := ⟨_, rfl⟩
    rw [ht] at ih ⊢
    have hsound := ih.sound hm hf.key
    -- slot `n` is as it was when the walk started
    have hslot : t.data n = m.data n := by rw [ih.data, if_neg (lt_irrefl n)]
    unfold visitSlot
    cases hd : m.data n with
    | none =>
      rw [hslot, hd]
      refine ⟨ih.tableSize, fun i => ?_, ih.capped⟩
      by_cases hi : i = n
      · subst hi
        simp [hslot, hd]
      · have hlt : i < n + 1 ↔ i < n := by omega
        simp only [ih.data, hlt]
    | some e =>
      rw [hslot, hd]
      have he : t.data n = some e := hslot.trans hd
      have hge := hgood n e hd
      refine ⟨(hf.size t n e hsound he hge).trans ih.tableSize, fun i => ?_,
        hf.capped t n e hsound he hge ih.capped⟩
      rw [hf.data t n e hsound he hge]
      by_cases hi : i = n
      · subst hi
        simp [hd]
      · have hlt : i < n + 1 ↔ i < n := by omega
        rw [update_of_ne hi]
        simp only [ih.data, hlt]

lemma hashmapIterate_spec (hf : Local Good f g) (hm : Sound m) (hc : Capped m)
    (hgood : ∀ i e, m.data i = some e → Good e) :
    Sound (hashmapIterate f m) ∧ Capped (hashmapIterate f m) ∧
      ∀ i, (hashmapIterate f m).data i = (m.data i).bind g := by
  have hbeyond : ∀ i, m.tableSize ≤ i → m.data i = none := by
    intro i hi
    cases hd : m.data i with
    | none => rfl
    | some e =>
      have := probes_lt hm.pos (hm.valid.placed i e hd)
      omega
  unfold hashmapIterate
  split_ifs with hsize
  · have hempty : ∀ i, m.data i = none := by
      have hnone : (used m).card = 0 := by
        unfold Capped at hc
        omega
      intro i
      by_cases hi : i < m.tableSize
      · have hnot : i ∉ used m := by simp [Finset.card_eq_zero.1 hnone]
        rw [mem_used, not_and] at hnot
        simpa using hnot hi
      · exact hbeyond i (by omega)
    exact ⟨hm, hc, fun i => by simp [hempty i]⟩
  · have hwalk := walk_loop hf hm hc hgood m.tableSize
    refine ⟨hwalk.sound hm hf.key, hwalk.capped, fun i => ?_⟩
    rw [hwalk.data]
    split_ifs with hi
    · rfl
    · rw [hbeyond i (by omega)]
      rfl

lemma get_hashmapIterate (hf : Local Good f g) (hm : Sound m) (hc : Capped m)
    (hgood : ∀ i e, m.data i = some e → Good e) (key : UInt32) :
    get (hashmapIterate f m) key =
      (get m key).bind fun v => (g ⟨generateKey key, v⟩).map Entry.data := by
  obtain ⟨hsound, -, hdata⟩ := hashmapIterate_spec hf hm hc hgood
  refine ext fun v => ?_
  rw [get_eq_some_iff hsound]
  constructor
  · rintro ⟨i, hi⟩
    rw [hdata] at hi
    obtain ⟨e, he, hg⟩ := bind_eq_some_iff.1 hi
    have hkey : generateKey key = e.key := hf.key e _ hg
    refine bind_eq_some_iff.2 ⟨e.data, (get_eq_some_iff hm).2 ⟨i, ?_⟩, ?_⟩
    · rw [he, hkey]
    · rw [hkey]
      exact map_eq_some_iff.2 ⟨_, hg, rfl⟩
  · intro h
    obtain ⟨w, hw, hg⟩ := bind_eq_some_iff.1 h
    obtain ⟨i, hi⟩ := (get_eq_some_iff hm).1 hw
    obtain ⟨e', he', rfl⟩ := map_eq_some_iff.1 hg
    have hkey : e'.key = generateKey key := hf.key _ _ he'
    refine ⟨i, ?_⟩
    rw [hdata, hi, bind_some, he', ← hkey]

end GzOS.HashMap
