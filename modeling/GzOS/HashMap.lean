import GzOS.ProbeTable
import GzOS.Runs
import Mathlib.Tactic.Ring

/-!
# The hash map as a finite map

Keys are printed as eight hexadecimal digits, hashed, and probed in a window of eight
slots. A put takes the first slot that is free or holds the key, so once a remove has
left a hole in front of a key the next put stores it a second time. This is the only
way in which the table stops being a finite map.
-/
namespace GzOS.HashMap
open Runs ProbeTable Option Function List Nat

def initialSize : ℕ := 256
def maxChainLength : ℕ := 8

structure HashmapMap (V : Type) where
  tableSize : ℕ
  size : ℤ
  data : ℕ → Option (Entry (List Char) V)

variable {V : Type}

def hashmapNew : HashmapMap V := ⟨initialSize, 0, fun _ => none⟩

def crc32Tab : List UInt32 := [
  0x00000000, 0x77073096, 0xee0e612c, 0x990951ba, 0x076dc419, 0x706af48f, 0xe963a535, 0x9e6495a3,
  0x0edb8832, 0x79dcb8a4, 0xe0d5e91e, 0x97d2d988, 0x09b64c2b, 0x7eb17cbd, 0xe7b82d07, 0x90bf1d91,
  0x1db71064, 0x6ab020f2, 0xf3b97148, 0x84be41de, 0x1adad47d, 0x6ddde4eb, 0xf4d4b551, 0x83d385c7,
  0x136c9856, 0x646ba8c0, 0xfd62f97a, 0x8a65c9ec, 0x14015c4f, 0x63066cd9, 0xfa0f3d63, 0x8d080df5,
  0x3b6e20c8, 0x4c69105e, 0xd56041e4, 0xa2677172, 0x3c03e4d1, 0x4b04d447, 0xd20d85fd, 0xa50ab56b,
  0x35b5a8fa, 0x42b2986c, 0xdbbbc9d6, 0xacbcf940, 0x32d86ce3, 0x45df5c75, 0xdcd60dcf, 0xabd13d59,
  0x26d930ac, 0x51de003a, 0xc8d75180, 0xbfd06116, 0x21b4f4b5, 0x56b3c423, 0xcfba9599, 0xb8bda50f,
  0x2802b89e, 0x5f058808, 0xc60cd9b2, 0xb10be924, 0x2f6f7c87, 0x58684c11, 0xc1611dab, 0xb6662d3d,
  0x76dc4190, 0x01db7106, 0x98d220bc, 0xefd5102a, 0x71b18589, 0x06b6b51f, 0x9fbfe4a5, 0xe8b8d433,
  0x7807c9a2, 0x0f00f934, 0x9609a88e, 0xe10e9818, 0x7f6a0dbb, 0x086d3d2d, 0x91646c97, 0xe6635c01,
  0x6b6b51f4, 0x1c6c6162, 0x856530d8, 0xf262004e, 0x6c0695ed, 0x1b01a57b, 0x8208f4c1, 0xf50fc457,
  0x65b0d9c6, 0x12b7e950, 0x8bbeb8ea, 0xfcb9887c, 0x62dd1ddf, 0x15da2d49, 0x8cd37cf3, 0xfbd44c65,
  0x4db26158, 0x3ab551ce, 0xa3bc0074, 0xd4bb30e2, 0x4adfa541, 0x3dd895d7, 0xa4d1c46d, 0xd3d6f4fb,
  0x4369e96a, 0x346ed9fc, 0xad678846, 0xda60b8d0, 0x44042d73, 0x33031de5, 0xaa0a4c5f, 0xdd0d7cc9,
  0x5005713c, 0x270241aa, 0xbe0b1010, 0xc90c2086, 0x5768b525, 0x206f85b3, 0xb966d409, 0xce61e49f,
  0x5edef90e, 0x29d9c998, 0xb0d09822, 0xc7d7a8b4, 0x59b33d17, 0x2eb40d81, 0xb7bd5c3b, 0xc0ba6cad,
  0xedb88320, 0x9abfb3b6, 0x03b6e20c, 0x74b1d29a, 0xead54739, 0x9dd277af, 0x04db2615, 0x73dc1683,
  0xe3630b12, 0x94643b84, 0x0d6d6a3e, 0x7a6a5aa8, 0xe40ecf0b, 0x9309ff9d, 0x0a00ae27, 0x7d079eb1,
  0xf00f9344, 0x8708a3d2, 0x1e01f268, 0x6906c2fe, 0xf762575d, 0x806567cb, 0x196c3671, 0x6e6b06e7,
  0xfed41b76, 0x89d32be0, 0x10da7a5a, 0x67dd4acc, 0xf9b9df6f, 0x8ebeeff9, 0x17b7be43, 0x60b08ed5,
  0xd6d6a3e8, 0xa1d1937e, 0x38d8c2c4, 0x4fdff252, 0xd1bb67f1, 0xa6bc5767, 0x3fb506dd, 0x48b2364b,
  0xd80d2bda, 0xaf0a1b4c, 0x36034af6, 0x41047a60, 0xdf60efc3, 0xa867df55, 0x316e8eef, 0x4669be79,
  0xcb61b38c, 0xbc66831a, 0x256fd2a0, 0x5268e236, 0xcc0c7795, 0xbb0b4703, 0x220216b9, 0x5505262f,
  0xc5ba3bbe, 0xb2bd0b28, 0x2bb45a92, 0x5cb36a04, 0xc2d7ffa7, 0xb5d0cf31, 0x2cd99e8b, 0x5bdeae1d,
  0x9b64c2b0, 0xec63f226, 0x756aa39c, 0x026d930a, 0x9c0906a9, 0xeb0e363f, 0x72076785, 0x05005713,
  0x95bf4a82, 0xe2b87a14, 0x7bb12bae, 0x0cb61b38, 0x92d28e9b, 0xe5d5be0d, 0x7cdcefb7, 0x0bdbdf21,
  0x86d3d2d4, 0xf1d4e242, 0x68ddb3f8, 0x1fda836e, 0x81be16cd, 0xf6b9265b, 0x6fb077e1, 0x18b74777,
  0x88085ae6, 0xff0f6a70, 0x66063bca, 0x11010b5c, 0x8f659eff, 0xf862ae69, 0x616bffd3, 0x166ccf45,
  0xa00ae278, 0xd70dd2ee, 0x4e048354, 0x3903b3c2, 0xa7672661, 0xd06016f7, 0x4969474d, 0x3e6e77db,
  0xaed16a4a, 0xd9d65adc, 0x40df0b66, 0x37d83bf0, 0xa9bcae53, 0xdebb9ec5, 0x47b2cf7f, 0x30b5ffe9,
  0xbdbdf21c, 0xcabac28a, 0x53b39330, 0x24b4a3a6, 0xbad03605, 0xcdd70693, 0x54de5729, 0x23d967bf,
  0xb3667a2e, 0xc4614ab8, 0x5d681b02, 0x2a6f2b94, 0xb40bbe37, 0xc30c8ea1, 0x5a05df1b, 0x2d02ef8d]

def crc32 (s : List Char) : UInt32 :=
  s.foldl (fun crc32val c =>
    crc32Tab.getD ((crc32val ^^^ c.toNat.toUInt32) &&& 0xff).toNat 0 ^^^ (crc32val >>> 8)) 0

def hashmapHashInt (tableSize : ℕ) (keystring : List Char) : ℕ :=
  let key := crc32 keystring
  let key := key + (key <<< 12)
  let key := key ^^^ (key >>> 22)
  let key := key + (key <<< 4)
  let key := key ^^^ (key >>> 9)
  let key := key + (key <<< 10)
  let key := key ^^^ (key >>> 2)
  let key := key + (key <<< 7)
  let key := key ^^^ (key >>> 12)
  let key := (key >>> 3) * 2654435761
  key.toNat % tableSize

def probeSequence (tableSize : ℕ) : ℕ → ℕ → List ℕ
  | 0, _ => []
  | n + 1, curr => curr :: probeSequence tableSize n ((curr + 1) % tableSize)

def probes (tableSize : ℕ) (key : List Char) : List ℕ :=
  probeSequence tableSize maxChainLength (hashmapHashInt tableSize key)

/-- The slot for the key; `none` stands for `MAP_FULL`. -/
def hashmapHash (m : HashmapMap V) (key : List Char) : Option ℕ :=
  if m.size ≥ (m.tableSize / 2 : ℕ) then none else place m.data (probes m.tableSize key) key

/-- Put every used slot into an empty table of twice the size. -/
def rehashInto (put : HashmapMap V → List Char → V → Option (HashmapMap V))
    (m : HashmapMap V) : Option (HashmapMap V) :=
  (range m.tableSize).foldlM
    (fun m' i =>
      match m.data i with
      | none => some m'
      | some e => put m' e.key e.data)
    ⟨2 * m.tableSize, 0, fun _ => none⟩

/-- The fuel bounds the depth of puts and rehashes; `none` is a put that has not returned
within it. -/
def hashmapPut : ℕ → HashmapMap V → List Char → V → Option (HashmapMap V)
  | 0, _, _, _ => none
  | fuel + 1, m, key, value =>
    match hashmapHash m key with
    | some index =>
      some { m with
        data := Function.update m.data index (some ⟨key, value⟩)
        size := m.size + 1 }
    | none => (rehashInto (hashmapPut fuel) m).bind fun m' => hashmapPut fuel m' key value

/-- `none` stands for `MAP_MISSING`. -/
def hashmapGet (m : HashmapMap V) (key : List Char) : Option V :=
  fetch m.data (probes m.tableSize key) key

def hashmapRemove (m : HashmapMap V) (key : List Char) : Option (HashmapMap V) :=
  (locate m.data (probes m.tableSize key) key).map fun curr =>
    { m with data := Function.update m.data curr none, size := m.size - 1 }

/-! The template over it. -/

def hexDigits : List Char :=
  ['0', '1', '2', '3', '4', '5', '6', '7', '8', '9', 'a', 'b', 'c', 'd', 'e', 'f']

/-- The format `%08x`. -/
def generateKey (key : UInt32) : List Char :=
  [7, 6, 5, 4, 3, 2, 1, 0].map fun i => hexDigits.getD (key.toNat / 16 ^ i % 16) '0'

def put (fuel : ℕ) (m : HashmapMap V) (key : UInt32) (value : V) : Option (HashmapMap V) :=
  hashmapPut fuel m (generateKey key) value

def get (m : HashmapMap V) (key : UInt32) : Option V := hashmapGet m (generateKey key)

/-- The table after the call and the result of the call. -/
def remove (m : HashmapMap V) (key : UInt32) : HashmapMap V × Bool :=
  match hashmapGet m (generateKey key) with
  | none => (m, false)
  | some _ =>
    match hashmapRemove m (generateKey key) with
    | none => (m, false)
    | some m' => (m', true)

lemma hexDigits_inj {d e : ℕ} (hd : d < 16) (he : e < 16)
    (h : hexDigits.getD d '0' = hexDigits.getD e '0') : d = e := by
  have hall : ∀ a : Fin 16, ∀ b : Fin 16,
      hexDigits.getD a '0' = hexDigits.getD b '0' → a = b := by decide
  exact congrArg Fin.val (hall ⟨d, hd⟩ ⟨e, he⟩ h)

lemma eq_of_digits {n a b : ℕ} (ha : a < 16 ^ n) (hb : b < 16 ^ n)
    (h : ∀ i < n, a / 16 ^ i % 16 = b / 16 ^ i % 16) : a = b := by
  induction n generalizing a b with
  | zero => omega
  | succ n ih =>
    have hlow : a % 16 = b % 16 := by simpa using h 0 (by omega)
    have hhigh : a / 16 = b / 16 := by
      apply ih
      · omega
      · omega
      · intro i hi
        rw [Nat.div_div_eq_div_mul, Nat.div_div_eq_div_mul, ← pow_succ']
        exact h (i + 1) (by omega)
    omega

lemma generateKey_injective : Function.Injective generateKey := by
  intro a b h
  apply UInt32.toNat_inj.1
  apply eq_of_digits (n := 8) a.toNat_lt b.toNat_lt
  intro i hi
  apply hexDigits_inj (mod_lt _ (by norm_num)) (mod_lt _ (by norm_num))
  apply map_inj_left.1 h i
  simp only [mem_cons]
  omega

/-! Probing and rehashing. -/

lemma probeSequence_lt {tableSize n curr i : ℕ} (hpos : 0 < tableSize) (hcurr : curr < tableSize)
    (hi : i ∈ probeSequence tableSize n curr) : i < tableSize := by
  induction n generalizing curr with
  | zero => simp [probeSequence] at hi
  | succ n ih =>
    rcases mem_cons.1 hi with rfl | hi
    · exact hcurr
    · exact ih (mod_lt _ hpos) hi

variable {key : List Char} {m m' : HashmapMap V} {index fuel : ℕ} {value : V}

lemma probes_lt {tableSize i : ℕ} (hpos : 0 < tableSize) (hi : i ∈ probes tableSize key) :
    i < tableSize :=
  probeSequence_lt hpos (mod_lt _ hpos) hi

/-- Every key is found on its probe sequence. -/
structure Sound (m : HashmapMap V) : Prop where
  pos : 0 < m.tableSize
  valid : Valid (probes m.tableSize) m.data

structure Tight (m : HashmapMap V) : Prop where
  pos : 0 < m.tableSize
  packed : Packed (probes m.tableSize) m.data

lemma Tight.sound (h : Tight m) : Sound m := ⟨h.pos, h.packed.valid⟩

def Written (m m' : HashmapMap V) (key : List Char) (value : V) : Prop :=
  ∀ k v, Holds m'.data k v ↔ if k = key then v = value else Holds m.data k v

lemma place_of_hashmapHash (h : hashmapHash m key = some index) :
    place m.data (probes m.tableSize key) key = some index := by
  unfold hashmapHash at h
  split_ifs at h
  exact h

def KeepsTight (put : HashmapMap V → List Char → V → Option (HashmapMap V)) : Prop :=
  ∀ m m' key value, Tight m → put m key value = some m' → Tight m' ∧ Written m m' key value

/-- After `n` slots the new table holds what they held. -/
lemma rehash_loop {put : HashmapMap V → List Char → V → Option (HashmapMap V)}
    (hput : KeepsTight put) (hm : Sound m) (n : ℕ) (h : (range n).foldlM (fun m' i =>
        match m.data i with
        | none => some m'
        | some e => put m' e.key e.data)
      ⟨2 * m.tableSize, 0, fun _ => none⟩ = some m') :
    Tight m' ∧ ∀ k v, Holds m'.data k v ↔ ∃ i < n, m.data i = some ⟨k, v⟩ := by
  induction n generalizing m' with
  | zero =>
    obtain rfl : ⟨2 * m.tableSize, 0, fun _ => none⟩ = m' := by simpa using h
    have hpos := hm.pos
    refine ⟨⟨by simpa using hpos, fun i e he => by cases he⟩, fun k v => ?_⟩
    simp [Holds]
  | succ n ih =>
    rw [range_succ, foldlM_append] at h
    obtain ⟨m1, h1, h⟩ := bind_eq_some_iff.1 h
    obtain ⟨htight, hholds⟩ := ih h1
    have hsucc : ∀ k v, (∃ i < n + 1, m.data i = some ⟨k, v⟩) ↔
        (∃ i < n, m.data i = some ⟨k, v⟩) ∨ m.data n = some ⟨k, v⟩ := by
      intro k v
      constructor
      · rintro ⟨i, hi, he⟩
        rcases Nat.lt_succ_iff_lt_or_eq.1 hi with hi | rfl
        · exact .inl ⟨i, hi, he⟩
        · exact .inr he
      · rintro (⟨i, hi, he⟩ | he)
        · exact ⟨i, by omega, he⟩
        · exact ⟨n, by omega, he⟩
    cases hd : m.data n with
    | none =>
      obtain rfl : m1 = m' := by simpa [hd] using h
      refine ⟨htight, fun k v => ?_⟩
      rw [hholds, hsucc, hd]
      simp
    | some e =>
      have hstep : put m1 e.key e.data = some m' := by simpa [hd] using h
      obtain ⟨htight', hwritten⟩ := hput m1 m' e.key e.data htight hstep
      refine ⟨htight', fun k v => ?_⟩
      rw [hwritten, hsucc, hd]
      split_ifs with hk
      · subst hk
        -- no earlier slot holds the key that slot `n` holds
        have hnone : ¬ ∃ i < n, m.data i = some ⟨e.key, v⟩ := by
          rintro ⟨i, hi, he⟩
          have := hm.valid.unique i n _ _ he hd rfl
          omega
        constructor
        · rintro rfl
          exact .inr rfl
        · rintro (hold | he)
          · exact absurd hold hnone
          · exact (congrArg Entry.data (some.inj he)).symm
      · rw [hholds]
        constructor
        · exact Or.inl
        · rintro (hold | he)
          · exact hold
          · exact absurd (congrArg Entry.key (some.inj he)).symm hk

lemma rehashInto_spec {put : HashmapMap V → List Char → V → Option (HashmapMap V)}
    (hput : KeepsTight put) (hm : Sound m) (h : rehashInto put m = some m') :
    Tight m' ∧ ∀ k v, Holds m'.data k v ↔ Holds m.data k v := by
  obtain ⟨htight, hholds⟩ := rehash_loop hput hm m.tableSize h
  refine ⟨htight, fun k v => (hholds k v).trans ?_⟩
  constructor
  · rintro ⟨i, -, he⟩
    exact ⟨i, he⟩
  · rintro ⟨i, he⟩
    exact ⟨i, probes_lt hm.pos (hm.valid.placed i _ he), he⟩

lemma written_of_place {size : ℤ} (h : place m.data (probes m.tableSize key) key = some index)
    (hkey : ∀ j e, m.data j = some e → e.key = key → j = index) :
    Written m ⟨m.tableSize, size, update m.data index (some ⟨key, value⟩)⟩ key value :=
  holds_update (free_or_key_of_place h) hkey

lemma hashmapPut_keepsTight (fuel : ℕ) : KeepsTight (hashmapPut (V := V) fuel) := by
  induction fuel with
  | zero =>
    intro m m' key value _ h
    cases h
  | succ fuel ih =>
    intro m m' key value hm h
    unfold hashmapPut at h
    cases hindex : hashmapHash m key with
    | some index =>
      have hplace := place_of_hashmapHash hindex
      rw [hindex] at h
      cases h
      exact ⟨⟨hm.pos, hm.packed.update hplace⟩,
        written_of_place hplace (hm.packed.only_slot hplace)⟩
    | none =>
      rw [hindex] at h
      obtain ⟨m1, hrehash, hput⟩ := bind_eq_some_iff.1 h
      obtain ⟨htight, hsame⟩ := rehashInto_spec ih hm.sound hrehash
      obtain ⟨htight', hwritten⟩ := ih m1 m' key value htight hput
      refine ⟨htight', fun k v => ?_⟩
      rw [hwritten, hsame]

lemma hashmapPut_one (m : HashmapMap V) (key : List Char) (value : V) :
    hashmapPut 1 m key value = (hashmapHash m key).map fun index =>
      { m with
        data := update m.data index (some ⟨key, value⟩)
        size := m.size + 1 } := by
  rw [hashmapPut]
  cases hashmapHash m key with
  | none => exact bind_fun_none _
  | some index => rfl

lemma hashmapGet_update {size : ℤ} (h : hashmapHash m key = some index) :
    hashmapGet ⟨m.tableSize, size, update m.data index (some ⟨key, value⟩)⟩ key = some value := by
  rw [hashmapGet, fetch, locate_update_place (place_of_hashmapHash h)]
  simp

def moveSlot (put : HashmapMap V → List Char → V → Option (HashmapMap V)) (old t : HashmapMap V)
    (i : ℕ) : Option (HashmapMap V) :=
  match old.data i with
  | none => some t
  | some e => put t e.key e.data

lemma rehashInto_eq (put : HashmapMap V → List Char → V → Option (HashmapMap V))
    (m : HashmapMap V) : rehashInto put m = (range m.tableSize).foldlM (moveSlot put m)
      ⟨2 * m.tableSize, 0, fun _ => none⟩ := rfl

/-! Runs of the map. -/

inductive Op (V : Type)
  | put (key : UInt32) (value : V)
  | get (key : UInt32)
  | remove (key : UInt32)

def step (fuel : ℕ) (m : HashmapMap V) : Op V → Option (HashmapMap V)
  | .put key value => put fuel m key value
  | .get _ => some m
  | .remove key => some (remove m key).1

def record (f : UInt32 → Option V) : Op V → UInt32 → Option V
  | .put key value => Function.update f key (some value)
  | .get _ => f
  | .remove key => Function.update f key none

/-- The latest put of each key that no remove has followed. -/
def latest (ops : List (Op V)) : UInt32 → Option V := ops.foldl record fun _ => none

/-- The table is not half full, and in the window a free slot comes before the first with
the key. -/
def HoleBefore (m : HashmapMap V) (key : List Char) : Prop :=
  m.size < (m.tableSize / 2 : ℕ) ∧
    ∃ front hole back, probes m.tableSize key = front ++ hole :: back ∧ m.data hole = none ∧
      (∀ i ∈ front, ∀ value, m.data i ≠ some ⟨key, value⟩) ∧
      ∃ j ∈ back, ∃ value, m.data j = some ⟨key, value⟩

def NoHole (m : HashmapMap V) : Op V → Prop
  | .put key _ => ¬ HoleBefore m (generateKey key)
  | _ => True

lemma only_slot_of_not_holeBefore (hm : Sound m) (hindex : hashmapHash m key = some index)
    (hhole : ¬ HoleBefore m key) : ∀ j e, m.data j = some e → e.key = key → j = index := by
  rintro j ⟨k, value⟩ hj rfl
  have hplace := place_of_hashmapHash hindex
  rcases free_or_key_of_place hplace with hfree | ⟨w, hw⟩
  · obtain ⟨-, front, back, hsplit, hfront⟩ := find?_eq_some_iff_append.1 hplace
    have hmem := hm.valid.placed j _ hj
    rw [hsplit, mem_append, mem_cons] at hmem
    rcases hmem with hmem | rfl | hmem
    · simpa [hj] using hfront j hmem
    · rfl
    refine absurd ⟨?_, front, index, back, hsplit, hfree, ?_, j, hmem, value, hj⟩ hhole
    · unfold hashmapHash at hindex
      split_ifs at hindex with hfull
      omega
    · intro i hi w hw
      simpa [hw] using hfront i hi
  · exact hm.valid.unique j index _ _ hj hw rfl

lemma hashmapPut_spec (hm : Sound m) (hhole : ¬ HoleBefore m key)
    (h : hashmapPut fuel m key value = some m') : Sound m' ∧ Written m m' key value := by
  cases fuel with
  | zero => cases h
  | succ fuel =>
    unfold hashmapPut at h
    cases hindex : hashmapHash m key with
    | some index =>
      have hplace := place_of_hashmapHash hindex
      have hkey := only_slot_of_not_holeBefore hm hindex hhole
      rw [hindex] at h
      cases h
      exact ⟨⟨hm.pos, hm.valid.update (mem_of_place hplace) hkey⟩, written_of_place hplace hkey⟩
    | none =>
      rw [hindex] at h
      obtain ⟨m1, hrehash, hput⟩ := bind_eq_some_iff.1 h
      obtain ⟨htight, hsame⟩ := rehashInto_spec (hashmapPut_keepsTight fuel) hm hrehash
      obtain ⟨htight', hwritten⟩ := hashmapPut_keepsTight fuel m1 m' key value htight hput
      refine ⟨htight'.sound, fun k v => ?_⟩
      rw [hwritten, hsame]

lemma get_eq_some_iff (hm : Sound m) {key : UInt32} :
    get m key = some value ↔ Holds m.data (generateKey key) value :=
  fetch_eq_some_iff hm.valid

lemma get_put {key : UInt32} (hm : Sound m) (hhole : ¬ HoleBefore m (generateKey key))
    (h : put fuel m key value = some m') :
    Sound m' ∧ get m' = update (get m) key (some value) := by
  obtain ⟨hm', hwritten⟩ := hashmapPut_spec hm hhole h
  refine ⟨hm', funext fun k => ext fun v => ?_⟩
  rw [get_eq_some_iff hm', hwritten]
  by_cases hk : k = key
  · subst hk
    simp [eq_comm]
  · rw [if_neg (generateKey_injective.ne hk), update_of_ne hk]
    exact (get_eq_some_iff hm).symm

lemma remove_of_locate {key : UInt32} {curr : ℕ}
    (h : locate m.data (probes m.tableSize (generateKey key)) (generateKey key) = some curr) :
    (remove m key).1 = ⟨m.tableSize, m.size - 1, update m.data curr none⟩ := by
  obtain ⟨value, hvalue⟩ := key_of_locate h
  have hget : hashmapGet m (generateKey key) = some value := by
    rw [hashmapGet, fetch, h, bind_some, hvalue, map_some]
  rw [remove, hget, hashmapRemove, h, map_some]

lemma get_remove (hm : Sound m) (key : UInt32) :
    Sound (remove m key).1 ∧ get (remove m key).1 = update (get m) key none := by
  cases hget : hashmapGet m (generateKey key) with
  | none =>
    have hsame : (remove m key).1 = m := by rw [remove, hget]
    rw [hsame]
    exact ⟨hm, (update_eq_self_iff.2 hget.symm).symm⟩
  | some w =>
    obtain ⟨curr, hcurr, -⟩ := bind_eq_some_iff.1 hget
    obtain ⟨value, hvalue⟩ := key_of_locate hcurr
    have hm' : Sound (⟨m.tableSize, m.size - 1, update m.data curr none⟩ :
        HashmapMap V) := ⟨hm.pos, hm.valid.erase⟩
    rw [remove_of_locate hcurr]
    refine ⟨hm', funext fun k => ext fun v => ?_⟩
    rw [get_eq_some_iff hm', holds_erase hm.valid hvalue, ne_eq, generateKey_injective.eq_iff]
    by_cases hk : k = key
    · subst hk
      simp
    · simp only [hk, not_false_eq_true, true_and, update_of_ne hk]
      exact (get_eq_some_iff hm).symm

lemma get_step {op : Op V} (hm : Sound m) (hop : NoHole m op) (h : step fuel m op = some m') :
    Sound m' ∧ get m' = record (get m) op := by
  cases op with
  | put key value => exact get_put hm hop h
  | get key =>
    cases h
    exact ⟨hm, rfl⟩
  | remove key =>
    cases h
    exact get_remove hm key

lemma hashmapNew_sound : Sound (hashmapNew (V := V)) := by
  constructor
  · show 0 < initialSize
    decide
  constructor
  · intro i e he
    cases he
  · intro i j e f he
    cases he

lemma get_exec {ops : List (Op V)} (hm : Sound m) (hops : Meets (step fuel) NoHole m ops)
    (h : exec (step fuel) m ops = some m') : get m' = ops.foldl record (get m) := by
  induction ops generalizing m with
  | nil =>
    cases h
    rfl
  | cons op ops ih =>
    obtain ⟨m1, h1, h⟩ := exec_cons_some.1 h
    obtain ⟨hop, hrest⟩ := meets_cons.1 hops
    obtain ⟨hm1, hget⟩ := get_step hm hop h1
    rw [ih hm1 (hrest m1 h1) h, hget, foldl_cons]

/-- In every run whose puts all return and meet no hole before their own key, a
get returns the value of the latest put that no remove has followed. -/
theorem get_eq_latest (fuel : ℕ) (ops : List (Op V)) (m : HashmapMap V)
    (hrun : exec (step fuel) hashmapNew ops = some m)
    (hops : Meets (step fuel) NoHole hashmapNew ops) (key : UInt32) :
    get m key = latest ops key :=
  congrFun (get_exec hashmapNew_sound hops hrun) key

lemma not_holeBefore_of_get (hm : Sound m) {key : UInt32} (h : get m key = none) :
    ¬ HoleBefore m (generateKey key) := by
  rintro ⟨-, front, hole, back, -, -, -, j, -, value, hj⟩
  rw [(get_eq_some_iff hm).2 ⟨j, hj⟩] at h
  cases h

theorem get_eq_latest_after_remove :
    let ops : List (Op ℕ) := [.put 16 0, .put 32 1, .remove 16]
    ∃ m, exec (step 1) hashmapNew ops = some m ∧ get m 32 = latest ops 32 := by
  intro ops
  have hrun : (exec (step 1) hashmapNew ops).isSome := by decide +kernel
  obtain ⟨m, hm⟩ := isSome_iff_exists.1 hrun
  have hnew : ¬ HoleBefore (hashmapNew (V := ℕ)) (generateKey 16) :=
    not_holeBefore_of_get hashmapNew_sound (by decide +kernel)
  have hfirst : ∀ m, step 1 (hashmapNew) (.put 16 0) = some m →
      ¬ HoleBefore m (generateKey 32) := by
    intro m hm
    obtain ⟨hsound, hget⟩ := get_put hashmapNew_sound hnew hm
    apply not_holeBefore_of_get hsound
    rw [hget]
    decide +kernel
  refine ⟨m, hm, get_eq_latest 1 ops m hm ?_ 32⟩
  refine meets_cons.2 ⟨hnew, fun m hm => meets_cons.2 ⟨hfirst m hm, fun m' _ => ?_⟩⟩
  exact meets_cons.2 ⟨trivial, fun _ _ => meets_nil _ _ _⟩

lemma hashmapHash_of_holeBefore (h : HoleBefore m key) :
    ∃ index, hashmapHash m key = some index ∧ m.data index = none := by
  obtain ⟨hsize, front, hole, back, hsplit, hfree, hfront, -⟩ := h
  have hhash : hashmapHash m key = place m.data (front ++ hole :: back) key := by
    rw [hashmapHash, if_neg (by omega), hsplit]
  rw [hhash, place, find?_append]
  cases hfind : front.find? fun i => (m.data i).all fun e => decide (e.key = key) with
  | none => exact ⟨hole, by simp [hfree], hfree⟩
  | some i =>
    refine ⟨i, rfl, ?_⟩
    rcases free_or_key_of_place hfind with hi | ⟨value, hi⟩
    · exact hi
    · exact absurd hi (hfront i (mem_of_find?_eq_some hfind) value)

/-- The guard is needed: a remove brings the older value back. -/
theorem get_remove_of_holeBefore {key : UInt32} (hm : Sound m)
    (hhole : HoleBefore m (generateKey key)) (h : put (fuel + 1) m key value = some m') :
    get (remove m' key).1 key = get m key ∧ get m key ≠ none := by
  obtain ⟨index, hindex, hfree⟩ := hashmapHash_of_holeBefore hhole
  obtain ⟨-, -, -, -, -, -, -, j, -, old, hold⟩ := hhole
  have hlocate : locate (update m.data index (some ⟨generateKey key, value⟩))
      (probes m.tableSize (generateKey key)) (generateKey key) = some index :=
    locate_update_place (place_of_hashmapHash hindex)
  have hback : update m.data index none = m.data :=
    update_eq_self_iff.2 hfree.symm
  rw [put, hashmapPut, hindex] at h
  cases h
  rw [remove_of_locate hlocate]
  constructor
  · simp [hback]
  · rw [(get_eq_some_iff hm).2 ⟨j, hold⟩]
    exact some_ne_none old

/-- Keys 16 and 32 start in the same slot of a new table. After the hole that the
remove of 16 leaves, 32 is stored twice, and its remove brings the first value
back. -/
theorem get_ne_latest :
    let ops : List (Op ℕ) :=
      [.put 16 0, .put 32 1, .remove 16, .put 32 2, .remove 32]
    (exec (step 1) hashmapNew ops).map (fun m => get m 32) = some (some 1) ∧
      latest ops 32 = none := by
  decide +kernel

end GzOS.HashMap
