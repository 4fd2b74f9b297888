import GzOS.BuddySafety

/-!
# Segments of any size

Initialisation computes the size of a block from the trailing zeros of its index and of
the page count, and fills the queues by a greedy loop. The queues always tile the
segment. They agree with the sizes for powers of two and for multiples of the largest
block only.
-/
namespace GzOS.PhysMem
open DyadicTiling Nat

/-! The queues. -/

/-- Page `q` lies in the block that queue `b.1` has at `b.2`. -/
def InBlock (seg : Seg) (b : ℕ × ℕ) (q : ℕ) : Prop := b.2 ∈ seg.freeq b.1 ∧ q ∈ block b.2 b.1

structure QueuesTile (seg : Seg) (c : ℕ) : Prop where
  covered : ∀ q < c, ∃! b, InBlock seg b q
  aligned : ∀ i p, p ∈ seg.freeq i → 2 ^ i ∣ p
  inside : ∀ i p, p ∈ seg.freeq i → p + 2 ^ i ≤ c
  nodup : ∀ i, (seg.freeq i).Nodup
  managed : ∀ q, (seg.pages q).managed = true ↔ ∃ i, q ∈ seg.freeq i
  unused : ∀ q, (seg.pages q).allocated = false ∧ (seg.pages q).reserved = false

variable {seg : Seg} {i c q j : ℕ}

lemma inBlock_insertHead {b : ℕ × ℕ} :
    InBlock ((seg.insertHead i c).setManaged c true) b q ↔
      (b = (i, c) ∧ q ∈ block c i) ∨ InBlock seg b q := by
  obtain ⟨j, p⟩ := b
  simp only [InBlock, setManaged_freeq, mem_insertHead, Prod.mk.injEq, or_and_right]
  constructor
  · rintro (⟨⟨rfl, rfl⟩, hq⟩ | h)
    · exact .inl ⟨⟨rfl, rfl⟩, hq⟩
    · exact .inr h
  · rintro (⟨⟨rfl, rfl⟩, hq⟩ | h)
    · exact .inl ⟨⟨rfl, rfl⟩, hq⟩
    · exact .inr h

lemma QueuesTile.insert (h : QueuesTile seg c) (hc : 2 ^ i ∣ c) :
    QueuesTile ((seg.insertHead i c).setManaged c true) (c + 2 ^ i) where
  covered q hq := by
    by_cases hlt : q < c
    · obtain ⟨b, hb, hunique⟩ := h.covered q hlt
      refine ⟨b, inBlock_insertHead.2 (.inr hb), fun b' hb' => ?_⟩
      rcases inBlock_insertHead.1 hb' with ⟨-, hin⟩ | hin
      · have := hin.1
        omega
      · exact hunique b' hin
    · refine ⟨(i, c), inBlock_insertHead.2 (.inl ⟨rfl, by omega, hq⟩), fun b' hb' => ?_⟩
      rcases inBlock_insertHead.1 hb' with ⟨he, -⟩ | hin
      · exact he
      -- the old blocks end before the new one
      have hend := h.inside b'.1 b'.2 hin.1
      have := hin.2.2
      omega
  aligned j p hp := by
    rw [setManaged_freeq, mem_insertHead] at hp
    rcases hp with ⟨rfl, rfl⟩ | hp
    · exact hc
    · exact h.aligned j p hp
  inside j p hp := by
    rw [setManaged_freeq, mem_insertHead] at hp
    rcases hp with ⟨rfl, rfl⟩ | hp
    · exact le_rfl
    · exact (h.inside j p hp).trans (Nat.le_add_right _ _)
  nodup j := by
    refine insertHead_nodup seg i c j (h.nodup j) fun hj hin => ?_
    have hend := h.inside j c hin
    have hpos := Nat.two_pow_pos j
    omega
  managed q := by
    simp only [setManaged_pages, insertHead_pages, setManaged_freeq, mem_insertHead]
    split_ifs with hq
    · exact iff_of_true rfl ⟨i, .inl ⟨rfl, hq⟩⟩
    · rw [h.managed]
      simp [hq]
  unused q := by
    simp only [setManaged_pages]
    split_ifs
    · exact h.unused q
    · exact h.unused q

lemma addBlocks_tile (count : ℕ) (h : QueuesTile seg c) (hc : 2 ^ i ∣ c) :
    (addBlocks i count seg c).2 = c + count * 2 ^ i ∧
      QueuesTile (addBlocks i count seg c).1 (c + count * 2 ^ i) := by
  induction count generalizing seg c with
  | zero => simpa [addBlocks] using h
  | succ count ih =>
    have hnext := ih (h.insert hc) (Nat.dvd_add hc dvd_rfl)
    have hsum : c + 2 ^ i + count * 2 ^ i = c + (count + 1) * 2 ^ i := by ring
    rwa [hsum] at hnext

lemma initQueues_tile (m : ℕ) {seg : Seg} {c n : ℕ} (h : QueuesTile seg c) (hc : 2 ^ m ∣ c)
    (hn : m = 0 → n = 0) : QueuesTile (initQueues m seg c n) (c + n) := by
  induction m generalizing seg c n with
  | zero =>
    rw [hn rfl]
    exact h
  | succ i ih =>
    have hc' : 2 ^ i ∣ c := (pow_dvd_pow 2 (le_succ i)).trans hc
    obtain ⟨hcurr, htile⟩ := addBlocks_tile (n / 2 ^ i) h hc'
    have hrest := ih htile (Nat.dvd_add hc' (Nat.dvd_mul_left _ _)) (n := n % 2 ^ i) fun hi => by
      subst hi
      exact mod_one n
    have hsum : c + n / 2 ^ i * 2 ^ i + n % 2 ^ i = c + n := by
      rw [add_assoc, div_add_mod']
    rw [hsum, ← hcurr] at hrest
    exact hrest

lemma addBlocks_size (i count : ℕ) (seg : Seg) (c : ℕ) :
    (addBlocks i count seg c).1.bounds = seg.bounds ∧
      ∀ q, (addBlocks i count seg c).1.size q = seg.size q := by
  induction count generalizing seg c with
  | zero => exact ⟨rfl, fun _ => rfl⟩
  | succ count ih =>
    obtain ⟨hbounds, hsize⟩ := ih ((seg.insertHead i c).setManaged c true) (c + 2 ^ i)
    refine ⟨hbounds.trans (by simp), fun q => (hsize q).trans ?_⟩
    by_cases hq : q = c <;> simp [Seg.size, hq]

lemma initQueues_size (m : ℕ) (seg : Seg) (c n : ℕ) :
    (initQueues m seg c n).bounds = seg.bounds ∧
      ∀ q, (initQueues m seg c n).size q = seg.size q := by
  induction m generalizing seg c n with
  | zero => exact ⟨rfl, fun _ => rfl⟩
  | succ i ih =>
    obtain ⟨hbounds, hsize⟩ := addBlocks_size i (n / 2 ^ i) seg c
    obtain ⟨hbounds', hsize'⟩ := ih (addBlocks i (n / 2 ^ i) seg c).1
      (addBlocks i (n / 2 ^ i) seg c).2 (n % 2 ^ i)
    exact ⟨hbounds'.trans hbounds, fun q => (hsize' q).trans (hsize q)⟩

lemma mem_addBlocks {count : ℕ} (h : q ∈ seg.freeq j) :
    q ∈ (addBlocks i count seg c).1.freeq j := by
  induction count generalizing seg c with
  | zero => exact h
  | succ count ih =>
    apply ih
    rw [setManaged_freeq, mem_insertHead]
    exact .inr h

lemma mem_initQueues {m n : ℕ} (h : q ∈ seg.freeq j) : q ∈ (initQueues m seg c n).freeq j := by
  induction m generalizing seg c n with
  | zero => exact h
  | succ i ih => exact ih (mem_addBlocks h)

lemma addBlocks_freeq_of_ne (hj : j ≠ i) (count : ℕ) (seg : Seg) (c : ℕ) :
    (addBlocks i count seg c).1.freeq j = seg.freeq j := by
  induction count generalizing seg c with
  | zero => rfl
  | succ count ih =>
    refine (ih _ _).trans ?_
    rw [setManaged_freeq, insertHead_freeq, if_neg hj]

lemma initQueues_freeq_of_le {m : ℕ} (hj : m ≤ j) (seg : Seg) (c n : ℕ) :
    (initQueues m seg c n).freeq j = seg.freeq j := by
  induction m generalizing seg c n with
  | zero => rfl
  | succ i ih => exact (ih (by omega) _ _ _).trans (addBlocks_freeq_of_ne (by omega) _ _ _)

lemma initQueues_head (m : ℕ) (seg : Seg) (c : ℕ) {n : ℕ} (hn : 0 < n) (hm : 0 < m) :
    ∃ i < m, c ∈ (initQueues m seg c n).freeq i ∧ 2 ^ i ≤ n ∧ (i + 1 = m ∨ n < 2 ^ (i + 1)) := by
  induction m with
  | zero => omega
  | succ i ih =>
    have hpos := Nat.two_pow_pos i
    by_cases hle : 2 ^ i ≤ n
    · obtain ⟨count, hcount⟩ := exists_eq_succ_of_ne_zero (div_pos hle hpos).ne'
      refine ⟨i, lt_succ_self i, ?_, hle, .inl rfl⟩
      rw [initQueues, hcount, addBlocks]
      exact mem_initQueues (mem_addBlocks (by simp))
    · have hlt : n < 2 ^ i := Nat.lt_of_not_le hle
      have hi : 0 < i := by
        rcases Nat.eq_zero_or_pos i with rfl | hi
        · omega
        · exact hi
      obtain ⟨j, hj, hmem, hle', hmax⟩ := ih hi
      have hsame : initQueues (i + 1) seg c n = initQueues i seg c n := by
        rw [initQueues, div_eq_of_lt hlt, mod_eq_of_lt hlt]
        rfl
      refine ⟨j, hj.trans (lt_succ_self i), hsame ▸ hmem, hle', .inr ?_⟩
      rcases hmax with rfl | hmax
      · exact hlt
      · exact hmax

/-! The sizes. -/

lemma blankSeg_size {start stop : ℕ} (hpos : 0 < (stop - start) / pageSize)
    (hq : q < (stop - start) / pageSize) : (blankSeg start stop).size q =
      2 ^ min (min 15 (ctz ((stop - start) / pageSize))) (ctz q) := by
  have hmax : min pmNqueues (ffs ((stop - start) / pageSize)) - 1 =
      min 15 (ctz ((stop - start) / pageSize)) := by
    rw [ffs, if_neg hpos.ne', pmNqueues]
    omega
  simp only [Seg.size, blankSeg, if_pos hq, hmax]

/-- Every page is in one queued block, and every block on the queue of its size, inside the
segment, at a multiple of its size. -/
structure WellQueued (seg : Seg) : Prop where
  covered : ∀ q < seg.npages,
    ∃! b : ℕ × ℕ, b.2 ∈ seg.freeq b.1 ∧ b.2 ≤ q ∧ q < b.2 + seg.size b.2
  block : ∀ i p, p ∈ seg.freeq i → seg.size p = 2 ^ i ∧ p + 2 ^ i ≤ seg.npages ∧ 2 ^ i ∣ p

lemma QueuesTile.wellQueued (h : QueuesTile seg seg.npages)
    (hsize : ∀ i p, p ∈ seg.freeq i → seg.size p = 2 ^ i) : WellQueued seg where
  covered q hq := by
    obtain ⟨b, hb, hunique⟩ := h.covered q hq
    refine ⟨b, ⟨hb.1, ?_⟩, ?_⟩
    · rw [hsize b.1 b.2 hb.1]
      exact hb.2
    · rintro b' ⟨hmem, hin⟩
      rw [hsize b'.1 b'.2 hmem] at hin
      exact hunique b' ⟨hmem, hin⟩
  block i p hp := ⟨hsize i p hp, h.inside i p hp, h.aligned i p hp⟩

lemma initQueues_size_eq {start stop : ℕ} (hpos : 0 < (stop - start) / pageSize)
    (hn : powerof2 ((stop - start) / pageSize) ∨ 2 ^ 15 ∣ (stop - start) / pageSize) {p : ℕ}
    (hp : p ∈ (initQueues pmNqueues (blankSeg start stop) 0 ((stop - start) / pageSize)).freeq i)
    (hlt : p < (stop - start) / pageSize) (hal : 2 ^ i ∣ p) :
    (blankSeg start stop).size p = 2 ^ i := by
  rw [blankSeg_size hpos hlt]
  by_cases hbig : 2 ^ 15 ∣ (stop - start) / pageSize
  · -- only the last queue gets blocks
    have hqueues : initQueues pmNqueues (blankSeg start stop) 0 ((stop - start) / pageSize) =
        (addBlocks 15 ((stop - start) / pageSize / 2 ^ 15) (blankSeg start stop) 0).1 := by
      rw [pmNqueues, initQueues, mod_eq_zero_of_dvd hbig, initQueues_zero]
    have hi : i = 15 := by
      by_contra hne
      rw [hqueues, addBlocks_freeq_of_ne hne] at hp
      cases hp
    subst hi
    have hn15 := (le_ctz_iff (by decide)).2 hbig
    have hp15 : 15 ≤ ctz p := (le_ctz_iff (by decide)).2 hal
    rw [min_eq_left hn15, min_eq_left hp15]
  · obtain ⟨k, hk⟩ := (and_sub_one_eq_zero_iff_isPowerOfTwo hpos.ne').1
      (hn.resolve_right hbig)
    have hk15 : k < 15 := by
      by_contra hle
      exact hbig (hk ▸ pow_dvd_pow 2 (Nat.le_of_not_lt hle))
    have hk16 : k < pmNqueues := lt_trans hk15 (by decide)
    have hctz : ctz (2 ^ k) = k := log2_two_pow (by omega)
    have hzero : ctz 0 = 32 := by decide
    rw [hk, initQueues_two_pow hk16, setManaged_freeq, mem_insertHead] at hp
    rcases hp with ⟨rfl, rfl⟩ | hp
    · rw [hk, hctz, min_eq_right hk15.le, min_eq_left (by omega)]
    · cases hp

lemma powerof2_or_dvd_of_size {start stop : ℕ} (hpos : 0 < (stop - start) / pageSize)
    (hsize : ∀ i p,
      p ∈ (initQueues pmNqueues (blankSeg start stop) 0 ((stop - start) / pageSize)).freeq i →
        (blankSeg start stop).size p = 2 ^ i) :
    powerof2 ((stop - start) / pageSize) ∨ 2 ^ 15 ∣ (stop - start) / pageSize := by
  obtain ⟨i, -, hmem, hle, hmax⟩ :=
    initQueues_head pmNqueues (blankSeg start stop) 0 hpos (by decide)
  have hzero : ctz 0 = 32 := by decide
  have hfirst := hsize i 0 hmem
  rw [blankSeg_size hpos hpos] at hfirst
  have hi : i = min 15 (ctz ((stop - start) / pageSize)) := by
    have := Nat.pow_right_injective le_rfl hfirst
    omega
  have hdvd : 2 ^ i ∣ (stop - start) / pageSize := (le_ctz_iff (by omega)).1 (by omega)
  rcases hmax with hlast | hlt
  · obtain rfl : i = 15 := by
      rw [pmNqueues] at hlast
      omega
    exact .inr hdvd
  · left
    have heq : (stop - start) / pageSize = 2 ^ i := by
      obtain ⟨c, hc⟩ := hdvd
      rw [hc] at hlt
      have hc2 : c < 2 := Nat.lt_of_mul_lt_mul_left hlt
      have hc0 : c ≠ 0 := by
        rintro rfl
        omega
      obtain rfl : c = 1 := by omega
      rw [hc, mul_one]
    rw [heq]
    exact powerof2_two_pow i

/-! The initialised segment. -/

def initSeg (start stop : ℕ) : Seg :=
  initQueues pmNqueues (blankSeg start stop) 0 ((stop - start) / pageSize)

section InitSeg

variable {start stop : ℕ}

lemma pmSegInit_eq_initSeg (hlt : start < stop) (hstart : pageSize ∣ start)
    (hstop : pageSize ∣ stop) : pmSegInit start stop = some (initSeg start stop) := by
  simp only [pmSegInit, hlt, hstart, hstop]
  rfl

lemma initSeg_bounds (start stop : ℕ) :
    (initSeg start stop).bounds = ((stop - start) / pageSize, start, stop) :=
  (initQueues_size pmNqueues (blankSeg start stop) 0 _).1

lemma npages_pos (hlt : start < stop) (hstart : pageSize ∣ start) (hstop : pageSize ∣ stop) :
    0 < (stop - start) / pageSize := by
  have hle : pageSize ≤ stop - start :=
    Nat.le_of_dvd (Nat.sub_pos_of_lt hlt) (Nat.dvd_sub hstop hstart)
  exact div_pos hle (by decide)

lemma initSeg_tile (start stop : ℕ) :
    QueuesTile (initSeg start stop) ((stop - start) / pageSize) := by
  have hnil : ∀ i p, p ∉ (blankSeg start stop).freeq i := fun i p => List.not_mem_nil
  have hflags : ∀ q, ((blankSeg start stop).pages q).managed = false ∧
      ((blankSeg start stop).pages q).allocated = false ∧
      ((blankSeg start stop).pages q).reserved = false := by
    intro q
    simp only [blankSeg]
    split_ifs
    · exact ⟨rfl, rfl, rfl⟩
    · exact ⟨rfl, rfl, rfl⟩
  have hblank : QueuesTile (blankSeg start stop) 0 :=
    { covered := fun q hq => absurd hq (not_lt_zero q)
      aligned := fun i p hp => absurd hp (hnil i p)
      inside := fun i p hp => absurd hp (hnil i p)
      nodup := fun _ => List.nodup_nil
      managed := fun q => by simp [(hflags q).1, hnil]
      unused := fun q => (hflags q).2 }
  have hall := initQueues_tile pmNqueues hblank (dvd_zero _) (n := (stop - start) / pageSize)
    fun h => absurd h (by decide)
  rw [zero_add] at hall
  exact hall

lemma initSeg_size_eq (hpos : 0 < (stop - start) / pageSize)
    (hn : powerof2 ((stop - start) / pageSize) ∨ 2 ^ 15 ∣ (stop - start) / pageSize) {p : ℕ}
    (hp : p ∈ (initSeg start stop).freeq i) : (initSeg start stop).size p = 2 ^ i := by
  have htile := initSeg_tile start stop
  have hin := htile.inside i p hp
  have hp0 := Nat.two_pow_pos i
  refine ((initQueues_size pmNqueues (blankSeg start stop) 0 _).2 p).trans ?_
  exact initQueues_size_eq hpos hn hp (by omega) (htile.aligned i p hp)

end InitSeg

/-- Sizes and queues agree exactly if the page count is a power of two or a
multiple of the largest block. -/
theorem pmSegInit_wellQueued_iff (start stop : ℕ) (hlt : start < stop) (hstart : pageSize ∣ start)
    (hstop : pageSize ∣ stop) : ∃ seg, pmSegInit start stop = some seg ∧
      (WellQueued seg ↔
        powerof2 ((stop - start) / pageSize) ∨ 2 ^ 15 ∣ (stop - start) / pageSize) := by
  have hpos := npages_pos hlt hstart hstop
  have hnpages : (initSeg start stop).npages = (stop - start) / pageSize :=
    congrArg Prod.fst (initSeg_bounds start stop)
  refine ⟨initSeg start stop, pmSegInit_eq_initSeg hlt hstart hstop, fun h => ?_, fun hn => ?_⟩
  · refine powerof2_or_dvd_of_size hpos fun i p hp => ?_
    rw [← (initQueues_size pmNqueues (blankSeg start stop) 0 _).2 p]
    exact (h.block i p hp).1
  · refine QueuesTile.wellQueued ?_ fun i p hp => initSeg_size_eq hpos hn hp
    rw [hnpages]
    exact initSeg_tile start stop

theorem pmSegInit_three_largest :
    ∃ seg, pmSegInit 0 (3 * 2 ^ 15 * pageSize) = some seg ∧ WellQueued seg := by
  obtain ⟨seg, hinit, hiff⟩ := pmSegInit_wellQueued_iff 0 (3 * 2 ^ 15 * pageSize) (by decide)
    (dvd_zero _) (dvd_mul_left _ _)
  exact ⟨seg, hinit, hiff.2 (.inr (by decide))⟩

/-- Three pages are queued as a block of two and one of one, and the first block
says that it has one page. -/
theorem pmSegInit_three_pages :
    ¬ ∃ seg, pmSegInit 0 (3 * pageSize) = some seg ∧ WellQueued seg := by
  rintro ⟨seg, hinit, hwell⟩
  have hvalues : (pmSegInit 0 (3 * pageSize)).map (fun seg => (seg.freeq 1, seg.size 0)) =
      some ([0], 1) := by decide
  rw [hinit, Option.map_some, Option.some.injEq, Prod.mk.injEq] at hvalues
  obtain ⟨hqueue, hsize⟩ := hvalues
  have hblock := (hwell.block 1 0 (by simp [hqueue])).1
  rw [hsize] at hblock
  cases hblock

end GzOS.PhysMem
