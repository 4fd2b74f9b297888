import GzOS.DyadicTiling
import GzOS.PhysMem
import Mathlib.Tactic.Linarith

/-!
# Page descriptors and tilings

The descriptors and queues of a segment represent a tiling of its pages. What a
descriptor has to say follows from the tile that owns its page alone, so an operation
has to be looked at only on the pages of the tiles it changes.
-/
namespace GzOS.PhysMem
open DyadicTiling Seg List Option Nat

/-- Free, live, or held by a free operation that is still merging. -/
inductive Kind
  | free
  | live
  | held
  deriving DecidableEq

/-- What the descriptor of page `q` and the queues say when `o` owns it: `queued k` is
membership in queue `k`, `live` the size of the live block at `q`. -/
structure PageRep (page : Page) (queued : ℕ → Prop) (live : Option ℕ) (q : ℕ)
    (o : Option (Tile Kind)) : Prop where
  queued_iff : ∀ k, queued k ↔ o = some ⟨.free, q, k⟩
  live_iff : ∀ m, live = some m ↔ ∃ k, m = 2 ^ k ∧ o = some ⟨.live, q, k⟩
  size_eq : ∀ kind k, o = some ⟨kind, q, k⟩ → page.size = 2 ^ k
  managed_iff : page.managed = true ↔ ∃ k, o = some ⟨.free, q, k⟩
  not_allocated : ∀ p k, o = some ⟨.free, p, k⟩ → page.allocated = false
  allocated : ∀ p k, o = some ⟨.live, p, k⟩ → page.allocated = true
  reserved_iff : page.reserved = true ↔ o = none

section PageRep

variable {page : Page} {queued : ℕ → Prop} {live : Option ℕ} {q h k : ℕ}

lemma PageRep.live_eq_none {o : Option (Tile Kind)} (hr : PageRep page queued live q o)
    (ho : ∀ k, o ≠ some ⟨.live, q, k⟩) : live = none := by
  refine eq_none_iff_forall_ne_some.2 fun m hm => ?_
  obtain ⟨k, -, hk⟩ := (hr.live_iff m).1 hm
  exact ho k hk

lemma size_of_head {kind : Kind} (hs : h = q → page.size = 2 ^ k) (kind' : Kind) (j : ℕ)
    (ho : some (⟨kind, h, k⟩ : Tile Kind) = some ⟨kind', q, j⟩) : page.size = 2 ^ j := by
  obtain ⟨-, hh, rfl⟩ : kind = kind' ∧ h = q ∧ k = j := by simpa using ho
  exact hs hh

lemma pageRep_none_iff : PageRep page queued live q none ↔
    (∀ j, ¬ queued j) ∧ live = none ∧ page.managed = false ∧ page.reserved := by
  constructor
  · intro hr
    refine ⟨fun j hj => by simpa using (hr.queued_iff j).1 hj, hr.live_eq_none (by simp), ?_,
      hr.reserved_iff.2 rfl⟩
    simpa using hr.managed_iff
  · rintro ⟨hq, hl, hm, hr⟩
    constructor <;> simp [hq, hl, hm, hr]

lemma pageRep_free_iff : PageRep page queued live q (some ⟨.free, h, k⟩) ↔
    (∀ j, queued j ↔ h = q ∧ k = j) ∧ live = none ∧ (h = q → page.size = 2 ^ k) ∧
      (page.managed ↔ h = q) ∧ page.allocated = false ∧ page.reserved = false := by
  constructor
  · intro hr
    refine ⟨fun j => by simpa using hr.queued_iff j, hr.live_eq_none (by simp), ?_,
      by simpa using hr.managed_iff, hr.not_allocated h k rfl, by simpa using hr.reserved_iff⟩
    rintro rfl
    exact hr.size_eq .free k rfl
  · rintro ⟨hq, hl, hs, hm, ha, hr⟩
    exact ⟨fun j => by simp [hq], by simp [hl], size_of_head hs, by simp [hm], by simp [ha],
      by simp, by simp [hr]⟩

lemma pageRep_live_iff : PageRep page queued live q (some ⟨.live, h, k⟩) ↔
    (∀ j, ¬ queued j) ∧ (live = if h = q then some (2 ^ k) else none) ∧
      (h = q → page.size = 2 ^ k) ∧ page.managed = false ∧ page.allocated ∧
      page.reserved = false := by
  constructor
  · intro hr
    refine ⟨fun j hj => by simpa using (hr.queued_iff j).1 hj, ?_, ?_,
      by simpa using hr.managed_iff, hr.allocated h k rfl, by simpa using hr.reserved_iff⟩
    · split_ifs with hh
      · exact (hr.live_iff _).2 ⟨k, rfl, by rw [hh]⟩
      · exact hr.live_eq_none (by simp [hh])
    · rintro rfl
      exact hr.size_eq .live k rfl
  · rintro ⟨hq, hl, hs, hm, ha, hr⟩
    refine ⟨fun j => by simp [hq], fun m => ?_, size_of_head hs, by simp [hm], by simp,
      by simp [ha], by simp [hr]⟩
    by_cases hh : h = q
    · simp [hl, hh, eq_comm]
    · simp [hl, hh]

lemma pageRep_held_iff : PageRep page queued live q (some ⟨.held, h, k⟩) ↔
    (∀ j, ¬ queued j) ∧ live = none ∧ (h = q → page.size = 2 ^ k) ∧ page.managed = false ∧
      page.reserved = false := by
  constructor
  · intro hr
    refine ⟨fun j hj => by simpa using (hr.queued_iff j).1 hj, hr.live_eq_none (by simp), ?_,
      by simpa using hr.managed_iff, by simpa using hr.reserved_iff⟩
    rintro rfl
    exact hr.size_eq .held k rfl
  · rintro ⟨hq, hl, hs, hm, hr⟩
    exact ⟨fun j => by simp [hq], by simp [hl], size_of_head hs, by simp [hm], by simp, by simp,
      by simp [hr]⟩

end PageRep

/-- The descriptors, queues and bounds of a segment fit a tiling. Every block has a queue,
except one that a free is still merging. -/
structure SegRep {n : ℕ} (seg : Seg) (live : ℕ → Option ℕ) (T : Tiling Kind n) : Prop where
  npages : seg.npages = n
  page : ∀ q < n, PageRep (seg.pages q) (fun k => q ∈ seg.freeq k) (live q) q (T.owner q)
  outside : ∀ q, n ≤ q → (∀ k, q ∉ seg.freeq k) ∧ live q = none
  nodup : ∀ k, (seg.freeq k).Nodup
  order : ∀ q t, T.owner q = some t → t.kind ≠ .held → t.order < pmNqueues
  start : pageSize ∣ seg.start
  stop : seg.stop = seg.start + pageSize * n

/-- A segment of at most `2 ^ 15` pages: every block has a queue. -/
structure Rep {n : ℕ} (seg : Seg) (live : ℕ → Option ℕ) (T : Tiling Kind n) : Prop
    extends SegRep seg live T where
  small : n ≤ 2 ^ 15

variable {n k x j : ℕ} {T : Tiling Kind n} {seg : Seg} {live : ℕ → Option ℕ}

lemma order_lt_of_small {q : ℕ} (hn : n ≤ 2 ^ 15) {t : Tile Kind}
    (ht : T.owner q = some t) : t.order < pmNqueues := by
  have hle : 2 ^ t.order ≤ 2 ^ 15 := by
    have := T.inside ht
    omega
  have := (Nat.pow_le_pow_iff_right (by norm_num : 1 < 2)).1 hle
  simp only [pmNqueues]
  omega

/-! The words of the allocator at powers of two. -/

lemma log2_two_pow (hk : k < 32) : log2 (2 ^ k) = k := by
  have hfind : (range 32).find? (fun b => (2 ^ k).testBit b) = some k := by
    rw [find?_range_eq_some]
    refine ⟨by simp, by simpa using hk, fun j hj => ?_⟩
    simp only [testBit_two_pow, Bool.not_eq_true', decide_eq_false_iff_not]
    omega
  rw [log2, ctz, hfind, getD_some]

lemma two_pow_dvd_iff : 2 ^ j ∣ x ↔ ∀ b < j, x.testBit b = false := by
  rw [dvd_iff_mod_eq_zero]
  constructor
  · intro h b hb
    have hbit : (x % 2 ^ j).testBit b = false := by rw [h, zero_testBit]
    simpa [hb] using hbit
  · intro h
    apply eq_of_testBit_eq
    intro b
    by_cases hb : b < j
    · simp [h b hb]
    · simp [hb]

lemma le_ctz_iff (hj : j ≤ 32) : j ≤ ctz x ↔ 2 ^ j ∣ x := by
  rw [two_pow_dvd_iff, ctz]
  cases hfind : (range 32).find? fun b => x.testBit b with
  | none =>
    have hnone := find?_eq_none.1 hfind
    refine iff_of_true hj fun b hb => ?_
    simpa using hnone b (mem_range.2 (by omega))
  | some c =>
    obtain ⟨hc, -, hbelow⟩ := find?_range_eq_some.1 hfind
    constructor
    · intro hle b hb
      simpa using hbelow b (lt_of_lt_of_le hb hle)
    intro h
    by_contra hlt
    rw [h c (Nat.lt_of_not_le hlt)] at hc
    cases hc

lemma queueOf_two_pow (hk : k < pmNqueues) : queueOf (2 ^ k) = some k := by
  have hk' : k < 32 := lt_trans hk (by decide)
  rw [queueOf, log2_two_pow hk', if_pos hk]

lemma powerof2_two_pow (k : ℕ) : powerof2 (2 ^ k) := by
  rw [powerof2, and_two_pow_sub_one_eq_mod, mod_self]

/-! The updates of a segment, page by page. -/

section Updates

variable (seg : Seg) (i pg q k : ℕ)

def Seg.bounds : ℕ × ℕ × ℕ := (seg.npages, seg.start, seg.stop)

@[simp] lemma setSize_bounds (size : ℕ) : (seg.setSize pg size).bounds = seg.bounds := rfl
@[simp] lemma setManaged_bounds (m : Bool) : (seg.setManaged pg m).bounds = seg.bounds := rfl
@[simp] lemma mapBlock_bounds (n : ℕ) (f : Page → Page) :
    (seg.mapBlock pg n f).bounds = seg.bounds := rfl
@[simp] lemma insertHead_bounds : (seg.insertHead i pg).bounds = seg.bounds := rfl
@[simp] lemma unlink_bounds : (seg.unlink i pg).bounds = seg.bounds := rfl

variable {seg} in
lemma start_of_bounds {seg' : Seg} (h : seg'.bounds = seg.bounds) : seg'.start = seg.start :=
  congrArg (fun bounds => bounds.2.1) h

@[simp] lemma setSize_pages (size : ℕ) : (seg.setSize pg size).pages q =
    if q = pg then { seg.pages q with size := size } else seg.pages q := by
  by_cases h : q = pg
  · subst h
    simp [setSize]
  · simp [setSize, h]

@[simp] lemma setManaged_pages (managed : Bool) : (seg.setManaged pg managed).pages q =
    if q = pg then { seg.pages q with managed := managed } else seg.pages q := by
  by_cases h : q = pg
  · subst h
    simp [setManaged]
  · simp [setManaged, h]

@[simp] lemma mapBlock_pages (n : ℕ) (f : Page → Page) : (seg.mapBlock pg n f).pages q =
    if pg ≤ q ∧ q < pg + n then f (seg.pages q) else seg.pages q := rfl

@[simp] lemma insertHead_pages : (seg.insertHead i pg).pages = seg.pages := rfl
@[simp] lemma unlink_pages : (seg.unlink i pg).pages = seg.pages := rfl
@[simp] lemma setSize_freeq (size : ℕ) : (seg.setSize pg size).freeq = seg.freeq := rfl
@[simp] lemma setManaged_freeq (m : Bool) : (seg.setManaged pg m).freeq = seg.freeq := rfl
@[simp] lemma mapBlock_freeq (n : ℕ) (f : Page → Page) :
    (seg.mapBlock pg n f).freeq = seg.freeq := rfl

lemma insertHead_freeq : (seg.insertHead i pg).freeq k =
    if k = i then pg :: seg.freeq k else seg.freeq k := by
  by_cases h : k = i
  · subst h
    simp [insertHead]
  · simp [insertHead, h]

lemma unlink_freeq : (seg.unlink i pg).freeq k =
    if k = i then (seg.freeq k).erase pg else seg.freeq k := by
  by_cases h : k = i
  · subst h
    simp [unlink]
  · simp [unlink, h]

@[simp] lemma mem_insertHead :
    q ∈ (seg.insertHead i pg).freeq k ↔ (k = i ∧ q = pg) ∨ q ∈ seg.freeq k := by
  rw [insertHead_freeq]
  split_ifs with h
  · simp [h]
  · simp [h]

lemma mem_unlink (hnd : (seg.freeq k).Nodup) :
    q ∈ (seg.unlink i pg).freeq k ↔ ¬ (k = i ∧ q = pg) ∧ q ∈ seg.freeq k := by
  rw [unlink_freeq]
  split_ifs with h
  · rw [hnd.mem_erase_iff]
    simp [h]
  · simp [h]

lemma insertHead_nodup (hnd : (seg.freeq k).Nodup) (hpg : k = i → pg ∉ seg.freeq k) :
    ((seg.insertHead i pg).freeq k).Nodup := by
  rw [insertHead_freeq]
  split_ifs with h
  · exact nodup_cons.2 ⟨hpg h, hnd⟩
  · exact hnd

lemma unlink_nodup (hnd : (seg.freeq k).Nodup) : ((seg.unlink i pg).freeq k).Nodup := by
  rw [unlink_freeq]
  split_ifs with h
  · exact hnd.erase pg
  · exact hnd

end Updates

variable {n : ℕ} {seg : Seg} {live : ℕ → Option ℕ} {T : Tiling Kind n}

/-- Only the changed pages have to be looked at. -/
lemma SegRep.update (h : SegRep seg live T) {seg' : Seg} {live' : ℕ → Option ℕ}
    {T' : Tiling Kind n} (R : ℕ → Prop) (hR : ∀ q, R q → q < n)
    (hbounds : seg'.bounds = seg.bounds)
    (hout : ∀ q, ¬ R q → seg'.pages q = seg.pages q ∧
      (∀ k, q ∈ seg'.freeq k ↔ q ∈ seg.freeq k) ∧ live' q = live q ∧ T'.owner q = T.owner q)
    (hin : ∀ q, R q → PageRep (seg'.pages q) (fun k => q ∈ seg'.freeq k) (live' q) q (T'.owner q))
    (hnd : ∀ k, (seg'.freeq k).Nodup)
    (hord : ∀ q t, R q → T'.owner q = some t → t.kind ≠ .held → t.order < pmNqueues) :
    SegRep seg' live' T' where
  npages := (congrArg Prod.fst hbounds).trans h.npages
  page q hq := by
    by_cases hRq : R q
    · exact hin q hRq
    · obtain ⟨hpage, hfreeq, hlive, howner⟩ := hout q hRq
      simp only [hpage, hfreeq, hlive, howner]
      exact h.page q hq
  outside q hq := by
    obtain ⟨-, hfreeq, hlive, -⟩ := hout q fun hRq => absurd (hR q hRq) (by omega)
    simp only [hfreeq, hlive]
    exact h.outside q hq
  nodup := hnd
  order q t ht hkind := by
    by_cases hRq : R q
    · exact hord q t hRq ht hkind
    · exact h.order q t ((hout q hRq).2.2.2 ▸ ht) hkind
  start := start_of_bounds hbounds ▸ h.start
  stop := by
    have hstop : seg'.stop = seg.stop := congrArg (fun bounds => bounds.2.2) hbounds
    rw [start_of_bounds hbounds, hstop, h.stop]

variable {q k p : ℕ} {t u : Tile Kind} {kind : Kind}

lemma SegRep.page_of_owner (h : SegRep seg live T) (ht : T.owner q = some t) :
    PageRep (seg.pages q) (fun k => q ∈ seg.freeq k) (live q) q (some t) :=
  ht ▸ h.page q (T.lt ht)

lemma SegRep.owner_of_mem (h : SegRep seg live T) (hq : q ∈ seg.freeq k) :
    T.owner q = some ⟨.free, q, k⟩ := by
  have hlt : q < n := by
    by_contra hge
    exact (h.outside q (by omega)).1 k hq
  exact ((h.page q hlt).queued_iff k).1 hq

lemma SegRep.mem_of_owner (h : SegRep seg live T) (hq : T.owner q = some ⟨.free, q, k⟩) :
    q ∈ seg.freeq k :=
  ((h.page_of_owner hq).queued_iff k).2 rfl

lemma SegRep.size_of_owner (h : SegRep seg live T)
    (hq : T.owner q = some ⟨kind, q, k⟩) : seg.size q = 2 ^ k :=
  (h.page_of_owner hq).size_eq kind k rfl

lemma SegRep.free_lt (h : SegRep seg live T) (ht : T.owner q = some ⟨.free, p, k⟩) :
    k < pmNqueues :=
  h.order q _ ht (by simp)

lemma SegRep.live_lt (h : SegRep seg live T) (ht : T.owner q = some ⟨.live, p, k⟩) :
    k < pmNqueues :=
  h.order q _ ht (by simp)

lemma assign_order (ht : T.owner t.head = some t) {kind : Option Kind}
    (hq : t.Covers q) (hu : (T.assign t ht kind).owner q = some u) : u.order = t.order := by
  rw [Tiling.assign_owner, if_pos hq] at hu
  obtain ⟨k, -, rfl⟩ := map_eq_some_iff.1 hu
  rfl

lemma SegRep.split_order (h : SegRep seg live T)
    (ht : T.owner p = some ⟨kind, p, k + 1⟩) (hkind : kind ≠ .held)
    (hq : Tile.Covers (⟨kind, p, k + 1⟩ : Tile Kind) q) (hu : (T.split ht).owner q = some u) :
    u.order < pmNqueues := by
  obtain ⟨head, howner, -⟩ := T.split_owner_half ht hq
  obtain rfl := some.inj (howner.symm.trans hu)
  have hlt : k + 1 < pmNqueues := h.order p _ ht hkind
  exact lt_of_succ_lt hlt

end GzOS.PhysMem
