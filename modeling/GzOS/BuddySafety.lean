import GzOS.BuddySteps
import GzOS.Runs

/-!
# Safety of the buddy allocator

Every sequence of reservations, allocations, frees and splits of live blocks passes all
assertions, and each page belongs to exactly one free block, live block or the reserved
set.
-/
namespace GzOS.PhysMem
open DyadicTiling Seg Runs List Function Option Nat

variable {n k p : ℕ} {seg : Seg} {live : ℕ → Option ℕ} {T : Tiling Kind n}

/-! Splitting a live block. -/

def halveSeg (seg : Seg) (p k : ℕ) : Seg :=
  (seg.setSize p (2 ^ k)).setSize (p + 2 ^ k) (2 ^ k)

lemma halveSeg_pages (seg : Seg) (p k q : ℕ) :
    (q = p ∨ q = p + 2 ^ k → ((halveSeg seg p k).pages q).size = 2 ^ k) ∧
    ((halveSeg seg p k).pages q).managed = (seg.pages q).managed ∧
    ((halveSeg seg p k).pages q).allocated = (seg.pages q).allocated ∧
    ((halveSeg seg p k).pages q).reserved = (seg.pages q).reserved := by
  simp only [halveSeg]
  by_cases hb : q = p + 2 ^ k
  · simp [hb]
  · by_cases hp : q = p
    · simp [hp]
    · simp [hb, hp]

def halveLive (live : ℕ → Option ℕ) (p k : ℕ) : ℕ → Option ℕ :=
  update (update live p (some (2 ^ k))) (p + 2 ^ k) (some (2 ^ k))

lemma halveLive_apply (live : ℕ → Option ℕ) (p k q : ℕ) : halveLive live p k q =
    if q = p ∨ q = p + 2 ^ k then some (2 ^ k) else live q := by
  unfold halveLive
  by_cases hb : q = p + 2 ^ k
  · simp [hb]
  · by_cases hp : q = p
    · simp [hp]
    · simp [hb, hp]

lemma halveSeg_rep (h : SegRep seg live T) (ht : T.owner p = some ⟨.live, p, k + 1⟩) :
    SegRep (halveSeg seg p k) (halveLive live p k) (T.split ht) := by
  have hpos := Nat.two_pow_pos k
  refine h.update (Tile.Covers (⟨Kind.live, p, k + 1⟩ : Tile Kind))
    (fun q hq => T.lt (T.whole ht q hq)) (by simp [halveSeg]) ?_ ?_ h.nodup
    fun q u hq hu _ => h.split_order ht (by simp) hq hu
  · intro q hq
    have hne : q ≠ p ∧ q ≠ p + 2 ^ k := by
      simp only [Tile.Covers] at hq
      omega
    refine ⟨by simp [halveSeg, hne.1, hne.2], fun _ => Iff.rfl, ?_, if_neg hq⟩
    rw [halveLive_apply, if_neg (by omega)]
  · intro q hq
    obtain ⟨hqueue, hlive, -, hmanaged, halloc, hres⟩ :=
      pageRep_live_iff.1 (h.page_of_owner (T.whole ht q hq))
    obtain ⟨hsize', hmanaged', halloc', hres'⟩ := halveSeg_pages seg p k q
    obtain ⟨head, howner, hhead⟩ := T.split_owner_half ht hq
    rw [howner, halveLive_apply]
    refine pageRep_live_iff.2 ⟨hqueue, ?_, fun he => hsize' (hhead.1 he),
      hmanaged'.trans hmanaged, halloc'.trans halloc, hres'.trans hres⟩
    by_cases hends : q = p ∨ q = p + 2 ^ k
    · rw [if_pos hends, if_pos (hhead.2 hends)]
    · rw [if_neg hends, if_neg (mt hhead.1 hends), hlive]
      exact if_neg fun he => hends (.inl he.symm)

lemma pmSplitAllocPage_eq (h : SegRep seg live T) (ht : T.owner p = some ⟨.live, p, k + 1⟩) :
    pmSplitAllocPage seg p = some (p + 2 ^ k, halveSeg seg p k) := by
  have hpos := Nat.two_pow_pos k
  have hone : 2 ^ (k + 1) > 1 := by omega
  have hhalf : 2 ^ (k + 1) / 2 = 2 ^ k := by omega
  obtain ⟨-, -, -, -, halloc, -⟩ := pageRep_live_iff.1 (h.page_of_owner ht)
  simp [pmSplitAllocPage, h.size_of_owner ht, halloc, hhalf, halveSeg]

/-! Reserving. -/

def reserveSeg (seg : Seg) (k p : ℕ) : Seg :=
  (seg.unlink k p).mapBlock p (2 ^ k) fun page =>
    { page with reserved := true, allocated := false, managed := false }

lemma reserveSeg_rep (h : SegRep seg live T) (ht : T.owner p = some ⟨.free, p, k⟩) :
    SegRep (reserveSeg seg k p) live (T.assign ⟨.free, p, k⟩ ht none) := by
  refine h.update (Tile.Covers (⟨Kind.free, p, k⟩ : Tile Kind))
    (fun q hq => T.lt (T.whole ht q hq)) (by simp [reserveSeg]) ?_ ?_ ?_
    fun q u hq hu _ => assign_order ht hq hu ▸ h.free_lt ht
  · intro q hq
    have hp : q ≠ p := Tile.ne_head hq
    refine ⟨if_neg hq, fun j => ?_, rfl, if_neg hq⟩
    simp [reserveSeg, mem_unlink _ _ _ _ _ (h.nodup j), hp]
  · intro q hq
    obtain ⟨hqueue, hlive, -, -, -, -⟩ :=
      pageRep_free_iff.1 (h.page_of_owner (T.whole ht q hq))
    have ho : (T.assign ⟨.free, p, k⟩ ht none).owner q = none := if_pos hq
    rw [ho]
    simp only [Tile.Covers] at hq
    refine pageRep_none_iff.2 ⟨fun j => ?_, hlive, by simp [reserveSeg, hq],
      by simp [reserveSeg, hq]⟩
    rw [reserveSeg, mapBlock_freeq, mem_unlink _ _ _ _ _ (h.nodup j), hqueue]
    omega
  · intro j
    exact unlink_nodup seg k p j (h.nodup j)

def Touches (base start stop p k : ℕ) : Prop :=
  base + pageSize * p < stop ∧ start < base + pageSize * (p + 2 ^ k)

lemma touches_iff {start stop : ℕ} (hlt : start < stop) (hsize : seg.size p = 2 ^ k) :
    Contained seg start stop p ∨ Intersects seg start stop p ↔
      Touches seg.start start stop p k := by
  have hpos := Nat.two_pow_pos k
  simp only [Contained, Intersects, Touches, pgEnd, pgStart, pageSize]
  omega

lemma one_page_contained {start stop : ℕ} (h : SegRep seg live T) (hstart : pageSize ∣ start)
    (hstop : pageSize ∣ stop) (hsize : seg.size p = 1) : ¬ Intersects seg start stop p := by
  have hbase := h.start
  simp only [pageSize, Intersects, pgEnd, pgStart] at *
  omega

/-- Free pages were taken away, and blocks below queue `m` split where the range touches
them. -/
structure Shrunk (seg seg' : Seg) (T T' : Tiling Kind n) (start stop m : ℕ) : Prop where
  base : seg'.start = seg.start
  kinds : ∀ q, T'.kindAt q = T.kindAt q ∨ T.kindAt q = some .free ∧ T'.kindAt q = none
  coalesced : T.Coalesced .free (Touches seg.start start stop) →
    T'.Coalesced .free (Touches seg.start start stop)
  above : ∀ j, m ≤ j → seg'.freeq j = seg.freeq j

variable {seg' : Seg} {T' : Tiling Kind n}

section Shrunk

variable {start stop i m : ℕ}

lemma Shrunk.refl (seg : Seg) (T : Tiling Kind n) (start stop m : ℕ) :
    Shrunk seg seg T T start stop m :=
  ⟨rfl, fun _ => Or.inl rfl, id, fun _ _ => rfl⟩

lemma Shrunk.trans {seg1 seg2 : Seg} {T1 T2 : Tiling Kind n}
    (h1 : Shrunk seg seg1 T T1 start stop m) (h2 : Shrunk seg1 seg2 T1 T2 start stop i)
    (him : i ≤ m) : Shrunk seg seg2 T T2 start stop m where
  base := h2.base.trans h1.base
  kinds q := by
    rcases h2.kinds q with he | ⟨hfree, hnone⟩
    · rw [he]
      exact h1.kinds q
    rcases h1.kinds q with he | ⟨-, hnone'⟩
    · exact .inr ⟨he ▸ hfree, hnone⟩
    · rw [hnone'] at hfree
      cases hfree
  coalesced hT := by
    have hT1 := h1.coalesced hT
    rw [← h1.base] at hT1 ⊢
    exact h2.coalesced hT1
  above j hj := (h2.above j (him.trans hj)).trans (h1.above j hj)

lemma Shrunk.reserve (ht : T.owner p = some ⟨.free, p, k⟩) :
    Shrunk seg (reserveSeg seg k p) T (T.assign ⟨.free, p, k⟩ ht none) start stop (k + 1) where
  base := rfl
  kinds q := by
    rw [T.assign_kindAt]
    split_ifs with hq
    · exact .inr ⟨T.kindAt_of_owner (T.whole ht q hq), rfl⟩
    · exact .inl rfl
  coalesced hT := hT.assign ht (by simp) fun _ _ _ hR => hR
  above j hj := by
    have hne : j ≠ k := by omega
    simp [reserveSeg, unlink_freeq, hne]

lemma Shrunk.split (ht : T.owner p = some ⟨.free, p, k + 1⟩) (hlt : start < stop)
    (htouch : Touches seg.start start stop p (k + 1)) :
    Shrunk seg (splitSeg seg p k) T (T.split ht) start stop (k + 2) where
  base := start_of_bounds (splitSeg_bounds seg p k)
  kinds q := Or.inl (T.split_kindAt ht q)
  coalesced hT := by
    refine hT.split ht ?_ fun _ _ _ hR => hR
    simp only [Touches, pageSize] at htouch ⊢
    omega
  above j hj := by
    have hne : j ≠ k ∧ j ≠ k + 1 := by omega
    simp [splitSeg, insertHead_freeq, unlink_freeq, hne.1, hne.2]

def Clear (seg : Seg) (start stop i : ℕ) : Prop :=
  ∀ p ∈ seg.freeq i, ¬Touches seg.start start stop p i

lemma clear_of_touched (h : SegRep seg live T) (hlt : start < stop)
    (hnone : touched seg start stop i = none) : Clear seg start stop i := by
  intro p hp htouch
  have hsize := h.size_of_owner (h.owner_of_mem hp)
  have hnot := find?_eq_none.1 hnone p hp
  rw [decide_eq_true_eq] at hnot
  exact hnot ((touches_iff hlt hsize).2 htouch)

/-- Induction on the fuel: a block of the queue is cut or split and looked at again. -/
lemma reserveQueue_spec {fuel : ℕ} (h : SegRep seg live T) (hs : Settled T) (hlt : start < stop)
    (hstart : pageSize ∣ start) (hstop : pageSize ∣ stop) (hfuel : (seg.freeq i).length ≤ fuel) :
    ∃ seg', ∃ T' : Tiling Kind n, reserveQueue start stop i fuel seg = some seg' ∧
      SegRep seg' live T' ∧ Settled T' ∧ Shrunk seg seg' T T' start stop (i + 1) ∧
      Clear seg' start stop i := by
  induction fuel generalizing seg T with
  | zero =>
    have hnil : seg.freeq i = [] := length_eq_zero_iff.1 (by omega)
    refine ⟨seg, T, ?_, h, hs, .refl .., ?_⟩
    · simp [reserveQueue, touched, hnil]
    · simp [Clear, hnil]
  | succ fuel ih =>
    rw [reserveQueue]
    cases htouch : touched seg start stop i with
    | none => exact ⟨seg, T, rfl, h, hs, .refl .., clear_of_touched h hlt htouch⟩
    | some pg =>
      have hmem := mem_of_find?_eq_some htouch
      have ht := h.owner_of_mem hmem
      have hboth : Contained seg start stop pg ∨ Intersects seg start stop pg := by
        simpa only [decide_eq_true_eq] using find?_some htouch
      have hlen := length_erase_add_one hmem
      simp only
      split_ifs with hcont
      · have hshort : ((reserveSeg seg i pg).freeq i).length ≤ fuel := by
          simp only [reserveSeg, mapBlock_freeq, unlink_freeq, if_true]
          omega
        obtain ⟨seg', T', hrun, h', hs', hshrunk, hclear⟩ :=
          ih (reserveSeg_rep h ht) (hs.assign ht (by simp)) hshort
        refine ⟨seg', T', ?_, h', hs', (Shrunk.reserve ht).trans hshrunk le_rfl, hclear⟩
        have hsize : (seg.unlink i pg).size pg = 2 ^ i := h.size_of_owner ht
        rw [reserveBlock, remove, if_pos (h.mem_of_owner ht), map_some, hsize, ← reserveSeg,
          bind_some, hrun]
      · cases i with
        | zero =>
          exact absurd (hboth.resolve_left hcont)
            (one_page_contained h hstart hstop (h.size_of_owner ht))
        | succ k =>
          have hshort : ((splitSeg seg pg k).freeq (k + 1)).length ≤ fuel := by
            simp only [splitSeg, setManaged_freeq, insertHead_freeq, setSize_freeq, unlink_freeq,
              if_true]
            rw [if_neg (by omega), if_neg (by omega)]
            omega
          obtain ⟨seg', T', hrun, h', hs', hshrunk, hclear⟩ :=
            ih (splitSeg_rep h ht) (hs.split ht) hshort
          have hstep := Shrunk.split ht hlt ((touches_iff hlt (h.size_of_owner ht)).1 hboth)
          refine ⟨seg', T', ?_, h', hs', hstep.trans hshrunk le_rfl, hclear⟩
          rw [pmSplitPage_eq h ht, bind_some, hrun]

lemma reserveQueues_spec (i : ℕ) (h : SegRep seg live T) (hs : Settled T) (hlt : start < stop)
    (hstart : pageSize ∣ start) (hstop : pageSize ∣ stop) :
    ∃ seg', ∃ T' : Tiling Kind n, reserveQueues start stop i seg = some seg' ∧
      SegRep seg' live T' ∧ Settled T' ∧ Shrunk seg seg' T T' start stop i ∧
      ∀ m < i, Clear seg' start stop m := by
  induction i generalizing seg T with
  | zero => exact ⟨seg, T, rfl, h, hs, .refl .., fun m hm => absurd hm (not_lt_zero m)⟩
  | succ i ih =>
    obtain ⟨seg1, T1, hrun, h1, hs1, hshrunk1, hclear1⟩ :=
      reserveQueue_spec h hs hlt hstart hstop (le_refl _)
    obtain ⟨seg2, T2, hrun2, h2, hs2, hshrunk2, hclear2⟩ := ih h1 hs1
    refine ⟨seg2, T2, ?_, h2, hs2, hshrunk1.trans hshrunk2 (le_succ i), fun m hm => ?_⟩
    · rw [reserveQueues, hrun, bind_some, hrun2]
    rcases Nat.lt_succ_iff_lt_or_eq.1 hm with hm | rfl
    · exact hclear2 m hm
    · rw [Clear, hshrunk2.above m le_rfl, hshrunk2.base]
      exact hclear1

/-- A reservation leaves no block in the range, so the blocks it split have no free buddy.
-/
lemma Shrunk.canonical (h' : SegRep seg' live T') (hshrunk : Shrunk seg seg' T T' start stop m)
    (hclear : ∀ m < pmNqueues, Clear seg' start stop m) (hT : T.Canonical .free) :
    T'.Canonical .free := by
  have hT' := hshrunk.coalesced (hT.mono fun _ _ _ => False.elim)
  refine hT'.mono fun p k ho htouch => ?_
  rw [← hshrunk.base] at htouch
  exact hclear k (h'.free_lt ho) p (h'.mem_of_owner ho) htouch

end Shrunk

/-! Initialisation. -/

lemma initQueues_zero (m : ℕ) (seg : Seg) (c : ℕ) : initQueues m seg c 0 = seg := by
  induction m generalizing c with
  | zero => rfl
  | succ m ih => simp [initQueues, addBlocks, ih]

lemma initQueues_two_pow {m : ℕ} (hk : k < m) (seg : Seg) (c : ℕ) :
    initQueues m seg c (2 ^ k) = (seg.insertHead k c).setManaged c true := by
  induction m with
  | zero => omega
  | succ m ih =>
    by_cases hm : k = m
    · subst hm
      simp [initQueues, addBlocks, initQueues_zero]
    · have hlt : 2 ^ k < 2 ^ m := Nat.pow_lt_pow_right (by norm_num) (by omega)
      rw [initQueues, div_eq_of_lt hlt, mod_eq_of_lt hlt]
      exact ih (by omega)

lemma blankSeg_npages (start k : ℕ) :
    (blankSeg start (start + pageSize * 2 ^ k)).npages = 2 ^ k := by
  simp only [blankSeg]
  rw [Nat.add_sub_cancel_left, Nat.mul_div_cancel_left _ (by decide)]

lemma blankSeg_pages (start : ℕ) (hk : k ≤ 15) {q : ℕ} (hq : q < 2 ^ k) :
    (blankSeg start (start + pageSize * 2 ^ k)).pages q = { size := 2 ^ min k (ctz q) } := by
  have hnp : (start + pageSize * 2 ^ k - start) / pageSize = 2 ^ k := blankSeg_npages start k
  have hmax : min pmNqueues (ffs (2 ^ k)) - 1 = k := by
    have hlog : ctz (2 ^ k) = k := log2_two_pow (by omega)
    simp only [ffs, (Nat.two_pow_pos k).ne', if_false, pmNqueues]
    omega
  simp only [blankSeg, hnp, hmax, if_pos hq]

def freshSeg (start k : ℕ) : Seg :=
  ((blankSeg start (start + pageSize * 2 ^ k)).insertHead k 0).setManaged 0 true

lemma segment_end {start : ℕ} (k : ℕ) (hstart : pageSize ∣ start) :
    start < start + pageSize * 2 ^ k ∧ pageSize ∣ start + pageSize * 2 ^ k :=
  ⟨Nat.lt_add_of_pos_right (Nat.mul_pos (by decide) (Nat.two_pow_pos k)),
    Nat.dvd_add hstart (Nat.dvd_mul_right _ _)⟩

lemma pmSegInit_eq {start : ℕ} (hk : k ≤ 15) (hstart : pageSize ∣ start) :
    pmSegInit start (start + pageSize * 2 ^ k) = some (freshSeg start k) := by
  obtain ⟨hlt, hstop⟩ := segment_end k hstart
  have hqueue : k < pmNqueues := by
    simp only [pmNqueues]
    omega
  simp [pmSegInit, hlt, hstart, hstop, blankSeg_npages, initQueues_two_pow hqueue, freshSeg]

lemma freshSeg_rep {start : ℕ} (hk : k ≤ 15) (hstart : pageSize ∣ start) :
    Rep (freshSeg start k) (fun _ => none) (Tiling.single Kind.free k) := by
  have hzero : min k (ctz 0) = k := by
    have : ctz 0 = 32 := by decide
    omega
  have hmem : ∀ q j, q ∈ (freshSeg start k).freeq j ↔ j = k ∧ q = 0 := by
    intro q j
    simp [freshSeg, blankSeg]
  have hsmall : 2 ^ k ≤ 2 ^ 15 := Nat.pow_le_pow_right (by norm_num) hk
  refine ⟨⟨blankSeg_npages start k, ?_, ?_, ?_, fun _ _ ht _ => order_lt_of_small hsmall ht, hstart,
    rfl⟩, hsmall⟩
  · intro q hq
    have ho : (Tiling.single Kind.free k).owner q = some ⟨.free, 0, k⟩ := if_pos hq
    have hpage := blankSeg_pages start hk hq
    rw [ho]
    refine pageRep_free_iff.2 ⟨fun j => ?_, rfl, ?_, ?_, ?_, ?_⟩
    · rw [hmem]
      omega
    · rintro rfl
      simp [freshSeg, hpage, hzero]
    · by_cases hq0 : q = 0
      · simp [freshSeg, hq0]
      · simp [freshSeg, hq0, hpage, Ne.symm hq0]
    · rw [freshSeg, setManaged_pages, insertHead_pages, hpage]
      split_ifs <;> rfl
    · rw [freshSeg, setManaged_pages, insertHead_pages, hpage]
      split_ifs <;> rfl
  · intro q hq
    refine ⟨fun j hj => ?_, rfl⟩
    rw [hmem] at hj
    have := Nat.two_pow_pos k
    omega
  · intro j
    apply insertHead_nodup
    · exact nodup_nil
    · intro _
      exact not_mem_nil

/-! Runs. -/

/-- A segment and, as a ghost, the size of the live block at each page. -/
structure State where
  seg : Seg
  live : ℕ → Option ℕ

inductive Op
  | reserve (start stop : ℕ)
  | alloc (npages : ℕ)
  | free (page : ℕ)
  | splitAlloc (page : ℕ)

def step (s : State) : Op → Option State
  | .reserve start stop => (pmSegReserve s.seg start stop).map fun seg => ⟨seg, s.live⟩
  | .alloc npages => (pmAlloc s.seg npages).map fun r =>
      match r.1 with
      | none => ⟨r.2, s.live⟩
      | some page => ⟨r.2, update s.live page (some npages)⟩
  | .free page => (pmFree s.seg page).map fun seg => ⟨seg, update s.live page none⟩
  | .splitAlloc page => (pmSplitAllocPage s.seg page).map fun r =>
      let half := (s.live page).map (· / 2)
      ⟨r.2, update (update s.live page half) r.1 half⟩

/-- The calls that a correct caller makes. -/
def Allowed (s : State) : Op → Prop
  | .reserve start stop =>
    start < stop ∧ pageSize ∣ start ∧ pageSize ∣ stop ∧ s.seg.start ≤ start ∧ stop ≤ s.seg.stop
  | .alloc npages => ∃ k ≤ 15, npages = 2 ^ k
  | .free page => ∃ m, s.live page = some m
  | .splitAlloc page => ∃ m, s.live page = some m ∧ 1 < m

def QueuedAt (s : State) (b : ℕ × ℕ) (q : ℕ) : Prop :=
  b.2 ∈ s.seg.freeq b.1 ∧ b.2 ≤ q ∧ q < b.2 + s.seg.size b.2

def LiveAt (s : State) (p q : ℕ) : Prop := ∃ m, s.live p = some m ∧ p ≤ q ∧ q < p + m

def ReservedAt (s : State) (q : ℕ) : Prop := (s.seg.pages q).reserved = true

structure Safe (s : State) : Prop where
  /-- A page is in exactly one queued block, one live block or the reserved set. -/
  partition : ∀ q < s.seg.npages,
    ((∃! b, QueuedAt s b q) ∧ (∀ p, ¬ LiveAt s p q) ∧ ¬ ReservedAt s q) ∨
    ((∀ b, ¬ QueuedAt s b q) ∧ (∃! p, LiveAt s p q) ∧ ¬ ReservedAt s q) ∨
    ((∀ b, ¬ QueuedAt s b q) ∧ (∀ p, ¬ LiveAt s p q) ∧ ReservedAt s q)
  nodup : ∀ i, (s.seg.freeq i).Nodup
  queued : ∀ i p, p ∈ s.seg.freeq i → i < pmNqueues ∧ s.seg.size p = 2 ^ i ∧ 2 ^ i ∣ p
  managed : ∀ q < s.seg.npages, (s.seg.pages q).managed = true ↔ ∃ i, q ∈ s.seg.freeq i
  /-- The next allocation returns null or pages that are neither live nor reserved. -/
  alloc : ∀ k ≤ 15, ∃ r seg', pmAlloc s.seg (2 ^ k) = some (r, seg') ∧
    ∀ page, r = some page → seg'.size page = 2 ^ k ∧ page + 2 ^ k ≤ s.seg.npages ∧
      ∀ q, page ≤ q → q < page + 2 ^ k → (∀ p, ¬ LiveAt s p q) ∧ ¬ ReservedAt s q

def Tiled (s : State) : Prop := ∃ n, ∃ T : Tiling Kind n, Rep s.seg s.live T ∧ Settled T

section Owners

variable {s : State} (h : SegRep s.seg s.live T) {q : ℕ}
include h

lemma queuedAt_iff {b : ℕ × ℕ} : QueuedAt s b q ↔ T.owner q = some ⟨.free, b.2, b.1⟩ := by
  constructor
  · rintro ⟨hmem, hlow, hhigh⟩
    have ht := h.owner_of_mem hmem
    rw [h.size_of_owner ht] at hhigh
    exact T.whole ht q ⟨hlow, hhigh⟩
  · intro hq
    have ht := T.head_owner hq
    have hcov := T.covers hq
    rw [QueuedAt, h.size_of_owner ht]
    exact ⟨h.mem_of_owner ht, hcov⟩

lemma live_iff_owner {m : ℕ} :
    s.live q = some m ↔ ∃ k, m = 2 ^ k ∧ T.owner q = some ⟨.live, q, k⟩ := by
  by_cases hq : q < n
  · exact (h.page q hq).live_iff m
  have hnone := (h.outside q (by omega)).2
  constructor
  · intro hsome
    rw [hnone] at hsome
    cases hsome
  · rintro ⟨k, -, ht⟩
    exact absurd (T.lt ht) hq

lemma liveAt_iff : LiveAt s p q ↔ ∃ k, T.owner q = some ⟨.live, p, k⟩ := by
  constructor
  · rintro ⟨m, hm, hlow, hhigh⟩
    obtain ⟨k, rfl, ht⟩ := (live_iff_owner h).1 hm
    exact ⟨k, T.whole ht q ⟨hlow, hhigh⟩⟩
  · rintro ⟨k, hq⟩
    exact ⟨2 ^ k, (live_iff_owner h).2 ⟨k, rfl, T.head_owner hq⟩, T.covers hq⟩

lemma reservedAt_iff (hq : q < n) : ReservedAt s q ↔ T.owner q = none :=
  (h.page q hq).reserved_iff

lemma partition_of_rep (hs : Settled T) (hq : q < n) :
    ((∃! b, QueuedAt s b q) ∧ (∀ p, ¬ LiveAt s p q) ∧ ¬ ReservedAt s q) ∨
    ((∀ b, ¬ QueuedAt s b q) ∧ (∃! p, LiveAt s p q) ∧ ¬ ReservedAt s q) ∨
    ((∀ b, ¬ QueuedAt s b q) ∧ (∀ p, ¬ LiveAt s p q) ∧ ReservedAt s q) := by
  simp only [queuedAt_iff h, liveAt_iff h, reservedAt_iff h hq]
  cases ho : T.owner q with
  | none => exact .inr (.inr ⟨by simp, by simp, rfl⟩)
  | some t =>
    obtain ⟨kind, p, k⟩ := t
    cases kind with
    | free =>
      refine .inl ⟨⟨(k, p), rfl, fun b hb => ?_⟩, by simp, by simp⟩
      obtain ⟨hp, hk⟩ : p = b.2 ∧ k = b.1 := by simpa using hb
      rw [hp, hk]
    | live =>
      refine .inr (.inl ⟨by simp, ⟨p, ⟨k, rfl⟩, fun p' hp' => ?_⟩, by simp⟩)
      obtain ⟨k', hk'⟩ := hp'
      have := congrArg Tile.head (some.inj hk')
      exact this.symm
    | held => exact absurd rfl (hs q _ ho)

lemma safe_of_rep (hs : Settled T) : Safe s := by
  constructor
  · intro q hq
    exact partition_of_rep h hs (h.npages ▸ hq)
  · exact h.nodup
  · intro i p hp
    have ht := h.owner_of_mem hp
    exact ⟨h.free_lt ht, h.size_of_owner ht, T.aligned ht⟩
  · intro q hq
    have hpage := h.page q (h.npages ▸ hq)
    rw [hpage.managed_iff]
    exact exists_congr fun k => (hpage.queued_iff k).symm
  · intro k hk
    have hk' : k < pmNqueues := by
      simp only [pmNqueues]
      omega
    rcases pmAlloc_spec h hs hk' with hnull | ⟨_, page, seg', T', hrun, hrep, -, htook, -⟩
    · refine ⟨none, s.seg, hnull, fun page hpage => ?_⟩
      cases hpage
    refine ⟨some page, seg', hrun, fun page' hpage => ?_⟩
    cases hpage
    refine ⟨hrep.size_of_owner htook.owner, h.npages ▸ T'.inside htook.owner,
      fun q hlow hhigh => ?_⟩
    obtain ⟨⟨kind, p, j⟩, ht, rfl⟩ := T.kindAt_eq_some.1 (htook.free q ⟨hlow, hhigh⟩)
    rw [reservedAt_iff h (T.lt ht), ht]
    refine ⟨fun p' hp' => ?_, by simp⟩
    obtain ⟨k', hk'⟩ := (liveAt_iff h).1 hp'
    rw [ht] at hk'
    simp at hk'

end Owners

structure Effect (s : State) (op : Op) (T T' : Tiling Kind n) : Prop where
  canonical : T.Canonical .free → T'.Canonical .free
  /-- Only a free makes pages free, those of the block it is called with. -/
  free : ∀ q, T'.kindAt q = some .free →
    T.kindAt q = some .free ∨ ∃ p, op = .free p ∧ p ≤ q ∧ q < p + s.seg.size p
  reserved : (∀ start stop, op ≠ .reserve start stop) →
    ∀ q, T'.kindAt q = none ↔ T.kindAt q = none

lemma Effect.refl (s : State) (op : Op) (T : Tiling Kind n) : Effect s op T T :=
  ⟨id, fun _ => Or.inl, fun _ _ => Iff.rfl⟩

variable {s : State}

lemma Took.effect (op : Op) {j i page : ℕ} (h : Took s.seg seg' T T' j i page)
    (hi : s.seg.freeq i ≠ []) : Effect s op T T' where
  canonical hT := h.canonical _ (head?_eq_some_head hi) (hT.mono fun _ _ _ => False.elim)
  free q hq := by
    rw [h.kinds] at hq
    split_ifs at hq
    · cases hq
    · exact .inl hq
  reserved _ q := by
    rw [h.kinds]
    split_ifs with hq
    · simp [h.free q hq]
    · exact Iff.rfl

lemma Freed.effect {f : ℕ} (h : Freed s.seg seg' T T' p k f)
    (ht : T.owner p = some ⟨.live, p, k⟩) (hsize : s.seg.size p = 2 ^ k) :
    Effect s (.free p) T T' where
  canonical := h.canonical
  free q hq := by
    rw [h.kinds] at hq
    split_ifs at hq with hin
    · exact .inr ⟨p, rfl, hsize ▸ hin⟩
    · exact .inl hq
  reserved _ q := by
    rw [h.kinds]
    split_ifs with hq
    · simp [T.kindAt_of_owner (T.whole ht q hq)]
    · exact Iff.rfl

lemma Shrunk.effect {start stop m : ℕ} (h : Shrunk s.seg seg' T T' start stop m)
    (h' : SegRep seg' live T') (hclear : ∀ m < pmNqueues, Clear seg' start stop m) :
    Effect s (.reserve start stop) T T' where
  canonical := h.canonical h' hclear
  free q hq := by
    rcases h.kinds q with he | ⟨-, hnone⟩
    · exact .inl (he ▸ hq)
    · rw [hnone] at hq
      cases hq
  reserved hop := absurd rfl (hop start stop)

lemma Effect.halve {op : Op} (ht : T.owner p = some ⟨.live, p, k + 1⟩) :
    Effect s op T (T.split ht) where
  canonical hT := hT.of_subset fun q j hq => by
    obtain ⟨t, ho, hkind⟩ := T.kindAt_eq_some.1
      ((T.split_kindAt ht q).symm.trans ((T.split ht).kindAt_of_owner hq))
    rw [Tiling.split_owner] at hq
    split_ifs at hq with hc
    · rw [T.whole ht q hc] at ho
      cases ho
      cases hkind
    · exact hq
  free q hq := Or.inl (T.split_kindAt ht q ▸ hq)
  reserved _ q := by rw [T.split_kindAt ht]

lemma reserve_spec {start stop : ℕ} (h : SegRep s.seg s.live T) (hset : Settled T)
    (hop : Allowed s (.reserve start stop)) : ∃ seg', ∃ T' : Tiling Kind n,
      step s (.reserve start stop) = some ⟨seg', s.live⟩ ∧ SegRep seg' s.live T' ∧ Settled T' ∧
      Shrunk s.seg seg' T T' start stop pmNqueues ∧ (∀ m < pmNqueues, Clear seg' start stop m) ∧
      reserveQueues start stop pmNqueues s.seg = some seg' := by
  obtain ⟨hlt, hstart, hstop, hlow, hhigh⟩ := hop
  obtain ⟨seg', T', hrun, h', hset', hshrunk, hclear⟩ :=
    reserveQueues_spec pmNqueues h hset hlt hstart hstop
  refine ⟨seg', T', ?_, h', hset', hshrunk, hclear, hrun⟩
  simp [step, pmSegReserve, hlt, hstart, hstop, hlow, hhigh, hrun]

/-- Each operation refines its counterpart on the tiling. -/
lemma segStep_spec (s : State) (op : Op) (h : SegRep s.seg s.live T) (hset : Settled T)
    (hop : Allowed s op)
    (hpin : ∀ p k, ∀ ht : T.owner p = some ⟨.live, p, k⟩, op = .free p →
      Pinned (T.assign ⟨.live, p, k⟩ ht (some .held)) p) :
    ∃ t, ∃ T' : Tiling Kind n, step s op = some t ∧
      SegRep t.seg t.live T' ∧ Settled T' ∧ Effect s op T T' := by
  cases op with
  | reserve start stop =>
    obtain ⟨seg', T', hstep, h', hset', hshrunk, hclear, -⟩ := reserve_spec h hset hop
    exact ⟨⟨seg', s.live⟩, T', hstep, h', hset', hshrunk.effect h' hclear⟩
  | alloc npages =>
    obtain ⟨k, hk, rfl⟩ := hop
    have hk' : k < pmNqueues := by
      simp only [pmNqueues]
      omega
    rcases pmAlloc_spec h hset hk' with
      hnull | ⟨i, page, seg', T', hrun, h', hset', htook, -, hi, -⟩
    · exact ⟨s, T, by simp [step, hnull], h, hset, .refl ..⟩
    · exact ⟨⟨seg', update s.live page (some (2 ^ k))⟩, T', by simp [step, hrun], h',
        hset', htook.effect _ hi⟩
  | free page =>
    obtain ⟨m, hm⟩ := hop
    obtain ⟨k, -, ht⟩ := (live_iff_owner h).1 hm
    obtain ⟨seg', f, T', hrun, h', hset', hfreed⟩ := pmFree_spec h hset ht (hpin page k ht rfl)
    exact ⟨⟨seg', update s.live page none⟩, T', by simp [step, hrun], h', hset',
      hfreed.effect ht (h.size_of_owner ht)⟩
  | splitAlloc page =>
    obtain ⟨m, hm, hone⟩ := hop
    obtain ⟨k, rfl, ht⟩ := (live_iff_owner h).1 hm
    cases k with
    | zero => simp at hone
    | succ k =>
      have hhalf : 2 ^ (k + 1) / 2 = 2 ^ k := by
        rw [pow_succ, Nat.mul_div_cancel _ (by norm_num)]
      refine ⟨⟨halveSeg s.seg page k, halveLive s.live page k⟩, _, ?_, halveSeg_rep h ht,
        hset.split ht, .halve ht⟩
      simp [step, pmSplitAllocPage_eq h ht, hm, hhalf, halveLive]

lemma step_spec (s : State) (op : Op) (h : Rep s.seg s.live T) (hset : Settled T)
    (hop : Allowed s op) : ∃ t, ∃ T' : Tiling Kind n, step s op = some t ∧
      Rep t.seg t.live T' ∧ Settled T' ∧ Effect s op T T' := by
  have hsmall : n < 2 ^ pmNqueues := lt_of_le_of_lt h.small (by decide)
  obtain ⟨t, T', hstep, h', hset', heffect⟩ :=
    segStep_spec s op h.toSegRep hset hop fun p k _ _ => pinned_of_lt hsmall p
  exact ⟨t, T', hstep, ⟨h', h.small⟩, hset', heffect⟩

lemma tiled_step (s : State) (op : Op) (hs : Tiled s) (hop : Allowed s op) :
    ∃ t, step s op = some t ∧ Tiled t := by
  obtain ⟨n, T, h, hset⟩ := hs
  obtain ⟨t, T', hstep, h', hset', -⟩ := step_spec s op h hset hop
  exact ⟨t, hstep, n, T', h', hset'⟩

lemma single_settled (k : ℕ) : Settled (Tiling.single Kind.free k) := by
  intro q t hq
  simp only [Tiling.single] at hq
  split_ifs at hq
  cases hq
  simp

def boot (start k : ℕ) : Option State :=
  (pmSegInit start (start + pageSize * 2 ^ k)).map fun seg => ⟨seg, fun _ => none⟩

lemma boot_tiled {start : ℕ} (hk : k ≤ 15) (hstart : pageSize ∣ start) :
    ∃ s, boot start k = some s ∧ Tiled s := by
  refine ⟨⟨freshSeg start k, fun _ => none⟩, ?_, 2 ^ k, _, freshSeg_rep hk hstart,
    single_settled k⟩
  rw [boot, pmSegInit_eq hk hstart, map_some]

/-- Every sequence of allowed calls on an initialised segment of `2 ^ k` pages
passes all assertions, and every state reached is safe. -/
theorem buddy_safe (start k : ℕ) (hk : k ≤ 15) (hstart : pageSize ∣ start) :
    ∃ s, boot start k = some s ∧ ∀ ops, Meets step Allowed s ops →
      (∃ t, exec step s ops = some t) ∧ Always step Safe s ops := by
  obtain ⟨s, hboot, hs⟩ := boot_tiled hk hstart
  refine ⟨s, hboot, fun ops hops => ⟨exec_of_meets tiled_step hs hops, ?_⟩⟩
  refine (always_of_progress tiled_step hs hops).mono ?_
  rintro t ⟨n, T, h, hset⟩
  exact safe_of_rep h.toSegRep hset

/-- On four pages an allocation of one takes page 3, which is then freed. -/
theorem buddy_safe_alloc_free :
    ∃ s, boot 0 2 = some s ∧ (∃ t, exec step s [.alloc 1, .free 3] = some t) ∧
      Always step Safe s [.alloc 1, .free 3] := by
  obtain ⟨s, hboot, hrun⟩ := buddy_safe 0 2 (by decide) (dvd_zero _)
  have hlive : ((boot 0 2).bind fun s => step s (.alloc 1)).map (fun t => t.live 3) =
      some (some 1) := by decide +kernel
  rw [hboot] at hlive
  refine ⟨s, hboot, hrun _ (meets_cons.2 ⟨⟨0, by decide, rfl⟩, fun t ht => ?_⟩)⟩
  simp only [bind_some, ht, map_some, some.injEq] at hlive
  exact meets_cons.2 ⟨⟨1, hlive⟩, fun _ _ => meets_nil _ _ _⟩

end GzOS.PhysMem
