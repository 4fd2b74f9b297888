import GzOS.BuddyInvariant
import GzOS.DyadicDecomposition

/-!
# The operations on free and live blocks

Each operation, applied to a block of the represented tiling, passes its assertions and
yields a segment that represents the tiling with that block split, joined, handed out
or reserved.
-/
namespace GzOS.PhysMem
open DyadicTiling Seg List Function Nat

variable {n l k b p : ℕ} {seg : Seg} {live : ℕ → Option ℕ} {T : Tiling Kind n}

def splitSeg (seg : Seg) (p k : ℕ) : Seg :=
  ((((((seg.unlink (k + 1) p).setSize p (2 ^ k)).setSize (p + 2 ^ k) (2 ^ k)).insertHead k
    p).insertHead k (p + 2 ^ k)).setManaged (p + 2 ^ k) true)

lemma pmSplitPage_eq (h : SegRep seg live T) (ht : T.owner p = some ⟨.free, p, k + 1⟩) :
    pmSplitPage seg p = some (splitSeg seg p k) := by
  have hsize := h.size_of_owner ht
  have hmem := h.mem_of_owner ht
  have hlt := h.free_lt ht
  have hpos := Nat.two_pow_pos k
  have hhalf : 2 ^ (k + 1) / 2 = 2 ^ k := by omega
  have hbuddy : (seg.pages (p + 2 ^ k)).allocated = false := by
    have hcov : (⟨.free, p, k + 1⟩ : Tile Kind).Covers (p + 2 ^ k) := by
      constructor
      · show p ≤ p + 2 ^ k
        omega
      · show p + 2 ^ k < p + 2 ^ (k + 1)
        omega
    exact (h.page_of_owner (T.whole ht _ hcov)).not_allocated _ _ rfl
  have hone : 2 ^ (k + 1) > 1 := by omega
  have hne : seg.freeq (k + 1) ≠ [] := ne_nil_of_mem hmem
  have hk : queueOf (2 ^ k) = some k := queueOf_two_pow (by omega)
  simp only [pmSplitPage, hsize, hhalf, queueOf_two_pow hlt, hk, remove, hbuddy, hone, hne, hmem,
    ne_eq, Option.bind_eq_bind,  Option.bind_some]
  rfl

lemma splitSeg_pages (seg : Seg) (p k q : ℕ) :
    (q = p ∨ q = p + 2 ^ k → ((splitSeg seg p k).pages q).size = 2 ^ k) ∧
    (((splitSeg seg p k).pages q).managed ↔ q = p + 2 ^ k ∨ (seg.pages q).managed) ∧
    ((splitSeg seg p k).pages q).allocated = (seg.pages q).allocated ∧
    ((splitSeg seg p k).pages q).reserved = (seg.pages q).reserved := by
  simp only [splitSeg]
  by_cases hb : q = p + 2 ^ k
  · simp [hb]
  · by_cases hp : q = p
    · simp [hp]
    · simp [hb, hp]

lemma splitSeg_bounds (seg : Seg) (p k : ℕ) : (splitSeg seg p k).bounds = seg.bounds := by
  simp [splitSeg]

lemma mem_splitSeg (h : SegRep seg live T) (p k q j : ℕ) : q ∈ (splitSeg seg p k).freeq j ↔
    (j = k ∧ q = p + 2 ^ k) ∨ (j = k ∧ q = p) ∨ ¬ (j = k + 1 ∧ q = p) ∧ q ∈ seg.freeq j := by
  simp [splitSeg, mem_unlink _ _ _ _ _ (h.nodup j)]

lemma splitSeg_nodup (h : SegRep seg live T) (hhead : ∀ j, p ∈ seg.freeq j ↔ j = k + 1)
    (hmid : ∀ j, p + 2 ^ k ∉ seg.freeq j) (j : ℕ) : ((splitSeg seg p k).freeq j).Nodup := by
  have hrest := unlink_nodup seg (k + 1) p j (h.nodup j)
  apply insertHead_nodup
  · apply insertHead_nodup
    · exact hrest
    intro hj hin
    have := ((mem_unlink seg (k + 1) p p j (h.nodup j)).1 hin).2
    rw [hhead] at this
    omega
  · intro hj hin
    rw [mem_insertHead] at hin
    rcases hin with hin | hin
    · have hpos := Nat.two_pow_pos k
      omega
    · exact hmid j ((mem_unlink seg (k + 1) p (p + 2 ^ k) j (h.nodup j)).1 hin).2

lemma splitSeg_rep (h : SegRep seg live T) (ht : T.owner p = some ⟨.free, p, k + 1⟩) :
    SegRep (splitSeg seg p k) live (T.split ht) := by
  have hpos := Nat.two_pow_pos k
  have hpage := fun q hq => pageRep_free_iff.1 (h.page_of_owner (T.whole ht q hq))
  refine h.update (Tile.Covers (⟨Kind.free, p, k + 1⟩ : Tile Kind))
    (fun q hq => T.lt (T.whole ht q hq)) (splitSeg_bounds seg p k) ?_ ?_ ?_
    fun q u hq hu _ => h.split_order ht (by simp) hq hu
  · intro q hq
    have hp : q ≠ p ∧ q ≠ p + 2 ^ k := by
      simp only [Tile.Covers] at hq
      omega
    refine ⟨by simp [splitSeg, hp.1, hp.2], fun j => ?_, rfl, if_neg hq⟩
    rw [mem_splitSeg h]
    simp [hp.1, hp.2]
  · intro q hq
    obtain ⟨hqueue, hlive, hsize, hmanaged, halloc, hres⟩ := hpage q hq
    obtain ⟨hsize', hmanaged', halloc', hres'⟩ := splitSeg_pages seg p k q
    obtain ⟨head, howner, hhead⟩ := T.split_owner_half ht hq
    rw [howner]
    refine pageRep_free_iff.2 ⟨fun j => ?_, hlive, fun he => hsize' (hhead.1 he), ?_,
      halloc'.trans halloc, hres'.trans hres⟩
    · rw [mem_splitSeg h, hqueue]
      omega
    · rw [hmanaged', hmanaged]
      omega
  · refine splitSeg_nodup h (fun j => ?_) fun j hj => ?_
    · rw [(hpage p (Tile.covers_head _)).1 j]
      omega
    · have hmid := (hpage (p + 2 ^ k) ⟨by simp, by simp only; omega⟩).1 j
      rw [hmid] at hj
      omega

/-! Allocation. -/

def Settled (T : Tiling Kind n) : Prop := ∀ q t, T.owner q = some t → t.kind ≠ .held

lemma settled_iff : Settled T ↔ ∀ q, T.kindAt q ≠ some .held := by
  simp [Settled, T.kindAt_eq_some]

lemma Settled.split (hs : Settled T) {kind : Kind} (ht : T.owner p = some ⟨kind, p, k + 1⟩) :
    Settled (T.split ht) := by
  rw [settled_iff] at hs ⊢
  intro q
  rw [T.split_kindAt ht]
  exact hs q

lemma Settled.assign (hs : Settled T) {t : Tile Kind} (ht : T.owner t.head = some t)
    {kind : Option Kind} (hkind : kind ≠ some .held) : Settled (T.assign t ht kind) := by
  rw [settled_iff] at hs ⊢
  intro q
  rw [T.assign_kindAt]
  split_ifs
  · exact hkind
  · exact hs q

def takeSeg (seg : Seg) (j p : ℕ) : Seg :=
  ((seg.unlink j p).setManaged p false).mapBlock p (2 ^ j) fun pg => { pg with allocated := true }

variable {j q f : ℕ} {T1 : Tiling Kind n}

lemma takeSeg_rep (h : SegRep seg live T) (ht : T.owner p = some ⟨.free, p, j⟩) :
    SegRep (takeSeg seg j p) (update live p (some (2 ^ j)))
      (T.assign ⟨.free, p, j⟩ ht (some .live)) := by
  refine h.update (Tile.Covers (⟨Kind.free, p, j⟩ : Tile Kind))
    (fun q hq => T.lt (T.whole ht q hq)) (by simp [takeSeg]) ?_ ?_ ?_
    fun q u hq hu _ => assign_order ht hq hu ▸ h.free_lt ht
  · intro q hq
    have hp : q ≠ p := Tile.ne_head hq
    refine ⟨?_, fun i => ?_, update_of_ne hp _ _, if_neg hq⟩
    · simp only [Tile.Covers] at hq
      simp [takeSeg, hq, hp]
    · simp [takeSeg, mem_unlink _ _ _ _ _ (h.nodup i), hp]
  · intro q hq
    obtain ⟨hqueue, hlive, hsize, hmanaged, halloc, hres⟩ :=
      pageRep_free_iff.1 (h.page_of_owner (T.whole ht q hq))
    rw [Tiling.assign_owner, if_pos hq]
    simp only [Tile.Covers] at hq
    refine pageRep_live_iff.2 ⟨fun i => ?_, ?_, ?_, ?_, ?_, ?_⟩
    · simp only [takeSeg, mapBlock_freeq, setManaged_freeq]
      rw [mem_unlink _ _ _ _ _ (h.nodup i), hqueue]
      omega
    · by_cases hp : p = q
      · subst hp
        simp
      · simp [hp, Ne.symm hp, hlive]
    · rintro rfl
      simp [takeSeg, hsize]
    · by_cases hp : q = p
      · subst hp
        simp [takeSeg]
      have hfalse : (seg.pages q).managed = false := by
        rw [← Bool.not_eq_true, hmanaged]
        exact Ne.symm hp
      simp [takeSeg, hq, hp, hfalse]
    · simp [takeSeg, hq]
    · by_cases hp : q = p
      · subst hp
        simp [takeSeg, hres]
      · simp [takeSeg, hq, hp, hres]
  · intro i
    exact unlink_nodup seg j p i (h.nodup i)

/-- It took `2 ^ j` pages at `page` out of the first block of queue `i`. -/
structure Took (seg seg' : Seg) (T T' : Tiling Kind n) (j i page : ℕ) : Prop where
  start : seg'.start = seg.start
  owner : T'.owner page = some ⟨.live, page, j⟩
  kinds : ∀ q, T'.kindAt q = if q ∈ block page j then some .live else T.kindAt q
  free : ∀ q ∈ block page j, T.kindAt q = some .free
  canonical : ∀ h, (seg.freeq i).head? = some h →
    T.Coalesced .free (fun p k => p = h ∧ k = i) → T'.Canonical .free
  top : seg'.freeq i = (seg.freeq i).tail
  others : ∀ m, m < j ∨ i < m → seg'.freeq m = seg.freeq m
  halves : ∀ m, j ≤ m → m < i → ∃ x, seg'.freeq m = x :: seg.freeq m

lemma Took.take (ht : T.owner p = some ⟨.free, p, k⟩) (hp : (seg.freeq k).head? = some p) :
    Took seg (takeSeg seg k p) T (T.assign ⟨.free, p, k⟩ ht (some .live)) k k p where
  start := rfl
  owner := by
    rw [Tiling.assign_owner, if_pos (Tile.covers_head _)]
    rfl
  kinds q := T.assign_kindAt _ ht _ q
  free q hq := T.kindAt_of_owner (T.whole ht q hq)
  canonical h hh hT := by
    obtain rfl : p = h := Option.some.inj (hp.symm.trans hh)
    refine hT.assign ht (by simp) fun q j hq he => ?_
    exact Tile.ne_head hq he.1
  top := by
    obtain ⟨rest, hrest⟩ := head?_eq_some_iff.1 hp
    simp [takeSeg, unlink_freeq, hrest]
  others m hm := by
    have hne : m ≠ k := by omega
    simp [takeSeg, unlink_freeq, hne]
  halves m hlow hhigh := by omega

variable {seg' : Seg} {T' : Tiling Kind n} {fuel : ℕ}

lemma Took.split {page h : ℕ} (ht : T.owner h = some ⟨.free, h, k + 1⟩)
    (hh : (seg.freeq (k + 1)).head? = some h) (hj : j ≤ k)
    (hT' : Took (splitSeg seg h k) seg' (T.split ht) T' j k page) :
    Took seg seg' T T' j (k + 1) page where
  start := hT'.start.trans (start_of_bounds (splitSeg_bounds seg h k))
  owner := hT'.owner
  kinds q := by rw [hT'.kinds, T.split_kindAt ht]
  free q hq := by rw [← T.split_kindAt ht, hT'.free q hq]
  canonical h' hh' hT := by
    obtain rfl : h = h' := Option.some.inj (hh.symm.trans hh')
    refine hT'.canonical (h + 2 ^ k) (by simp [splitSeg, insertHead_freeq]) ?_
    refine hT.split ht (.inr ⟨rfl, rfl⟩) fun q i hq he => ?_
    exact absurd he.1 (Tile.ne_head hq)
  top := by
    obtain ⟨rest, hrest⟩ := head?_eq_some_iff.1 hh
    rw [hT'.others (k + 1) (by omega)]
    simp [splitSeg, insertHead_freeq, unlink_freeq, hrest]
  others m hm := by
    have hne : m ≠ k ∧ m ≠ k + 1 := by omega
    rw [hT'.others m (by omega)]
    simp [splitSeg, insertHead_freeq, unlink_freeq, hne.1, hne.2]
  halves m hlow hhigh := by
    by_cases hm : m = k
    · subst hm
      rw [hT'.top]
      simp [splitSeg, insertHead_freeq, unlink_freeq]
    · have hne : m ≠ k + 1 := by omega
      obtain ⟨x, hx⟩ := hT'.halves m hlow (by omega)
      refine ⟨x, ?_⟩
      rw [hx]
      simp [splitSeg, insertHead_freeq, unlink_freeq, hm, hne]

lemma allocSplit_spec (j d : ℕ) (h : SegRep seg live T) (hs : Settled T)
    (hp : (seg.freeq (j + d)).head? = some p) :
    ∃ page seg', ∃ T' : Tiling Kind n, allocSplit j d seg = some (page, seg') ∧
      SegRep seg' (update live page (some (2 ^ j))) T' ∧ Settled T' ∧
      Took seg seg' T T' j (j + d) page := by
  induction d generalizing seg T p with
  | zero =>
    have hmem := mem_of_mem_head? hp
    have ht := h.owner_of_mem hmem
    refine ⟨p, takeSeg seg j p, _, ?_, takeSeg_rep h ht, hs.assign ht (by simp), .take ht hp⟩
    have hsize : ((seg.unlink j p).setManaged p false).size p = 2 ^ j := by
      simpa [Seg.size] using h.size_of_owner ht
    simp only [allocSplit, add_zero] at hp hmem ⊢
    simp [hp, remove, hmem, hsize, takeSeg]
  | succ d ih =>
    have ht := h.owner_of_mem (mem_of_mem_head? hp)
    have hhead : ((splitSeg seg p (j + d)).freeq (j + d)).head? = some (p + 2 ^ (j + d)) := by
      simp [splitSeg, insertHead_freeq]
    obtain ⟨page, seg', T', hrun, hrep, hset, htook⟩ :=
      ih (splitSeg_rep h ht) (hs.split ht) hhead
    refine ⟨page, seg', T', ?_, hrep, hset, .split ht hp (le_add_right j d) htook⟩
    rw [allocSplit, hp]
    simp only [Option.bind_eq_bind, Option.bind_some]
    rw [pmSplitPage_eq h ht, Option.bind_some, hrun]

lemma pmAlloc_spec (h : SegRep seg live T) (hs : Settled T) (hk : k < pmNqueues) :
    pmAlloc seg (2 ^ k) = some (none, seg) ∨
    ∃ i page seg', ∃ T' : Tiling Kind n, pmAlloc seg (2 ^ k) = some (some page, seg') ∧
      SegRep seg' (update live page (some (2 ^ k))) T' ∧ Settled T' ∧
      Took seg seg' T T' k i page ∧ k ≤ i ∧ seg.freeq i ≠ [] ∧
      ∀ m, k ≤ m → m < i → seg.freeq m = [] := by
  have hguard : pmAlloc seg (2 ^ k) = pmAllocFromSeg seg (2 ^ k) := by
    simp [pmAlloc, powerof2_two_pow]
  have hlog : log2 (2 ^ k) = k := log2_two_pow (lt_trans hk (by decide))
  rw [hguard]
  unfold pmAllocFromSeg
  simp only [hlog]
  cases hfind : (range' k (pmNqueues - k)).find? fun i => decide (seg.freeq i ≠ []) with
  | none => exact .inl rfl
  | some i =>
    have hi : k ≤ i := (mem_range'_1.1 (mem_of_find?_eq_some hfind)).1
    have hne : seg.freeq i ≠ [] := by simpa using find?_some hfind
    have hempty : ∀ m, k ≤ m → m < i → seg.freeq m = [] := fun m hlow hhigh => by
      simpa using (find?_range'_eq_some.1 hfind).2.2 m hlow hhigh
    have hhead : (seg.freeq (k + (i - k))).head? = some ((seg.freeq i).head hne) := by
      rw [Nat.add_sub_cancel' hi, head?_eq_some_head hne]
    obtain ⟨page, seg', T', hrun, hrep, hset, htook⟩ := allocSplit_spec k (i - k) h hs hhead
    rw [Nat.add_sub_cancel' hi] at htook
    refine .inr ⟨i, page, seg', T', ?_, hrep, hset, htook, hi, hne, hempty⟩
    simp [hrun]

/-! Freeing. -/

lemma hold_rep (h : SegRep seg live T) (ht : T.owner p = some ⟨.live, p, k⟩) :
    SegRep seg (update live p none) (T.assign ⟨.live, p, k⟩ ht (some .held)) := by
  refine h.update (Tile.Covers (⟨Kind.live, p, k⟩ : Tile Kind))
    (fun q hq => T.lt (T.whole ht q hq)) rfl ?_ ?_ h.nodup
    fun q u hq hu _ => assign_order ht hq hu ▸ h.live_lt ht
  · intro q hq
    have hp : q ≠ p := Tile.ne_head hq
    exact ⟨rfl, fun _ => Iff.rfl, update_of_ne hp _ _, if_neg hq⟩
  · intro q hq
    obtain ⟨hqueue, hlive, hsize, hmanaged, -, hres⟩ :=
      pageRep_live_iff.1 (h.page_of_owner (T.whole ht q hq))
    rw [Tiling.assign_owner, if_pos hq]
    refine pageRep_held_iff.2 ⟨hqueue, ?_, hsize, hmanaged, hres⟩
    by_cases hp : p = q
    · subst hp
      simp
    · simp [hp, Ne.symm hp, hlive]

def releaseSeg (seg : Seg) (k p : ℕ) : Seg :=
  ((seg.insertHead k p).setManaged p true).mapBlock p (2 ^ k) fun pg =>
    { pg with allocated := false }

lemma releaseSeg_rep (h : SegRep seg live T) (ht : T.owner p = some ⟨.held, p, k⟩)
    (hk : k < pmNqueues) :
    SegRep (releaseSeg seg k p) live (T.assign ⟨.held, p, k⟩ ht (some .free)) := by
  refine h.update (Tile.Covers (⟨Kind.held, p, k⟩ : Tile Kind))
    (fun q hq => T.lt (T.whole ht q hq)) (by simp [releaseSeg]) ?_ ?_ ?_
    fun q u hq hu _ => assign_order ht hq hu ▸ hk
  · intro q hq
    have hp : q ≠ p := Tile.ne_head hq
    refine ⟨?_, fun i => ?_, rfl, if_neg hq⟩
    · simp only [Tile.Covers] at hq
      simp [releaseSeg, hq, hp]
    · simp [releaseSeg, hp]
  · intro q hq
    obtain ⟨hqueue, hlive, hsize, hmanaged, hres⟩ :=
      pageRep_held_iff.1 (h.page_of_owner (T.whole ht q hq))
    have ho : (T.assign ⟨.held, p, k⟩ ht (some .free)).owner q = some ⟨.free, p, k⟩ := if_pos hq
    rw [ho]
    simp only [Tile.Covers] at hq
    refine pageRep_free_iff.2 ⟨fun i => ?_, hlive, ?_, ?_, ?_, ?_⟩
    · simp only [releaseSeg, mapBlock_freeq, setManaged_freeq, mem_insertHead, hqueue, or_false]
      omega
    · rintro rfl
      simp [releaseSeg, hsize]
    · by_cases hp : q = p
      · subst hp
        simp [releaseSeg]
      · simp [releaseSeg, hq, hp, hmanaged, Ne.symm hp]
    · simp [releaseSeg, hq]
    · by_cases hp : q = p
      · subst hp
        simp [releaseSeg, hres]
      · simp [releaseSeg, hq, hp, hres]
  · intro i
    apply insertHead_nodup _ _ _ _ (h.nodup i)
    intro _ hin
    exact (pageRep_held_iff.1 (h.page_of_owner ht)).1 i hin

/-- The merge with the free buddy `b`; `l` heads the merged block. -/
def mergeSeg (seg : Seg) (k b l : ℕ) : Seg :=
  ((seg.unlink k b).setManaged b false).setSize l (2 ^ (k + 1))

structure Mergeable (T : Tiling Kind n) (l k b p : ℕ) : Prop where
  aligned : 2 ^ (k + 1) ∣ l
  free : T.owner b = some ⟨.free, b, k⟩
  held : T.owner p = some ⟨.held, p, k⟩
  sides : (p = l ∧ b = l + 2 ^ k) ∨ (b = l ∧ p = l + 2 ^ k)

lemma Mergeable.join (hm : Mergeable T l k b p) : ∃ T' : Tiling Kind n, ∀ q, T'.owner q =
    if Tile.Covers (⟨.held, l, k + 1⟩ : Tile Kind) q then some ⟨.held, l, k + 1⟩
    else T.owner q := by
  rcases hm.sides with ⟨rfl, rfl⟩ | ⟨rfl, rfl⟩
  · exact ⟨T.join .held hm.held hm.free hm.aligned, fun q => rfl⟩
  · exact ⟨T.join .held hm.free hm.held hm.aligned, fun q => rfl⟩

lemma Mergeable.owner (hm : Mergeable T l k b p) (hlow : l ≤ q) (hhigh : q < l + 2 ^ (k + 1)) :
    T.owner q = some ⟨.free, b, k⟩ ∨ T.owner q = some ⟨.held, p, k⟩ := by
  by_cases hb : b ≤ q ∧ q < b + 2 ^ k
  · exact .inl (T.whole hm.free q hb)
  refine .inr (T.whole hm.held q ?_)
  have := hm.sides
  simp only [Tile.Covers]
  omega

lemma mergeSeg_pages (seg : Seg) (k b l q : ℕ) :
    (l = q → ((mergeSeg seg k b l).pages q).size = 2 ^ (k + 1)) ∧
    (((mergeSeg seg k b l).pages q).managed → q ≠ b ∧ (seg.pages q).managed) ∧
    ((mergeSeg seg k b l).pages q).reserved = (seg.pages q).reserved := by
  simp only [mergeSeg, setSize_pages, setManaged_pages]
  split_ifs with hl hb hb
  · simp
  · simp [hb]
  · simp [Ne.symm hl]
  · simp [Ne.symm hl, hb]

lemma mergeSeg_rep (h : SegRep seg live T) (hm : Mergeable T l k b p) (hT' : ∀ q, T'.owner q =
      if Tile.Covers (⟨.held, l, k + 1⟩ : Tile Kind) q then some ⟨.held, l, k + 1⟩
      else T.owner q) : SegRep (mergeSeg seg k b l) live T' := by
  have hpos := Nat.two_pow_pos k
  have hsides := hm.sides
  refine h.update (Tile.Covers (⟨Kind.held, l, k + 1⟩ : Tile Kind)) ?_ (by simp [mergeSeg])
    ?_ ?_ ?_ ?_
  · intro q hq
    rcases hm.owner hq.1 hq.2 with ho | ho
    · exact T.lt ho
    · exact T.lt ho
  · intro q hq
    have hne : q ≠ b ∧ q ≠ l := by
      simp only [Tile.Covers] at hq
      omega
    refine ⟨by simp [mergeSeg, hne.1, hne.2], fun i => ?_, rfl, by rw [hT', if_neg hq]⟩
    simp [mergeSeg, mem_unlink _ _ _ _ _ (h.nodup i), hne.1]
  · intro q hq
    rw [hT', if_pos hq]
    obtain ⟨hsize', hmanaged', hres'⟩ := mergeSeg_pages seg k b l q
    have hmem : ∀ i, q ∈ (mergeSeg seg k b l).freeq i ↔ ¬ (i = k ∧ q = b) ∧ q ∈ seg.freeq i :=
      fun i => mem_unlink seg k b q i (h.nodup i)
    rcases hm.owner hq.1 hq.2 with ho | ho
    · obtain ⟨hqueue, hlive, -, hmanaged, -, hres⟩ := pageRep_free_iff.1 (h.page_of_owner ho)
      refine pageRep_held_iff.2 ⟨fun i => ?_, hlive, hsize', ?_, hres'.trans hres⟩
      · rw [hmem, hqueue]
        omega
      rw [← Bool.not_eq_true]
      intro hm'
      obtain ⟨hne, hold⟩ := hmanaged' hm'
      exact hne (hmanaged.1 hold).symm
    · obtain ⟨hqueue, hlive, -, hmanaged, hres⟩ := pageRep_held_iff.1 (h.page_of_owner ho)
      refine pageRep_held_iff.2 ⟨fun i => ?_, hlive, hsize', ?_, hres'.trans hres⟩
      · rw [hmem]
        exact fun hin => hqueue i hin.2
      rw [← Bool.not_eq_true]
      intro hm'
      rw [(hmanaged' hm').2] at hmanaged
      cases hmanaged
  · intro i
    exact unlink_nodup seg k b i (h.nodup i)
  · -- the merged block is the one without a bound
    intro q u hq hu hkind
    rw [hT', if_pos hq] at hu
    exact absurd (congrArg Tile.kind (Option.some.inj hu)).symm hkind

lemma Mergeable.unique (hm : Mergeable T l k b p) {l' b' : ℕ} (hl' : 2 ^ (k + 1) ∣ l')
    (hsides : (p = l' ∧ b' = l' + 2 ^ k) ∨ (b' = l' ∧ p = l' + 2 ^ k)) : b = b' := by
  rcases hm.sides with ⟨rfl, rfl⟩ | ⟨rfl, hp⟩
  · rcases hsides with ⟨rfl, rfl⟩ | ⟨rfl, hp'⟩
    · rfl
    · exact absurd hp' (upper_not_aligned hl' hm.aligned)
  · rcases hsides with ⟨rfl, rfl⟩ | ⟨rfl, hp'⟩
    · exact absurd hp (upper_not_aligned hm.aligned hl')
    · omega

/-- The code finds a buddy exactly if the tiling has a free one of the same order. -/
lemma pmFindBuddy_spec (h : SegRep seg live T) (ht : T.owner p = some ⟨.held, p, k⟩) :
    (pmFindBuddy seg p = some none ∧ ∀ b l, ¬Mergeable T l k b p) ∨
      ∃ b l, pmFindBuddy seg p = some (some b) ∧ Mergeable T l k b p := by
  have hsize := h.size_of_owner ht
  have hal : 2 ^ k ∣ p := T.aligned ht
  have hpow : 2 * 2 ^ k = 2 ^ (k + 1) := by ring
  -- a page found by the checks heads a free block of the same size
  have hfound : ∀ b, b < n → seg.size b = 2 ^ k → (seg.pages b).managed →
      T.owner b = some ⟨.free, b, k⟩ := by
    intro b hb hsb hmb
    obtain ⟨j, hj⟩ := (h.page b hb).managed_iff.1 hmb
    have hsj := h.size_of_owner hj
    rw [hsb] at hsj
    rwa [Nat.pow_right_injective le_rfl hsj]
  obtain ⟨b, l, hindex, haligned, hsides⟩ : ∃ b l : ℕ,
      (if p % (2 * 2 ^ k) = 0 then (p : ℤ) + (2 ^ k : ℕ) else (p : ℤ) - (2 ^ k : ℕ)) = b ∧
      2 ^ (k + 1) ∣ l ∧ ((p = l ∧ b = l + 2 ^ k) ∨ (b = l ∧ p = l + 2 ^ k)) := by
    rw [hpow]
    split_ifs with heven
    · exact ⟨p + 2 ^ k, p, by push_cast; rfl, dvd_of_mod_eq_zero heven, .inl ⟨rfl, rfl⟩⟩
    · obtain ⟨hle, hdvd⟩ := upper_half hal heven
      refine ⟨p - 2 ^ k, p - 2 ^ k, ?_, hdvd, .inr ⟨rfl, by omega⟩⟩
      rw [cast_sub hle]
  -- and what is free passes the checks
  have hpasses : ∀ b' l', Mergeable T l' k b' p →
      b < n ∧ seg.size b = 2 ^ k ∧ (seg.pages b).managed = true := by
    intro b' l' hm
    obtain rfl := hm.unique haligned hsides
    exact ⟨T.lt hm.free, h.size_of_owner hm.free, (h.page_of_owner hm.free).managed_iff.2 ⟨k, rfl⟩⟩
  simp only [pmFindBuddy, hsize, powerof2_two_pow, guard, if_true, hindex, h.npages,
    Int.toNat_natCast, Option.pure_def, Option.bind_eq_bind, Option.bind_some, ne_eq]
  by_cases hrange : (b : ℤ) < 0 ∨ (b : ℤ) ≥ n
  · refine .inl ⟨if_pos hrange, fun b' l' hm => ?_⟩
    have := (hpasses b' l' hm).1
    omega
  · by_cases hsb : seg.size b = 2 ^ k
    · by_cases hmb : (seg.pages b).managed = false
      · refine .inl ⟨?_, fun b' l' hm => ?_⟩
        · simp [if_pos hmb]
        · rw [(hpasses b' l' hm).2.2] at hmb
          cases hmb
      · refine .inr ⟨b, l, ?_, haligned, ?_, ht, hsides⟩
        · simp only [if_neg hrange, hsb, not_true_eq_false, if_false, if_neg hmb]
        · exact hfound b (by omega) hsb (by simpa using hmb)
    · refine .inl ⟨?_, fun b' l' hm => hsb (hpasses b' l' hm).2.1⟩
      simp [if_pos hsb]

def Kind.settle : Kind → Kind
  | .held => .free
  | kind => kind

def HeldOnly (T : Tiling Kind n) (p k : ℕ) : Prop :=
  ∀ q t, T.owner q = some t → t.kind = .held → t = ⟨.held, p, k⟩

def mergeWith (seg : Seg) (page buddy : ℕ) : Option (ℕ × Seg) := do
  let i ← queueOf (seg.size buddy)
  let removed ← seg.remove i buddy
  pmMergeBuddies (removed.setManaged buddy false) page buddy

lemma mergeWith_eq (h : SegRep seg live T) (hm : Mergeable T l k b p) :
    mergeWith seg p b = some (l, mergeSeg seg k b l) := by
  have hsb := h.size_of_owner hm.free
  have hsp := h.size_of_owner hm.held
  have hmem := h.mem_of_owner hm.free
  have hqueue := queueOf_two_pow (h.free_lt hm.free)
  have hmin : min p b = l ∧ max p b = l + 2 ^ k := by
    rcases hm.sides with ⟨rfl, rfl⟩ | ⟨rfl, rfl⟩
    · exact ⟨by omega, by omega⟩
    · exact ⟨by omega, by omega⟩
  have hsize : ∀ q, ((seg.unlink k b).setManaged b false).size q = seg.size q := by
    intro q
    by_cases hq : q = b <;> simp [Seg.size, hq]
  have hsl : seg.size l = 2 ^ k := by
    rcases hm.sides with ⟨rfl, -⟩ | ⟨rfl, -⟩
    · exact hsp
    · exact hsb
  have hdouble : 2 ^ k * 2 = 2 ^ (k + 1) := (pow_succ 2 k).symm
  simp only [mergeWith, hsb, hqueue, remove, hmem, pmMergeBuddies, hsize, hsp, hsl, hmin.1,  hmin.2,
    if_true, Option.bind_eq_bind, Option.bind_some]
  rfl

lemma freeLoop_merge (hfind : pmFindBuddy seg p = some (some b)) :
    freeLoop (fuel + 1) seg p =
      (mergeWith seg p b).bind fun merged => freeLoop fuel merged.2 merged.1 := by
  simp [freeLoop, hfind, mergeWith, Option.bind_assoc]

lemma freeLoop_done (h : SegRep seg live T) (ht : T.owner p = some ⟨.held, p, k⟩)
    (hk : k < pmNqueues) (hfind : pmFindBuddy seg p = some none) :
    freeLoop (fuel + 1) seg p = some (releaseSeg seg k p) := by
  have hsp := h.size_of_owner ht
  have hqueue := queueOf_two_pow hk
  have hsize : ((seg.insertHead k p).setManaged p true).size p = 2 ^ k := by
    simpa [Seg.size] using hsp
  simp only [freeLoop, hfind, hsp, hqueue, hsize, Option.bind_eq_bind, Option.bind_some]
  rfl

/-- Freeing `2 ^ k` pages takes neighbours out of the queues below `f` and puts the merged
block in front of queue `f`. -/
structure Requeued (seg seg' : Seg) (k f : ℕ) : Prop where
  start : seg'.start = seg.start
  le : k ≤ f
  top : ∃ x, seg'.freeq f = x :: seg.freeq f
  others : ∀ m, m < k ∨ f < m → seg'.freeq m = seg.freeq m
  merged : ∀ m, k ≤ m → m < f → ∃ x, seg'.freeq m = (seg.freeq m).erase x

structure Gave (seg seg' : Seg) (T T' : Tiling Kind n) (k f : ℕ) : Prop
    extends Requeued seg seg' k f where
  kinds : ∀ q, T'.kindAt q = (T.kindAt q).map Kind.settle
  canonical : T.Canonical .free → T'.Canonical .free

lemma Gave.release (ht : T.owner p = some ⟨.held, p, k⟩) (hheld : HeldOnly T p k)
    (hno : ∀ b l, ¬Mergeable T l k b p) :
    Gave seg (releaseSeg seg k p) T (T.assign ⟨.held, p, k⟩ ht (some .free)) k k where
  start := rfl
  kinds q := by
    rw [T.assign_kindAt]
    split_ifs with hq
    · rw [T.kindAt_of_owner (T.whole ht q hq)]
      rfl
    cases hk : T.kindAt q with
    | none => rfl
    | some kind =>
      cases kind with
      | held =>
        obtain ⟨t, ho, hkind⟩ := T.kindAt_eq_some.1 hk
        obtain rfl := hheld q t ho hkind
        exact absurd (T.covers ho) hq
      | free => rfl
      | live => rfl
  canonical hT := by
    refine hT.fill ht (fun hp hfree => ?_) fun l hl hp hfree => ?_
    · exact hno _ p ⟨hp, hfree, ht, .inl ⟨rfl, rfl⟩⟩
    · exact hno l l ⟨hl, hfree, ht, .inr ⟨rfl, hp⟩⟩
  le := le_rfl
  top := ⟨p, by simp [releaseSeg, insertHead_freeq]⟩
  others m hm := by
    have hne : m ≠ k := by omega
    simp [releaseSeg, insertHead_freeq, hne]
  merged m hlow hhigh := by omega

lemma Gave.merge (hm : Mergeable T l k b p) (hT1 : ∀ q, T1.owner q =
      if Tile.Covers (⟨.held, l, k + 1⟩ : Tile Kind) q then some ⟨.held, l, k + 1⟩
      else T.owner q) (hg : Gave (mergeSeg seg k b l) seg' T1 T' (k + 1) f) :
    Gave seg seg' T T' k f where
  start := hg.start
  kinds q := by
    rw [hg.kinds, Tiling.kindAt, hT1]
    split_ifs with hq
    · -- the merged pages were free or held
      rcases hm.owner hq.1 hq.2 with ho | ho
      · rw [T.kindAt_of_owner ho]
        rfl
      · rw [T.kindAt_of_owner ho]
        rfl
    · rfl
  canonical hT := by
    refine hg.canonical (hT.of_subset fun q j hq => ?_)
    rw [hT1] at hq
    split_ifs at hq
    · simp at hq
    · exact hq
  le := (le_succ k).trans hg.le
  top := by
    have hne : f ≠ k := by
      have := hg.le
      omega
    simpa [mergeSeg, unlink_freeq, hne] using hg.top
  others m hm' := by
    have hle := hg.le
    have hne : m ≠ k := by omega
    rw [hg.others m (by omega)]
    simp [mergeSeg, unlink_freeq, hne]
  merged m hlow hhigh := by
    by_cases hmk : m = k
    · subst hmk
      refine ⟨b, ?_⟩
      rw [hg.others m (by omega)]
      simp [mergeSeg, unlink_freeq]
    · have := hg.merged m (by omega) hhigh
      simpa [mergeSeg, unlink_freeq, hmk] using this

def Pinned (T : Tiling Kind n) (p : ℕ) : Prop :=
  ∃ q, q / 2 ^ pmNqueues = p / 2 ^ pmNqueues ∧ T.kindAt q ≠ some .free ∧ T.kindAt q ≠ some .held

lemma pinned_of_lt (hn : n < 2 ^ pmNqueues) (p : ℕ) : Pinned T p := by
  have hpos := Nat.two_pow_pos pmNqueues
  have hnone : ∀ q, n ≤ q → T.kindAt q = none := fun q hq => by
    rw [T.kindAt_eq_none]
    cases ho : T.owner q with
    | none => rfl
    | some t => exact absurd (T.lt ho) (by omega)
  refine ⟨p / 2 ^ pmNqueues * 2 ^ pmNqueues + (2 ^ pmNqueues - 1), ?_, ?_⟩
  · have hlast : (2 ^ pmNqueues - 1) / 2 ^ pmNqueues = 0 := Nat.div_eq_of_lt (by omega)
    rw [Nat.mul_comm, Nat.mul_add_div hpos, hlast, Nat.add_zero]
  · rw [hnone _ (by omega)]
    simp

lemma Mergeable.kindAt (hm : Mergeable T l k b p) (hq : q ∈ block l (k + 1)) :
    T.kindAt q = some .free ∨ T.kindAt q = some .held :=
  (hm.owner hq.1 hq.2).imp T.kindAt_of_owner T.kindAt_of_owner

lemma Mergeable.mem_block (hm : Mergeable T l k b p) : p ∈ block l (k + 1) := by
  have hpos := Nat.two_pow_pos k
  have hsides := hm.sides
  rw [DyadicTiling.mem_block]
  omega

/-- A merge loop that does not run past the last queue: the held block is the only one. -/
structure Merging (T : Tiling Kind n) (p k : ℕ) : Prop where
  owner : T.owner p = some ⟨.held, p, k⟩
  lt : k < pmNqueues
  pinned : Pinned T p
  only : HeldOnly T p k

lemma Merging.lt_of_mergeable (h : Merging T p k) (hm : Mergeable T l k b p) :
    k + 1 < pmNqueues := by
  rcases lt_or_eq_of_le (succ_le_of_lt h.lt) with hlt | heq
  · exact hlt
  obtain ⟨q, hq, hfree, hheld⟩ := h.pinned
  rw [← heq] at hq
  have hin : q ∈ block l (k + 1) := by
    rw [mem_block_iff_div hm.aligned]
    exact hq.trans ((mem_block_iff_div hm.aligned).1 hm.mem_block)
  rcases hm.kindAt hin with hkind | hkind
  · exact absurd hkind hfree
  · exact absurd hkind hheld

lemma Merging.step (h : Merging T p k) (hm : Mergeable T l k b p) (hT1 : ∀ q, T1.owner q =
      if Tile.Covers (⟨.held, l, k + 1⟩ : Tile Kind) q then some ⟨.held, l, k + 1⟩
      else T.owner q) : Merging T1 l (k + 1) where
  owner := by rw [hT1, if_pos (Tile.covers_head _)]
  lt := h.lt_of_mergeable hm
  pinned := by
    obtain ⟨q, hq, hfree, hheld⟩ := h.pinned
    have hout : ¬ Tile.Covers (⟨.held, l, k + 1⟩ : Tile Kind) q := fun hin =>
      (hm.kindAt hin).elim hfree hheld
    have hsame : T1.kindAt q = T.kindAt q := by
      rw [Tiling.kindAt, hT1, if_neg hout]
      rfl
    have hle := (h.lt_of_mergeable hm).le
    refine ⟨q, hq.trans (div_eq_of_mem_block hm.aligned hle hm.mem_block), ?_⟩
    rw [hsame]
    exact ⟨hfree, hheld⟩
  only q t hq hkind := by
    rw [hT1] at hq
    split_ifs at hq with hc
    · exact (Option.some.inj hq).symm
    obtain rfl := h.only q t hq hkind
    have hcov := T.covers hq
    have hsides := hm.sides
    simp only [Tile.Covers] at hcov hc
    omega

lemma freeLoop_spec (h : SegRep seg live T) (ht : Merging T p k) (hfuel : n < 2 ^ k + fuel) :
    ∃ seg' f, ∃ T' : Tiling Kind n, freeLoop fuel seg p = some seg' ∧ SegRep seg' live T' ∧
      Gave seg seg' T T' k f := by
  induction fuel generalizing seg T p k with
  | zero =>
    have hin : p + 2 ^ k ≤ n := T.inside ht.owner
    omega
  | succ fuel ih =>
    rcases pmFindBuddy_spec h ht.owner with ⟨hfind, hno⟩ | ⟨b, l, hfind, hm⟩
    · exact ⟨_, k, _, freeLoop_done h ht.owner ht.lt hfind, releaseSeg_rep h ht.owner ht.lt,
        .release ht.owner ht.only hno⟩
    obtain ⟨T1, hT1⟩ := hm.join
    have hpos := Nat.two_pow_pos k
    obtain ⟨seg', f, T', hrun, hrep, hgave⟩ :=
      ih (mergeSeg_rep h hm hT1) (ht.step hm hT1) (by omega)
    refine ⟨seg', f, T', ?_, hrep, .merge hm hT1 hgave⟩
    rw [freeLoop_merge hfind, mergeWith_eq h hm, Option.bind_some, hrun]

structure Freed (seg seg' : Seg) (T T' : Tiling Kind n) (p k f : ℕ) : Prop
    extends Requeued seg seg' k f where
  kinds : ∀ q, T'.kindAt q = if q ∈ block p k then some .free else T.kindAt q
  canonical : T.Canonical .free → T'.Canonical .free

lemma Gave.freed (hs : Settled T) (ht : T.owner p = some ⟨.live, p, k⟩)
    (hg : Gave seg seg' (T.assign ⟨.live, p, k⟩ ht (some .held)) T' k f) :
    Freed seg seg' T T' p k f where
  toRequeued := hg.toRequeued
  kinds q := by
    rw [hg.kinds, T.assign_kindAt]
    by_cases hq : Tile.Covers (⟨.live, p, k⟩ : Tile Kind) q
    · rw [if_pos hq, if_pos (show q ∈ block p k from hq)]
      rfl
    rw [if_neg hq, if_neg (show q ∉ block p k from hq)]
    have hk := settled_iff.1 hs q
    cases ho : T.kindAt q with
    | none => rfl
    | some kind =>
      cases kind with
      | held => exact absurd ho hk
      | free => rfl
      | live => rfl
  canonical hT := hg.canonical (Tiling.Coalesced.assign hT ht (by simp) fun _ _ _ h => h)

lemma merging_of_live (h : SegRep seg live T) (hs : Settled T) (ht : T.owner p = some ⟨.live, p, k⟩)
    (hpin : Pinned (T.assign ⟨.live, p, k⟩ ht (some .held)) p) :
    Merging (T.assign ⟨.live, p, k⟩ ht (some .held)) p k where
  owner := if_pos (Tile.covers_head _)
  lt := h.live_lt ht
  pinned := hpin
  only q t hq hkind := by
    rw [Tiling.assign_owner] at hq
    split_ifs at hq with hc
    · exact (Option.some.inj hq).symm
    · exact absurd hkind (hs q t hq)

lemma pmFree_spec (h : SegRep seg live T) (hs : Settled T) (ht : T.owner p = some ⟨.live, p, k⟩)
    (hpin : Pinned (T.assign ⟨.live, p, k⟩ ht (some .held)) p) :
    ∃ seg' f, ∃ T' : Tiling Kind n, pmFree seg p = some seg' ∧
      SegRep seg' (update live p none) T' ∧ Settled T' ∧ Freed seg seg' T T' p k f := by
  have hin : p + 2 ^ k ≤ n := T.inside ht
  have hpos := Nat.two_pow_pos k
  obtain ⟨-, -, -, -, halloc, hres⟩ := pageRep_live_iff.1 (h.page_of_owner ht)
  have hfuel : n < 2 ^ k + seg.npages := by
    rw [h.npages]
    omega
  obtain ⟨seg', f, T', hrun, hrep, hgave⟩ :=
    freeLoop_spec (hold_rep h ht) (merging_of_live h hs ht hpin) hfuel
  have hset : Settled T' := by
    refine settled_iff.2 fun q => ?_
    rw [hgave.kinds q]
    rcases Tiling.kindAt _ q with _ | _ | _ | _ <;> simp [Kind.settle]
  refine ⟨seg', f, T', ?_, hrep, hset, hgave.freed hs ht⟩
  have hstart : seg.pgStart p ≥ seg.start := Nat.le_add_right _ _
  have hstop : seg.pgEnd p ≤ seg.stop := by
    rw [h.stop, pgEnd, pgStart, h.size_of_owner ht, pageSize]
    omega
  simp only [pmFree, pmFreeFromSeg, hstart, hstop, halloc, hres]
  exact hrun

end GzOS.PhysMem
