import GzOS.BuddyInit
import GzOS.BuddyReserve

/-!
# The indices into the queues

The search of an allocation looks at a queue before it compares the index with the
number of queues, and the merging of a free has no upper limit. The indices stay in
bounds as long as every request can be met and no free completes an aligned block of
twice the largest size.
-/
namespace GzOS.PhysMem
open DyadicTiling Runs List Option

variable {n : ℕ} {seg : Seg} {live : ℕ → Option ℕ} {T : Tiling Kind n}

/-! What is indexed. -/

def searchIndices (seg : Seg) : ℕ → ℕ → List ℕ
  | 0, i => [i]
  | d + 1, i => i :: if seg.freeq i = [] then searchIndices seg d (i + 1) else []

/-- `pm_split_page` indexes by the size before and after. -/
def splitPageIndices (seg : Seg) (page : ℕ) : List ℕ :=
  [log2 (seg.size page), log2 (seg.size page / 2)]

def takeIndices (j : ℕ) : ℕ → Seg → List ℕ
  | 0, _ => [j]
  | d + 1, seg => (j + (d + 1)) :: match (seg.freeq (j + (d + 1))).head? with
    | none => []
    | some page => splitPageIndices seg page ++ match pmSplitPage seg page with
      | none => []
      | some seg' => takeIndices j d seg'

def allocIndices (seg : Seg) (npages : ℕ) : List ℕ :=
  let j := log2 npages
  searchIndices seg (pmNqueues - j) j ++
    match (range' j (pmNqueues - j)).find? fun i => decide (seg.freeq i ≠ []) with
    | none => []
    | some i => takeIndices j (i - j) seg

def mergeIndices : ℕ → Seg → ℕ → List ℕ
  | 0, _, _ => []
  | fuel + 1, seg, page =>
    match pmFindBuddy seg page with
    | none => []
    | some none => [log2 (seg.size page)]
    | some (some buddy) => log2 (seg.size buddy) :: match mergeWith seg page buddy with
      | none => []
      | some merged => mergeIndices fuel merged.2 merged.1

def indices (s : State) : Op → List ℕ
  | .alloc npages => allocIndices s.seg npages
  | .free page => mergeIndices s.seg.npages s.seg page
  | _ => []

/-! Bounds on them. -/

variable {d i k p : ℕ} {s : State}

lemma searchIndices_lt {j : ℕ} (hlow : i ≤ j) (hne : seg.freeq j ≠ []) :
    ∀ m ∈ searchIndices seg d i, j < i + d → m ≤ j := by
  induction d generalizing i with
  | zero =>
    intro m _ hlt
    omega
  | succ d ih =>
    intro m hm hlt
    rw [searchIndices, mem_cons] at hm
    rcases hm with rfl | hm
    · exact hlow
    split_ifs at hm with hempty
    · have hi : i ≠ j := by
        rintro rfl
        exact hne hempty
      exact ih (by omega) m hm (by omega)
    · cases hm

lemma takeIndices_lt (j : ℕ) (h : SegRep seg live T) (hd : j + d < pmNqueues) :
    ∀ m ∈ takeIndices j d seg, m < pmNqueues := by
  induction d generalizing seg T with
  | zero =>
    intro m hm
    rw [takeIndices, mem_singleton] at hm
    omega
  | succ d ih =>
    intro m hm
    rw [takeIndices, mem_cons] at hm
    rcases hm with rfl | hm
    · exact hd
    cases hhead : (seg.freeq (j + (d + 1))).head? with
    | none =>
      rw [hhead] at hm
      cases hm
    | some p =>
      have ht := h.owner_of_mem (mem_of_mem_head? hhead)
      have hhalf : 2 ^ (j + d + 1) / 2 = 2 ^ (j + d) := by
        rw [pow_succ, Nat.mul_div_cancel _ (by norm_num)]
      have hqueues : pmNqueues ≤ 32 := by decide
      simp only [hhead, pmSplitPage_eq h ht, mem_append] at hm
      rcases hm with hm | hm
      · simp only [splitPageIndices, h.size_of_owner ht, ← Nat.add_assoc, hhalf,
          log2_two_pow (show j + d + 1 < 32 by omega), log2_two_pow (show j + d < 32 by omega),
          mem_cons, not_mem_nil, or_false] at hm
        omega
      · exact ih (splitSeg_rep h ht) (by omega) m hm

lemma allocIndices_lt (h : SegRep seg live T) (hk : k ≤ i) (hi : i < pmNqueues)
    (hne : seg.freeq i ≠ []) : ∀ m ∈ allocIndices seg (2 ^ k), m < pmNqueues := by
  have hlog : log2 (2 ^ k) = k := log2_two_pow (lt_trans (lt_of_le_of_lt hk hi) (by decide))
  intro m hm
  simp only [allocIndices, hlog, mem_append] at hm
  rcases hm with hm | hm
  · exact lt_of_le_of_lt (searchIndices_lt hk hne m hm (by omega)) hi
  cases hfind : (range' k (pmNqueues - k)).find? fun i => decide (seg.freeq i ≠ []) with
  | none =>
    rw [hfind] at hm
    cases hm
  | some i' =>
    rw [hfind] at hm
    have hi' := mem_range'_1.1 (mem_of_find?_eq_some hfind)
    exact takeIndices_lt k h (by omega) m hm

lemma mergeIndices_lt {fuel : ℕ} (h : SegRep seg live T) (ht : Merging T p k) :
    ∀ m ∈ mergeIndices fuel seg p, m < pmNqueues := by
  have hlog : log2 (2 ^ k) = k := log2_two_pow (lt_trans ht.lt (by decide))
  induction fuel generalizing seg T p k with
  | zero =>
    intro m hm
    cases hm
  | succ fuel ih =>
    intro m hm
    rcases pmFindBuddy_spec h ht.owner with ⟨hfind, -⟩ | ⟨b, l, hfind, hm'⟩
    · simp only [mergeIndices, hfind, h.size_of_owner ht.owner, hlog, mem_singleton] at hm
      exact hm ▸ ht.lt
    simp only [mergeIndices, hfind, h.size_of_owner hm'.free, hlog, mergeWith_eq h hm',
      mem_cons] at hm
    rcases hm with rfl | hm
    · exact ht.lt
    · obtain ⟨T1, hT1⟩ := hm'.join
      have hnext := ht.step hm' hT1
      exact ih (mergeSeg_rep h hm' hT1) hnext
        (log2_two_pow (lt_trans hnext.lt (by decide))) m hm

/-! Initialised segments. -/

/-- The queues alone determine the tiling. -/
lemma QueuesTile.segRep (h : QueuesTile seg seg.npages)
    (hsize : ∀ i p, p ∈ seg.freeq i → seg.size p = 2 ^ i)
    (hqueue : ∀ i p, p ∈ seg.freeq i → i < pmNqueues) (hstart : pageSize ∣ seg.start)
    (hstop : seg.stop = seg.start + pageSize * seg.npages) :
    ∃ T : Tiling Kind seg.npages, SegRep seg (fun _ => none) T ∧ Settled T := by
  have hblocks : BlockSet seg.npages fun i p => p ∈ seg.freeq i := by
    refine ⟨fun q b c hb hqb hc hqc => ?_, h.aligned, h.inside⟩
    have hq : q < seg.npages := lt_of_lt_of_le hqb.2 (h.inside b.1 b.2 hb)
    exact (h.covered q hq).unique ⟨hb, hqb⟩ ⟨hc, hqc⟩
  have howner := fun q t => Tiling.ofBlocks_owner Kind.free hblocks (q := q) (t := t)
  refine ⟨Tiling.ofBlocks .free hblocks, ⟨rfl, fun q hq => ?_, fun q hq => ⟨fun i hi => ?_, rfl⟩,
    h.nodup, fun q t ht _ => hqueue _ _ ((howner q t).1 ht).2.1, hstart, hstop⟩, fun q t ht => ?_⟩
  · obtain ⟨⟨i, p⟩, hb, hunique⟩ := h.covered q hq
    have hq' : (Tiling.ofBlocks Kind.free hblocks).owner q = some ⟨.free, p, i⟩ :=
      (howner q _).2 ⟨rfl, hb.1, hb.2⟩
    have hmem : ∀ j, q ∈ seg.freeq j ↔ p = q ∧ i = j := by
      intro j
      constructor
      · intro hj
        have he := hunique (j, q) ⟨hj, head_mem_block q j⟩
        rw [Prod.mk.injEq] at he
        exact ⟨he.2.symm, he.1.symm⟩
      · rintro ⟨rfl, rfl⟩
        exact hb.1
    rw [hq']
    refine pageRep_free_iff.2 ⟨hmem, rfl, ?_, ?_, (h.unused q).1, (h.unused q).2⟩
    · rintro rfl
      exact hsize i p hb.1
    rw [h.managed]
    constructor
    · rintro ⟨j, hj⟩
      exact ((hmem j).1 hj).1
    · exact fun he => ⟨i, (hmem i).2 ⟨he, rfl⟩⟩
  · have hin := h.inside i q hi
    have hpos := Nat.two_pow_pos i
    omega
  · rw [((howner q t).1 ht).1]
    simp

/-- The invariant, for segments of any size. -/
def SegTiled (s : State) : Prop := ∃ n, ∃ T : Tiling Kind n, SegRep s.seg s.live T ∧ Settled T

lemma boot_segTiled {start : ℕ} (hstart : pageSize ∣ start) :
    ∃ s, boot start k = some s ∧ SegTiled s := by
  obtain ⟨hlt, hstop⟩ := segment_end k hstart
  have hn : (start + pageSize * 2 ^ k - start) / pageSize = 2 ^ k := blankSeg_npages start k
  let seg := initSeg start (start + pageSize * 2 ^ k)
  have hbounds := initSeg_bounds start (start + pageSize * 2 ^ k)
  rw [hn] at hbounds
  obtain ⟨hnpages, hbase, hend⟩ : seg.npages = 2 ^ k ∧ seg.start = start ∧
      seg.stop = start + pageSize * 2 ^ k := by simpa [Seg.bounds] using hbounds
  have htile : QueuesTile seg seg.npages := by
    rw [hnpages, ← hn]
    exact initSeg_tile _ _
  have hsize : ∀ i p, p ∈ seg.freeq i → seg.size p = 2 ^ i := fun i p hp =>
    initSeg_size_eq (npages_pos hlt hstart hstop) (.inl (hn.symm ▸ powerof2_two_pow k)) hp
  have hqueue : ∀ i p, p ∈ seg.freeq i → i < pmNqueues := by
    intro i p hp
    by_contra hle
    have hempty : seg.freeq i = [] := initQueues_freeq_of_le (Nat.le_of_not_lt hle) _ _ _
    rw [hempty] at hp
    cases hp
  obtain ⟨T, hT⟩ := htile.segRep hsize hqueue (hbase ▸ hstart) (by rw [hend, hbase, hnpages])
  refine ⟨⟨seg, fun _ => none⟩, ?_, _, T, hT⟩
  rw [boot, pmSegInit_eq_initSeg hlt hstart hstop, map_some]

/-! Runs. -/

def Calls (s : State) : Op → Prop
  | .alloc npages => ∃ k, npages = 2 ^ k
  | .free page => ∃ m, s.live page = some m
  | _ => False

/-- A block is left for the request, and in the aligned `2 ^ 16` pages around the block to
be freed one is neither free nor its own. -/
def Fits (s : State) : Op → Prop
  | .alloc npages => ∃ i, log2 npages ≤ i ∧ i < pmNqueues ∧ s.seg.freeq i ≠ []
  | .free page => ∃ q, q / 2 ^ pmNqueues = page / 2 ^ pmNqueues ∧ ¬ FreeAt s q ∧ ¬ LiveAt s page q
  | _ => True

/-- The call indexes only queues there are, and an allocation gives the pages asked for. -/
structure Bounded (s : State) (op : Op) : Prop where
  indices : ∀ i ∈ indices s op, i < pmNqueues
  exact : ∀ npages, op = .alloc npages → ∃ r seg', pmAlloc s.seg npages = some (r, seg') ∧
    ∀ page, r = some page → seg'.size page = npages ∧ page + npages ≤ s.seg.npages

lemma lt_of_log2_lt (h : log2 (2 ^ k) < pmNqueues) : k < pmNqueues := by
  by_contra hle
  have : pmNqueues ≤ log2 (2 ^ k) :=
    (le_ctz_iff (by decide)).2 (pow_dvd_pow 2 (Nat.le_of_not_lt hle))
  omega

lemma pinned_of_fits (h : SegRep s.seg s.live T)
    (ht : T.owner p = some ⟨.live, p, k⟩) (hset : Settled T) (hfits : Fits s (.free p)) :
    Pinned (T.assign ⟨.live, p, k⟩ ht (some .held)) p := by
  obtain ⟨q, hq, hfree, hlive⟩ := hfits
  have hout : ¬ Tile.Covers (⟨.live, p, k⟩ : Tile Kind) q := fun hin =>
    hlive ((liveAt_iff h).2 ⟨k, T.whole ht q hin⟩)
  refine ⟨q, hq, ?_⟩
  rw [T.assign_kindAt, if_neg hout]
  exact ⟨fun he => hfree ((freeAt_iff h).2 he), settled_iff.1 hset q⟩

lemma bounded_of_fits {op : Op} (h : SegRep s.seg s.live T) (hset : Settled T)
    (hcall : Calls s op) (hfits : Fits s op) : Bounded s op := by
  cases op with
  | alloc npages =>
    obtain ⟨k, rfl⟩ := hcall
    obtain ⟨i, hlow, hi, hne⟩ := hfits
    have hk : k < pmNqueues := lt_of_log2_lt (lt_of_le_of_lt hlow hi)
    rw [log2_two_pow (lt_trans hk (by decide))] at hlow
    refine ⟨allocIndices_lt h hlow hi hne, fun npages hop => ?_⟩
    obtain rfl := Op.alloc.inj hop
    obtain ⟨r, seg', hrun, hexact⟩ := (safe_of_rep h hset).alloc k (Nat.le_of_lt_succ hk)
    exact ⟨r, seg', hrun, fun page hpage => ⟨(hexact page hpage).1, (hexact page hpage).2.1⟩⟩
  | free page =>
    obtain ⟨m, hm⟩ := hcall
    obtain ⟨k, -, ht⟩ := (live_iff_owner h).1 hm
    have hmerging := merging_of_live h hset ht (pinned_of_fits h ht hset hfits)
    exact ⟨mergeIndices_lt (hold_rep h ht) hmerging, fun npages hop => by cases hop⟩
  | reserve start stop => exact hcall.elim
  | splitAlloc page => exact hcall.elim

lemma segTiled_step (s : State) (op : Op) (hs : SegTiled s) (hop : Calls s op ∧ Fits s op) :
    ∃ t, step s op = some t ∧ SegTiled t := by
  obtain ⟨n, T, h, hset⟩ := hs
  have hallowed : Allowed s op := by
    cases op with
    | alloc npages =>
      obtain ⟨⟨k, rfl⟩, i, hlow, hi, -⟩ := hop
      exact ⟨k, Nat.le_of_lt_succ (lt_of_log2_lt (lt_of_le_of_lt hlow hi)), rfl⟩
    | free page => exact hop.1
    | reserve start stop => exact hop.1.elim
    | splitAlloc page => exact hop.1.elim
  obtain ⟨t, T', hstep, h', hset', -⟩ := segStep_spec s op h hset hallowed
    fun p k ht he => pinned_of_fits h ht hset (he ▸ hop.2)
  exact ⟨t, hstep, n, T', h', hset'⟩

/-- A block can be freed while another one in the same `2 ^ 16` pages is live. -/
lemma SegTiled.fits_free (h : SegTiled s) {m q : ℕ} (hq : s.live q = some m) (hne : q ≠ p)
    (hsame : q / 2 ^ pmNqueues = p / 2 ^ pmNqueues) : Fits s (.free p) := by
  obtain ⟨n, T, h, -⟩ := h
  obtain ⟨k, -, ht⟩ := (live_iff_owner h).1 hq
  refine ⟨q, hsame, ?_, fun hlive => ?_⟩
  · simp [freeAt_iff h, T.kindAt_eq_some, ht]
  · obtain ⟨l, hl⟩ := (liveAt_iff h).1 hlive
    cases ht.symm.trans hl
    exact hne rfl

/-- In a segment of any power of two of pages, every run of allocations that can be
met and of frees that do not complete an aligned block of `2 ^ 16` pages passes all
assertions, and in every state reached such calls stay inside the queues. -/
theorem indices_bounded (start k : ℕ) (hstart : pageSize ∣ start) :
    ∃ s, boot start k = some s ∧ ∀ ops, Meets step (fun s op => Calls s op ∧ Fits s op) s ops →
        (∃ t, exec step s ops = some t) ∧
          Always step (fun t => ∀ op, Calls t op → Fits t op → Bounded t op) s ops := by
  obtain ⟨s, hboot, hs⟩ := boot_segTiled hstart
  refine ⟨s, hboot, fun ops hops => ⟨exec_of_meets segTiled_step hs hops, ?_⟩⟩
  refine (always_of_progress segTiled_step hs hops).mono ?_
  rintro t ⟨n, T, h, hset⟩ op hcall hfits
  exact bounded_of_fits h hset hcall hfits

/-- Two allocations in a segment of eight pages, and the free of the first. -/
theorem indices_bounded_free : ∃ s t, boot 0 3 = some s ∧
    exec step s [.alloc 2, .alloc 1] = some t ∧ Bounded t (.free 6) := by
  obtain ⟨s, hboot, hrun⟩ := indices_bounded 0 3 (dvd_zero _)
  have hfirst : (boot 0 3).map (fun s => s.seg.freeq 3) = some [0] := by decide +kernel
  have hsecond : ((boot 0 3).bind (step · (.alloc 2))).map (fun s => s.seg.freeq 1) =
      some [4] := by decide +kernel
  have hlive : ((boot 0 3).bind (exec step · [.alloc 2, .alloc 1])).map
      (fun s => (s.live 6, s.live 5)) = some (some 2, some 1) := by decide +kernel
  rw [hboot, map_some, some.injEq] at hfirst
  rw [hboot, bind_some] at hsecond hlive
  have hmeets : Meets step (fun s op => Calls s op ∧ Fits s op) s [.alloc 2, .alloc 1] := by
    refine meets_cons.2 ⟨⟨⟨1, rfl⟩, 3, by decide, by decide, by simp [hfirst]⟩, fun t ht => ?_⟩
    rw [ht, map_some, some.injEq] at hsecond
    exact meets_singleton.2 ⟨⟨0, rfl⟩, 1, by decide, by decide, by simp [hsecond]⟩
  obtain ⟨⟨t, ht⟩, hbounded⟩ := hrun _ hmeets
  rw [ht, map_some, some.injEq, Prod.mk.injEq] at hlive
  obtain ⟨s', hboot', hs⟩ := boot_segTiled (k := 3) (dvd_zero pageSize)
  obtain rfl : s = s' := some.inj (hboot.symm.trans hboot')
  have htiled := (always_of_progress segTiled_step hs hmeets).last ht
  exact ⟨s, t, hboot, ht, hbounded.last ht _ ⟨2, hlive.1⟩
    (htiled.fits_free hlive.2 (by decide) (by decide))⟩

/-- With one page, a second request for one looks at queue 16. With `2 ^ 16` pages,
taking half of them and giving it back queues a block there. -/
theorem indices_out_of_bounds :
    (∃ s t, boot 0 0 = some s ∧ exec step s [.alloc 1] = some t ∧ Calls t (.alloc 1) ∧
      ¬ Bounded t (.alloc 1)) ∧ ∃ s t, boot 0 16 = some s ∧ exec step s [.alloc (2 ^ 15)] = some t ∧
      Calls t (.free 32768) ∧ ¬ Bounded t (.free 32768) := by
  have hsearch : ((boot 0 0).bind fun s => exec step s [.alloc 1]).map
      (fun t => decide (16 ∈ indices t (.alloc 1))) = some true := by decide +kernel
  have hmerge : ((boot 0 16).bind fun s => exec step s [.alloc (2 ^ 15)]).map
      (fun t => (t.live 32768, decide (16 ∈ indices t (.free 32768)))) =
        some (some (2 ^ 15), true) := by decide +kernel
  constructor
  · obtain ⟨t, ht, hin⟩ := map_eq_some_iff.1 hsearch
    obtain ⟨s, hs, ht⟩ := bind_eq_some_iff.1 ht
    refine ⟨s, t, hs, ht, ⟨0, rfl⟩, fun hbounded => ?_⟩
    exact absurd (hbounded.indices 16 (of_decide_eq_true hin)) (by decide)
  · obtain ⟨t, ht, hin⟩ := map_eq_some_iff.1 hmerge
    obtain ⟨s, hs, ht⟩ := bind_eq_some_iff.1 ht
    rw [Prod.mk.injEq] at hin
    refine ⟨s, t, hs, ht, ⟨_, hin.1⟩, fun hbounded => ?_⟩
    exact absurd (hbounded.indices 16 (of_decide_eq_true hin.2)) (by decide)

end GzOS.PhysMem
