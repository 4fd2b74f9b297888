import GzOS.HeapSafety

/-!
# Freeing undoes allocating

Free blocks are never neighbours, so the blocks in use of an arena determine its list
of free blocks. A free after an allocation therefore restores the lists, and when
nothing is in use every arena is one free block.
-/
namespace GzOS.Kmalloc
open ByteMemory BlockList Runs List

variable {P S : ℕ → Prop} {mem mem' : Mem} {mp mp' : Pool}
  {ps ps' : List (Arena × List (Block Alloc))} {p p' : Arena × List (Block Alloc)}

def freeLists (mp : Pool) : List (List (ℕ × ℕ)) :=
  mp.mpArena.map fun ar => ar.freeblks.map fun mb => (mb, mbSize mp.mem mb)

def Whole (mem : Mem) (ar : Arena) : Prop :=
  ar.freeblks = [ar.lo] ∧ ar.lo + sizeofMemBlock + mbSize mem ar.lo = ar.hi

/-! The blocks in use determine the rest. -/

lemma ArenaOf.unique (h : ArenaOf P S mem p.1 p.2) (h' : ArenaOf P S mem' p'.1 p'.2)
    (hshape : p'.1.shape = p.1.shape) (hperm : (used p'.2).Perm (used p.2)) : p' = p := by
  obtain ⟨⟨base, maSize, maMagic, list⟩, bs⟩ := p
  obtain ⟨⟨base', maSize', maMagic', list'⟩, bs'⟩ := p'
  obtain ⟨rfl, rfl, rfl⟩ : base' = base ∧ maSize' = maSize ∧ maMagic' = maMagic := by
    simpa [Arena.shape] using hshape
  have hused : used bs' = used bs := by
    refine hperm.eq_of_pairwise (fun x y _ _ hxy hyx => ?_) (h'.rep.contig.pairwise.filter _)
      (h.rep.contig.pairwise.filter _)
    omega
  obtain rfl : bs' = bs :=
    h'.rep.contig.eq_of_used (by decide) h.rep.contig h'.separated h.separated hused
  obtain rfl : list' = list := h'.rep.list.trans h.rep.list.symm
  rfl

lemma PoolOf.used_eq (h : PoolOf P S mp ps) (hp : p ∈ ps) :
    (inUse ps).filter (fun b => decide (p.1.base ≤ b.addr ∧ b.addr < p.1.hi)) = used p.2 := by
  obtain ⟨qs, rs, rfl⟩ := append_of_mem hp
  obtain ⟨-, hright, hleft⟩ := pairwise_append.1 h.apart
  have hbounds : ∀ q ∈ qs ++ p :: rs, ∀ b ∈ used q.2, q.1.base ≤ b.addr ∧ b.addr < q.1.hi := by
    intro q hq b hb
    have := (h.rep q hq).bounds (mem_used.1 hb).1
    omega
  have hout : ∀ q ∈ qs ++ p :: rs, q.1.Apart p.1 → ∀ b ∈ used q.2,
      ¬ (p.1.base ≤ b.addr ∧ b.addr < p.1.hi) := by
    intro q hq hapart b hb
    have := hbounds q hq b hb
    unfold Arena.Apart at hapart
    omega
  rw [inUse_middle, filter_append, filter_append]
  have hqs : (inUse qs).filter (fun b => decide (p.1.base ≤ b.addr ∧ b.addr < p.1.hi)) = [] := by
    refine filter_eq_nil_iff.2 fun b hb => ?_
    obtain ⟨q, hq, hmem⟩ := mem_flatMap.1 hb
    simpa using hout q (mem_append_left _ hq) (hleft q hq p mem_cons_self) b hmem
  have hrs : (inUse rs).filter (fun b => decide (p.1.base ≤ b.addr ∧ b.addr < p.1.hi)) = [] := by
    refine filter_eq_nil_iff.2 fun b hb => ?_
    obtain ⟨q, hq, hmem⟩ := mem_flatMap.1 hb
    have hapart := (pairwise_cons.1 hright).1 q hq
    simpa using hout q (mem_append_right _ (mem_cons_of_mem _ hq)) hapart.symm b hmem
  have hself := filter_eq_self.2 fun b hb => decide_eq_true (hbounds p hp b hb)
  rw [hqs, hrs, hself, nil_append, append_nil]

/-- The same arenas with the same blocks in use have the same blocks. -/
lemma PoolOf.unique (h : PoolOf P S mp ps) (h' : PoolOf P S mp' ps')
    (hshapes : shapes ps' = shapes ps) (hperm : (inUse ps').Perm (inUse ps)) : ps' = ps := by
  have hlength : ps'.length = ps.length := by simpa [shapes] using congrArg length hshapes
  refine ext_getElem hlength fun i hi' hi => ?_
  have hshape : ps'[i].1.shape = ps[i].1.shape := by
    have hget := congrArg (fun l => l[i]?) hshapes
    simpa [shapes, hi, hi'] using hget
  have hbase : ps'[i].1.base = ps[i].1.base := congrArg Prod.fst hshape
  have hsize : ps'[i].1.maSize = ps[i].1.maSize := congrArg (fun x => x.2.1) hshape
  have hhi : ps'[i].1.hi = ps[i].1.hi := by
    rw [Arena.hi, Arena.hi, hbase, hsize]
  have hmem := getElem_mem hi
  have hmem' := getElem_mem hi'
  refine (h.rep _ hmem).unique (h'.rep _ hmem') hshape ?_
  rw [← h.used_eq hmem, ← h'.used_eq hmem', hbase, hhi]
  exact hperm.filter _

lemma PoolOf.freeLists_eq (h : PoolOf P S mp ps) (h' : PoolOf P S mp' ps) :
    freeLists mp' = freeLists mp := by
  unfold freeLists
  rw [h.arenas, h'.arenas, map_map, map_map]
  refine map_congr_left fun p hp => map_congr_left fun mb hmb => ?_
  have hlist : p.1.freeblks = frees p.2 := (h.rep p hp).rep.list
  rw [hlist] at hmb
  obtain ⟨b, hb, hfree, rfl⟩ := mem_frees.1 hmb
  have hold := ((h.rep p hp).rep.ok b hb).size
  have hnew := ((h'.rep p hp).rep.ok b hb).size
  rw [hold, hnew]

lemma kfree_kmalloc {size flags ptr : ℕ} (hP : Closed NoHeader S) (h : PoolOf NoHeader S mp ps)
    (hlt : size + 23 < 2 ^ 32) (hok : kmalloc mp size flags = .ok (some ptr, mp')) :
    ∃ mp'', kfree mp' ptr = .ok mp'' ∧ PoolOf NoHeader S mp'' ps ∧
      ∀ flags', ∃ mp3, kmalloc mp'' size flags' = .ok (some ptr, mp3) := by
  have hpos : 0 < size := by
    refine Nat.pos_of_ne_zero fun hzero => ?_
    rw [kmalloc, if_pos hzero] at hok
    cases hok
  rcases kmalloc_spec flags hP h hlt with hnone | herr | ⟨b, mp1, ps1, hfit, hsome, hrep, hperm, hs⟩
  · rw [hnone] at hok
    cases hok
  · rw [herr] at hok
    cases hok
  rw [hsome] at hok
  obtain ⟨rfl, rfl⟩ : b.addr + 16 = ptr ∧ mp1 = mp' := by simpa using hok
  have huse : (grant (rounded size) size b).use = some ⟨b.addr + 16, size⟩ := rfl
  have hmem := hperm.mem_iff.2 mem_cons_self
  obtain ⟨mp2, ps2, hfree, hrep2, hperm2, hs2⟩ :=
    kfree_spec hP hrep hmem huse (hrep.dataOf hmem huse)
  obtain rfl : ps2 = ps :=
    h.unique hrep2 (hs2.trans hs) (hperm2.symm.trans hperm).cons_inv
  refine ⟨mp2, hfree, hrep2, fun flags' => ?_⟩
  obtain ⟨mp3, ps3, hagain, -⟩ := kmalloc_some flags' hP hrep2 hpos hlt hfit
  exact ⟨mp3, hagain⟩

/-! Freeing everything. -/

lemma Kept.free_all {s : State} {ls : List Alloc} (h : Kept s ps) (hls : ls.Perm s.live) :
    ∃ t ps', exec step s (ls.map .kfree) = some t ∧ t.live = [] ∧ Kept t ps' ∧
      shapes ps' = shapes ps := by
  induction ls generalizing s ps with
  | nil => exact ⟨s, ps, rfl, hls.nil_eq.symm, h, rfl⟩
  | cons l ls ih =>
    obtain ⟨t, ps1, hok, hlive, ht, hshapes⟩ := holds_kfree closed_eights h.holds
      (hls.mem_iff.1 mem_cons_self) fun c hc hl => h.holds.pool.dataOf hc hl
    have hstep : step s (.kfree l) = some t := by rw [step, hok]; rfl
    have hrest : ls.Perm t.live := by
      have herase := hls.erase l
      rwa [erase_cons_head, ← hlive] at herase
    obtain ⟨u, ps2, hexec, hnone, hu, hshapes2⟩ := ih ⟨ht, hshapes ▸ h.kernel⟩ hrest
    exact ⟨u, ps2, exec_cons_some.2 ⟨t, hstep, hexec⟩, hnone, hu, hshapes2.trans hshapes⟩

lemma ArenaOf.whole {ar : Arena} {bs : List (Block Alloc)} (h : ArenaOf P S mem ar bs)
    (hsize : 16 < ar.maSize) (hused : used bs = []) : Whole mem ar := by
  have hlo : ar.lo = ar.base + 32 := rfl
  have hhi : ar.hi = ar.base + 32 + ar.maSize := rfl
  have hone : Contig 16 ar.lo [(⟨ar.lo, ar.maSize - 16, none⟩ : Block Alloc)] ar.hi := by
    simp only [Contig, true_and]
    omega
  obtain rfl : bs = [⟨ar.lo, ar.maSize - 16, none⟩] :=
    h.rep.contig.eq_of_used (by decide) hone h.separated (isChain_singleton _) hused
  have hlist := h.rep.list
  have hmb : mbSize mem ar.lo = ar.maSize - 16 := (h.rep.ok _ mem_cons_self).size
  refine ⟨hlist, ?_⟩
  rw [sizeofMemBlock]
  omega

lemma Kept.whole {s : State} (h : Kept s ps) (hlive : s.live = []) :
    ∀ ar ∈ s.pool.mpArena, Whole s.pool.mem ar := by
  intro ar har
  rw [h.holds.pool.arenas] at har
  obtain ⟨p, hp, rfl⟩ := mem_map.1 har
  refine (h.holds.pool.rep p hp).whole (h.kernel p.1.shape (mem_map_of_mem hp)).2 ?_
  refine eq_nil_iff_forall_not_mem.2 fun b hb => ?_
  obtain ⟨l, hl⟩ := Option.ne_none_iff_exists'.1 (mem_used.1 hb).2
  have hmem : l ∈ s.live :=
    h.holds.live.mem_iff.2 (mem_filterMap.2 ⟨b, mem_flatMap.2 ⟨p, hp, hb⟩, hl⟩)
  rw [hlive] at hmem
  cases hmem

/-- In every state of a run of allowed operations the free of what was just
allocated restores the free lists, so that the next request of the same size gets
the same block; and freeing all live allocations, in any order, leaves every arena
as one free block. -/
theorem kfree_undoes_kmalloc (mem : Mem) (ops : List Op)
    (h : Meets step Allowed (start mem) ops) : Always step (fun s =>
      (∀ size flags ptr mp, size < 2 ^ 31 - 32 → kmalloc s.pool size flags = .ok (some ptr, mp) →
        ∃ mp', kfree mp ptr = .ok mp' ∧ mp'.mpArena = s.pool.mpArena ∧
          freeLists mp' = freeLists s.pool ∧
          ∀ flags', ∃ mp'', kmalloc mp' size flags' = .ok (some ptr, mp'')) ∧
      ∀ ls : List Alloc, ls.Perm s.live → ∃ t, exec step s (ls.map .kfree) = some t ∧
        t.pool.mpArena.map Arena.shape = s.pool.mpArena.map Arena.shape ∧
        ∀ ar ∈ t.pool.mpArena, Whole t.pool.mem ar) (start mem) ops := by
  refine (always_kept mem h).mono fun s hs => ?_
  obtain ⟨ps, hs⟩ := hs
  have hpool := hs.holds.pool
  refine ⟨fun size flags ptr mp hlt hok => ?_, fun ls hls => ?_⟩
  · obtain ⟨mp', hfree, hrep, hagain⟩ := kfree_kmalloc closed_eights hpool (by omega) hok
    exact ⟨mp', hfree, hrep.arenas.trans hpool.arenas.symm, hpool.freeLists_eq hrep, hagain⟩
  obtain ⟨t, ps', hexec, hlive, ht, hshapes⟩ := hs.free_all hls
  refine ⟨t, hexec, ?_, ht.whole hlive⟩
  rw [ht.holds.pool.arenas, hpool.arenas, map_map, map_map]
  exact hshapes

/-- In a pool of one page a block is allocated and freed, and the whole page is free
again. -/
theorem kfree_undoes_kmalloc_page : ∃ s, exec step (start fun _ => 0) [sampleArena] = some s ∧
    ∃ mp mp', kmalloc s.pool 24 0 = .ok (some 0x80000030, mp) ∧
      kfree mp 0x80000030 = .ok mp' ∧ freeLists mp' = freeLists s.pool := by
  have hmeets : Meets step Allowed (start fun _ => 0) [sampleArena] := by
    rw [meets_cons]
    exact ⟨⟨by decide, by decide, ⟨by decide, by decide⟩, fun ar har => by cases har⟩,
      fun _ _ => meets_nil _ _ _⟩
  refine ⟨_, rfl, ?_⟩
  have hundo := ((kfree_undoes_kmalloc _ _ hmeets).last rfl).1
  have hptr : (kmalloc (kmallocAddArena (kmallocInit fun _ => 0) 0x80000000 4096) 24 0).map
      Prod.fst = .ok (some 0x80000030) := by decide +kernel
  obtain ⟨⟨ptr, mp⟩, hok⟩ : ∃ r,
      kmalloc (kmallocAddArena (kmallocInit fun _ => 0) 0x80000000 4096) 24 0 = .ok r := by
    cases hr : kmalloc (kmallocAddArena (kmallocInit fun _ => 0) 0x80000000 4096) 24 0 with
    | error e => rw [hr] at hptr; cases hptr
    | ok r => exact ⟨r, rfl⟩
  rw [hok] at hptr
  obtain rfl : ptr = some 0x80000030 := Except.ok.inj hptr
  obtain ⟨mp', hfree, -, hlists, -⟩ := hundo 24 0 _ mp (by decide) hok
  exact ⟨mp, mp', hok, hfree, hlists⟩

end GzOS.Kmalloc
