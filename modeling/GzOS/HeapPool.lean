import GzOS.HeapSteps
import Mathlib.Data.List.Flatten

/-!
# The arenas of a pool

Every arena of a pool represents a block list of its own. An operation works in
one arena and leaves the bytes of the others alone, so a step of one arena is a
step of the pool.
-/
namespace GzOS.Kmalloc
open ByteMemory BlockList List Prod

def Arena.lo (ar : Arena) : ℕ := ar.base + 32
def Arena.hi (ar : Arena) : ℕ := ar.base + 32 + ar.maSize

def Arena.Apart (p q : Arena) : Prop := p.hi ≤ q.base ∨ q.hi ≤ p.base

def inUse (ps : List (Arena × List (Block Alloc))) : List (Block Alloc) :=
  ps.flatMap fun p => used p.2

structure ArenaOf (P S : ℕ → Prop) (mem : Mem) (ar : Arena) (bs : List (Block Alloc)) : Prop where
  magic : ar.maMagic = mbMagic
  top : ar.hi < 2 ^ 32
  small : ar.maSize < 2 ^ 31 + 16
  links : ∀ w, ar.base ≤ w → w < ar.hi → P w
  rep : RepOf P S ⟨mem, ar.freeblks⟩ ar.lo ar.hi bs
  separated : Separated bs

structure PoolOf (P S : ℕ → Prop) (mp : Pool) (ps : List (Arena × List (Block Alloc))) : Prop where
  magic : mp.mpMagic = mbMagic
  arenas : mp.mpArena = ps.map fst
  rep : ∀ p ∈ ps, ArenaOf P S mp.mem p.1 p.2
  apart : ps.Pairwise fun p q => p.1.Apart q.1

def Arena.shape (ar : Arena) : ℕ × ℕ × ℕ := (ar.base, ar.maSize, ar.maMagic)

def shapes (ps : List (Arena × List (Block Alloc))) : List (ℕ × ℕ × ℕ) :=
  ps.map fun p => p.1.shape

variable {P S : ℕ → Prop} {mem mem' : Mem} {ar ar' : Arena} {bs bs' : List (Block Alloc)}
  {mp : Pool} {ps ps' qs rs : List (Arena × List (Block Alloc))} {b c : Block Alloc} {l : Alloc}

lemma exists_of_shapes (h : shapes ps' = shapes ps) {p : Arena × List (Block Alloc)}
    (hp : p ∈ ps) : ∃ q ∈ ps', q.1.base = p.1.base ∧ q.1.maSize = p.1.maSize := by
  have hmem : p.1.shape ∈ shapes ps := mem_map_of_mem hp
  rw [← h] at hmem
  obtain ⟨q, hq, hshape⟩ := mem_map.1 hmem
  simp only [Arena.shape, mk.injEq] at hshape
  exact ⟨q, hq, hshape.1, hshape.2.1⟩

lemma ArenaOf.linkable (h : ArenaOf P S mem ar bs) : Linkable P ar.base ar.lo ar.hi := by
  have htop := h.top
  have hlo : ar.lo = ar.base + 32 := rfl
  have hhi : ar.lo ≤ ar.hi := h.rep.contig.le
  refine ⟨htop, fun w hlow hhigh => h.links w (by omega) hhigh, ?_, by omega⟩
  exact h.links _ (Nat.le_add_right _ _) (by omega)

lemma ArenaOf.bounds (h : ArenaOf P S mem ar bs) (hb : b ∈ bs) :
    ar.base + 32 ≤ b.addr ∧ b.addr + 16 + b.size ≤ ar.hi ∧ b.addr + 16 + b.size < 2 ^ 32 ∧
      b.size < 2 ^ 31 := by
  have hbound := h.rep.contig.bounds hb
  have htop := h.top
  have hsmall := h.small
  unfold Arena.lo Arena.hi at hbound
  unfold Arena.hi at *
  omega

variable {list : List ℕ} {addr mb : ℕ} {xs ys : List (Block Alloc)}

lemma ArenaOf.with_list (h : ArenaOf P S mem ar bs)
    (hrep : RepOf P S ⟨mem', list⟩ ar.lo ar.hi bs') (hsep : Separated bs') :
    ArenaOf P S mem' { ar with freeblks := list } bs' where
  magic := h.magic
  top := h.top
  small := h.small
  links := h.links
  rep := hrep
  separated := hsep

lemma ArenaOf.freeblks_bounds (h : ArenaOf P S mem ar bs) {a : ℕ} (ha : a ∈ ar.freeblks) :
    ar.lo ≤ a ∧ a + 16 ≤ ar.hi := by
  have hlist : ar.freeblks = frees bs := h.rep.list
  rw [hlist] at ha
  obtain ⟨b, hb, -, rfl⟩ := mem_frees.1 ha
  have := h.rep.contig.bounds hb
  omega

lemma ArenaOf.congr {lo hi : ℕ} (h : ArenaOf P S mem ar bs) (hframe : Frame lo hi mem mem')
    (hapart : ar.hi ≤ lo ∨ hi ≤ ar.lo) : ArenaOf P S mem' ar bs := by
  refine ⟨h.magic, h.top, h.small, h.links, ⟨h.rep.contig, fun b hb => ?_, h.rep.list⟩,
    h.separated⟩
  apply (h.rep.ok b hb).congr_of_apart
  intro x hlow hhigh
  have hbound := h.rep.contig.bounds hb
  exact hframe x (by omega)

lemma Arena.Apart.blocks (h : ar.Apart ar') : ar.hi ≤ ar'.lo ∨ ar'.hi ≤ ar.lo := by
  unfold Arena.Apart Arena.lo Arena.hi at *
  omega

lemma PoolOf.update (h : PoolOf P S mp (qs ++ (ar, bs) :: rs))
    (hframe : Frame ar.lo ar.hi mp.mem mem')
    (hrep : ArenaOf P S mem' { ar with freeblks := list } bs') : PoolOf P S { mp with
        mem := mem'
        mpArena := qs.map fst ++ { ar with freeblks := list } :: rs.map fst }
      (qs ++ ({ ar with freeblks := list }, bs') :: rs) := by
  obtain ⟨hqs, hrs, hcross⟩ := pairwise_append.1 h.apart
  obtain ⟨hhead, hrest⟩ := pairwise_cons.1 hrs
  refine ⟨h.magic, by simp, fun p hp => ?_, ?_⟩
  · rcases mem_append.1 hp with hp | hp
    · exact (h.rep p (mem_append_left _ hp)).congr hframe
        (hcross p hp _ mem_cons_self).blocks
    rcases mem_cons.1 hp with rfl | hp
    · exact hrep
    · exact (h.rep p (mem_append_right _ (mem_cons_of_mem _ hp))).congr hframe
        (hhead p hp).blocks.symm
  · refine pairwise_append.2 ⟨hqs, pairwise_cons.2 ⟨hhead, hrest⟩, ?_⟩
    intro p hp q hq
    rcases mem_cons.1 hq with rfl | hq
    · exact hcross p hp (ar, bs) mem_cons_self
    · exact hcross p hp q (mem_cons_of_mem _ hq)

lemma shapes_middle :
    shapes (qs ++ ({ ar with freeblks := list }, bs') :: rs) = shapes (qs ++ (ar, bs) :: rs) := by
  simp [shapes, Arena.shape]

lemma inUse_middle : inUse (qs ++ (ar, bs) :: rs) = inUse qs ++ (used bs ++ inUse rs) := by
  simp [inUse]

lemma inUse_split (hc : c ∈ inUse ps) :
    ∃ qs ar xs ys rs, ps = qs ++ (ar, xs ++ c :: ys) :: rs ∧ c.use ≠ none := by
  obtain ⟨⟨ar, bs⟩, hp, hmem⟩ := mem_flatMap.1 hc
  obtain ⟨hbs, huse⟩ := mem_used.1 hmem
  obtain ⟨qs, rs, rfl⟩ := append_of_mem hp
  obtain ⟨xs, ys, rfl⟩ := append_of_mem hbs
  exact ⟨qs, ar, xs, ys, rs, rfl, huse⟩

lemma inUse_perm (h : (used bs').Perm (b :: used bs)) :
    (inUse (qs ++ (ar', bs') :: rs)).Perm (b :: inUse (qs ++ (ar, bs) :: rs)) := by
  rw [inUse_middle, inUse_middle]
  exact ((h.append_right (inUse rs)).append_left (inUse qs)).trans perm_middle

/-! Allocating. -/

def firstFit (total : ℕ) (ps : List (Arena × List (Block Alloc))) : Option (Block Alloc) :=
  (ps.flatMap snd).find? (fits total)

lemma firstFit_cons (total : ℕ) (p : Arena × List (Block Alloc)) :
    firstFit total (p :: ps) = (p.2.find? (fits total)).or (firstFit total ps) := by
  rw [firstFit, flatMap_cons, find?_append]
  rfl

lemma allocInArenas_eq (req : ℕ) (hrep : ∀ p ∈ ps, ArenaOf P S mem p.1 p.2) :
    (firstFit (u32 (req + sizeofMemBlock)) ps = none ∧
      allocInArenas mem req (ps.map fst) = .ok none) ∨
    ∃ qs ar bs rs b, ps = qs ++ (ar, bs) :: rs ∧
      firstFit (u32 (req + sizeofMemBlock)) ps = some b ∧
      bs.find? (fits (u32 (req + sizeofMemBlock))) = some b ∧
      allocInArenas mem req (ps.map fst) = .ok (some (b.addr,
        (takeBlock ar.base ⟨mem, ar.freeblks⟩ b.addr req).mem,
        qs.map fst ++ { ar with freeblks := (takeBlock ar.base ⟨mem, ar.freeblks⟩ b.addr
          req).list } :: rs.map fst)) := by
  induction ps with
  | nil => exact .inl ⟨rfl, rfl⟩
  | cons p ps ih =>
    obtain ⟨ar, bs⟩ := p
    have h : ArenaOf P S mem ar bs := hrep _ mem_cons_self
    have hmagic : ¬ ar.maMagic ≠ mbMagic := not_not_intro h.magic
    have htry := tryAllocatingInArea_eq ar.base h.rep req
    rw [firstFit_cons, map_cons, allocInArenas, if_neg hmagic, htry]
    cases hfind : bs.find? (fits (u32 (req + sizeofMemBlock))) with
    | none =>
      rcases ih fun p hp => hrep p (mem_cons_of_mem _ hp) with ⟨hnone, hfail⟩ |
        ⟨qs, ar', bs1, rs, b, rfl, hfirst, hb, hok⟩
      · refine .inl ⟨hnone, ?_⟩
        simp only [hfail]
        rfl
      · refine .inr ⟨(ar, bs) :: qs, ar', bs1, rs, b, rfl, hfirst, hb, ?_⟩
        simp only [hok]
        rfl
    | some b =>
      exact .inr ⟨[], ar, bs, ps, b, rfl, rfl, hfind, rfl⟩

lemma ArenaOf.take {size req : ℕ} (hP : Closed P S) (h : ArenaOf P S mem ar bs) (hpos : 0 < req)
    (hal : 8 ∣ req) (hsize : size ≤ req) (hb : bs.find? (fits (req + 16)) = some b) {g : FreeList}
    (hg : takeBlock ar.base ⟨mem, ar.freeblks⟩ b.addr req = g) :
    ∃ bs', ArenaOf P S g.mem { ar with freeblks := g.list } bs' ∧
      (used bs').Perm (grant req size b :: used bs) ∧ Frame ar.lo ar.hi mem g.mem := by
  obtain ⟨hfree, hroom⟩ := fits_iff.1 (find?_some hb)
  have hbmem := mem_of_find?_eq_some hb
  have hbound := h.bounds hbmem
  obtain ⟨xs, ys, hbs⟩ := append_of_mem hbmem
  obtain ⟨bs', hrep, hsep, hperm⟩ :=
    takeBlock_spec hP h.linkable (hbs ▸ h.rep) hfree (hbs ▸ h.separated) hpos hal hsize hroom
  have hlist : ar.freeblks = frees bs := h.rep.list
  have hlisted : b.addr ∈ ar.freeblks := by
    rw [hlist]
    exact mem_frees_of_mem hbmem hfree
  have hwrites := (takeBlock_confined (f := ⟨mem, ar.freeblks⟩) ar.base hlisted req).writes
  rw [hg] at hrep hwrites
  refine ⟨bs', h.with_list hrep hsep, hbs ▸ hperm, hwrites.frame fun a ha => ?_⟩
  rcases mem_cons.1 ha with rfl | ha
  · have hrest : restOf b.addr req = b.addr + 16 + req := by
      rw [restOf, u32, sizeofMemBlock]
      omega
    rw [Arena.lo]
    omega
  · exact h.freeblks_bounds ha

/-! Freeing. -/

lemma freeInArenas_skip {as : List Arena}
    (h : ∀ q ∈ as, ¬ (q.lo ≤ addr ∧ addr < q.hi)) : freeInArenas addr mb mem as = (mem, as) := by
  induction as with
  | nil => rfl
  | cons q as ih =>
    have hq : ¬ (q.base + sizeofMemArena ≤ addr ∧ addr < q.base + sizeofMemArena + q.maSize) :=
      h q mem_cons_self
    rw [freeInArenas, if_neg hq, ih fun r hr => h r (mem_cons_of_mem _ hr)]

lemma freeInArenas_middle {as1 as2 : List Arena} (h1 : ∀ q ∈ as1, ¬ (q.lo ≤ addr ∧ addr < q.hi))
    (h2 : ∀ q ∈ as2, ¬ (q.lo ≤ addr ∧ addr < q.hi)) (har : ar.lo ≤ addr ∧ addr < ar.hi) :
    freeInArenas addr mb mem (as1 ++ ar :: as2) =
      let f := addFreeMemoryBlock ar.base ⟨mem, ar.freeblks⟩ mb
        (u32 (abs32 (mbSize mem mb) + sizeofMemBlock))
      (f.mem, as1 ++ { ar with freeblks := f.list } :: as2) := by
  induction as1 with
  | nil =>
    have hin : ar.base + sizeofMemArena ≤ addr ∧
        addr < ar.base + sizeofMemArena + ar.maSize := har
    rw [nil_append, freeInArenas, if_pos hin]
    simp [freeInArenas_skip h2]
  | cons q as1 ih =>
    have hq : ¬ (q.base + sizeofMemArena ≤ addr ∧ addr < q.base + sizeofMemArena + q.maSize) :=
      h1 q mem_cons_self
    rw [cons_append, freeInArenas, if_neg hq, ih fun r hr => h1 r (mem_cons_of_mem _ hr)]
    rfl

/-- The block behind a live pointer, with or without an alignment header. -/
lemma dataOf_eq (hok : HeaderOk P S mem c) (hl : c.use = some l)
    (hhi : c.addr + 16 + c.size < 2 ^ 32)
    (hprev : l.ptr = c.addr + 16 → NoHeader (tqePrev mem c.addr)) :
    dataOf mem l.ptr = c.addr + 16 := by
  have hlink := hok.link l hl
  have hlow := hlink.low
  have hin := hlink.inside
  have hheader : sub32 l.ptr sizeofAlignedMemBlock = l.ptr - 4 := by
    rw [sub32, u32, sizeofAlignedMemBlock]
    omega
  unfold dataOf
  rcases hlink.header with hptr | ⟨hptr, hoff, hread⟩
  · have hback : l.ptr - 4 = c.addr + 12 := by omega
    have hnot : ¬ readHalf mem (c.addr + 12) = alignedMemBlockMagic := by
      rw [readHalf_eq]
      exact hprev hptr
    simp only [hheader, hback, if_neg hnot]
    exact hptr
  · have hmagic : readHalf mem (l.ptr - 4) = alignedMemBlockMagic := by
      rw [readHalf_eq, hread]
      omega
    have hoffset : readHalf mem (l.ptr - 4 + 2) = l.ptr - (c.addr + 16) := by
      rw [readHalf_add_two, hread]
      omega
    simp only [hheader, if_pos hmagic]
    rw [sub32, u32]
    omega

lemma ArenaOf.free (hP : Closed P S) (h : ArenaOf P S mem ar (xs ++ c :: ys)) (hc : c.use ≠ none) :
    let f := addFreeMemoryBlock ar.base ⟨mem, ar.freeblks⟩ c.addr (c.size + 16)
    ∃ bs', ArenaOf P S f.mem { ar with freeblks := f.list } bs' ∧
      used bs' = used xs ++ used ys ∧ Frame ar.lo ar.hi mem f.mem := by
  have hok := h.rep.ok
  have hcmem : c ∈ xs ++ c :: ys := mem_append_right _ mem_cons_self
  have hcok := hok c hcmem
  have hbound := h.rep.contig.bounds hcmem
  have hlist : ar.freeblks = frees xs ++ frees ys := by
    have hall : ar.freeblks = frees (xs ++ c :: ys) := h.rep.list
    rw [hall, frees_append, frees_cons_used hc]
  obtain ⟨bs', hrep, hsep, hused⟩ := addFreeMemoryBlock_spec
    (f := ⟨mem, ar.freeblks⟩) hP h.linkable h.rep.contig
    (fun e he => hok e (mem_append_left _ he))
    (fun e he => hok e (mem_append_right _ (mem_cons_of_mem _ he))) hlist
    h.separated.left h.separated.right hcok.sized hcok.aligned
  have hconfined :=
    (addFreeMemoryBlock_confined ar.base c.addr (c.size + 16) ⟨mem, ar.freeblks⟩).writes
  refine ⟨bs', h.with_list hrep hsep, hused, hconfined.frame fun a ha => ?_⟩
  rcases mem_cons.1 ha with rfl | ha
  · omega
  · exact h.freeblks_bounds ha

lemma PoolOf.outside (h : PoolOf P S mp (qs ++ (ar, bs) :: rs))
    (haddr : ar.lo ≤ addr ∧ addr < ar.hi) : (∀ q ∈ qs.map fst, ¬ (q.lo ≤ addr ∧ addr < q.hi)) ∧
      ∀ q ∈ rs.map fst, ¬ (q.lo ≤ addr ∧ addr < q.hi) := by
  obtain ⟨-, hrs, hcross⟩ := pairwise_append.1 h.apart
  have hfar : ∀ q : Arena, q.Apart ar ∨ ar.Apart q → ¬ (q.lo ≤ addr ∧ addr < q.hi) := by
    intro q hq
    unfold Arena.Apart Arena.lo Arena.hi at *
    omega
  constructor
  · intro q hq
    obtain ⟨p, hp, rfl⟩ := mem_map.1 hq
    exact hfar p.1 (.inl (hcross p hp _ mem_cons_self))
  · intro q hq
    obtain ⟨p, hp, rfl⟩ := mem_map.1 hq
    exact hfar p.1 (.inr ((pairwise_cons.1 hrs).1 p hp))

lemma HeaderOk.checks (h : HeaderOk P S mem c) (hl : c.use = some l) (hsize : c.size < 2 ^ 31) :
    isNegative (mbSize mem c.addr) ∧ abs32 (mbSize mem c.addr) = c.size := by
  have hmb : mbSize mem c.addr = 2 ^ 32 - c.size := by simpa [hl] using h.size
  have hneg : isNegative (mbSize mem c.addr) := by
    rw [isNegative, decide_eq_true_eq]
    omega
  refine ⟨hneg, ?_⟩
  rw [abs32, if_pos hneg]
  omega

/-- The block leaves those in use, and no other block changes. -/
lemma kfree_spec (hP : Closed P S) (h : PoolOf P S mp ps) (hc : c ∈ inUse ps)
    (hl : c.use = some l) (hdata : dataOf mp.mem l.ptr = c.addr + 16) :
    ∃ mp' ps', kfree mp l.ptr = .ok mp' ∧ PoolOf P S mp' ps' ∧
      (inUse ps).Perm (c :: inUse ps') ∧ shapes ps' = shapes ps := by
  obtain ⟨qs, ar, xs, ys, rs, rfl, huse⟩ := inUse_split hc
  have har : ArenaOf P S mp.mem ar (xs ++ c :: ys) :=
    h.rep _ (mem_append_right _ mem_cons_self)
  have hcmem : c ∈ xs ++ c :: ys := mem_append_right _ mem_cons_self
  have hcok : HeaderOk P S mp.mem c := har.rep.ok c hcmem
  obtain ⟨hlow, hhigh, htop, hsize⟩ := har.bounds hcmem
  obtain ⟨hneg, habs⟩ := hcok.checks hl hsize
  have hlink := hcok.link l hl
  have hfirst := hlink.low
  have hlast := hlink.inside
  have hmb : sub32 (c.addr + 16) sizeofMemBlock = c.addr := by
    rw [sub32, u32, sizeofMemBlock]
    omega
  have htotal : u32 (c.size + sizeofMemBlock) = c.size + 16 := by
    rw [u32, sizeofMemBlock]
    omega
  have hchecks : ¬ (magicOf mp.mem c.addr ≠ mbMagic ∨ mp.mpMagic ≠ mbMagic ∨
      isNegative (mbSize mp.mem c.addr) = false) := by
    rw [hneg, hcok.magic, h.magic]
    decide
  obtain ⟨bs', hrep, hused, hframe⟩ := har.free hP huse
  have haddr : ar.lo ≤ c.addr + 16 ∧ c.addr + 16 < ar.hi := by
    unfold Arena.lo
    omega
  obtain ⟨hout1, hout2⟩ := h.outside haddr
  refine ⟨_, _, ?_, h.update hframe hrep, ?_, shapes_middle⟩
  · simp only [kfree, hdata, hmb, if_neg hchecks, h.arenas, map_append, map_cons,
      freeInArenas_middle hout1 hout2 haddr, habs, htotal]
  · apply inUse_perm
    rw [used_append, used_cons_used huse, hused]
    exact perm_middle

/-! Bytes of a block's data. -/

lemma HeaderOk.data (h : HeaderOk P S mem c) (hc : c.use ≠ none)
    (hmem : ∀ x, x < c.addr + 16 ∨ c.addr + 16 + c.size ≤ x → mem' x = mem x)
    (hlink : LinkOk mem' ⟨c.addr, c.size, some l⟩ l) :
    HeaderOk P S mem' ⟨c.addr, c.size, some l⟩ := by
  have hword : ∀ d ≤ 12, readWord mem' (c.addr + d) = readWord mem (c.addr + d) := by
    intro d hd
    apply readWord_congr
    intro x _ _
    exact hmem x (by omega)
  have hnone : c.use.isNone = false :=
    Option.isNone_eq_false_iff.2 (Option.isSome_iff_ne_none.2 hc)
  have hsize : mbSize mem c.addr = 2 ^ 32 - c.size := by simpa [hnone] using h.size
  refine ⟨(hword 0 (by omega)).trans h.magic, (hword 4 (by omega)).trans hsize, ?_, h.sized,
    h.aligned, fun l' hl' => ?_⟩
  · have hprev : tqePrev mem' c.addr = tqePrev mem c.addr := hword 12 le_rfl
    simp only [hprev]
    exact h.prev
  · cases hl'
    exact hlink

lemma ArenaOf.data (h : ArenaOf P S mem ar (xs ++ c :: ys)) (hc : c.use ≠ none)
    (hmem : ∀ x, x < c.addr + 16 ∨ c.addr + 16 + c.size ≤ x → mem' x = mem x)
    (hlink : LinkOk mem' ⟨c.addr, c.size, some l⟩ l) :
    ArenaOf P S mem' ar (xs ++ ⟨c.addr, c.size, some l⟩ :: ys) := by
  obtain ⟨hcx, hcy⟩ := contig_middle.1 h.rep.contig
  have hok := h.rep.ok
  have hnew : (⟨c.addr, c.size, some l⟩ : Block Alloc).use ≠ none := Option.some_ne_none _
  refine ⟨h.magic, h.top, h.small, h.links, ⟨contig_middle.2 ⟨hcx, hcy⟩, fun e he => ?_, ?_⟩,
    Separated.middle hnew h.separated.left h.separated.right⟩
  · rcases mem_append.1 he with he | he
    · apply (hok e (mem_append_left _ he)).congr_of_apart
      intro x _ hx
      have := (hcx.bounds he).2
      exact hmem x (by omega)
    · rcases mem_cons.1 he with rfl | he
      · exact (hok c (mem_append_right _ mem_cons_self)).data hc hmem hlink
      apply (hok e (mem_append_right _ (mem_cons_of_mem _ he))).congr_of_apart
      intro x hx _
      have := (hcy.bounds he).1
      exact hmem x (by omega)
  · have hlist := h.rep.list
    rw [frees_append, frees_cons_used hc] at hlist
    rw [frees_append]
    exact hlist

lemma PoolOf.data (h : PoolOf P S mp ps) (hc : c ∈ inUse ps)
    (hmem : ∀ x, x < c.addr + 16 ∨ c.addr + 16 + c.size ≤ x → mem' x = mp.mem x)
    (hlink : LinkOk mem' ⟨c.addr, c.size, some l⟩ l) :
    ∃ ps' bs, PoolOf P S { mp with mem := mem' } ps' ∧ (inUse ps).Perm (c :: bs) ∧
      (inUse ps').Perm (⟨c.addr, c.size, some l⟩ :: bs) ∧ shapes ps' = shapes ps := by
  obtain ⟨qs, ar, xs, ys, rs, rfl, huse⟩ := inUse_split hc
  have har : ArenaOf P S mp.mem ar (xs ++ c :: ys) :=
    h.rep _ (mem_append_right _ mem_cons_self)
  have hbound := har.rep.contig.bounds (mem_append_right xs mem_cons_self)
  have hframe : Frame ar.lo ar.hi mp.mem mem' := fun x hx => hmem x (by omega)
  have hnew := h.update hframe (har.data huse hmem hlink)
  have hsame : qs.map fst ++ ar :: rs.map fst = mp.mpArena := by
    rw [h.arenas]
    simp
  rw [hsame] at hnew
  have hrest : (used (xs ++ c :: ys)).Perm (c :: used (xs ++ ys)) := by
    rw [used_append, used_append, used_cons_used huse]
    exact perm_middle
  have hrest' : (used (xs ++ ⟨c.addr, c.size, some l⟩ :: ys)).Perm
      (⟨c.addr, c.size, some l⟩ :: used (xs ++ ys)) := by
    rw [used_append, used_append]
    exact perm_middle
  exact ⟨_, inUse (qs ++ (ar, xs ++ ys) :: rs), hnew, inUse_perm hrest, inUse_perm hrest',
    shapes_middle⟩

end GzOS.Kmalloc
