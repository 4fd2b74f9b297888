import GzOS.HeapLimits

/-!
# Moving an allocation

A reallocation takes a new block, copies the old one and frees it. It copies as
many bytes as the header of the old block says, whatever the size of the new one,
so it is safe where the new block is at least as large as the old one.
-/
namespace GzOS.Kmalloc
open ByteMemory BlockList Runs List Option

inductive Call
  | heap (op : Op)
  | krealloc (l : Alloc) (size flags : ℕ)

def recordMove (s : State) (l : Alloc) (size : ℕ) (r : Option ℕ × Pool) : State :=
  match r with
  | (none, pool) => ⟨pool, s.live⟩
  | (some ptr, pool) => ⟨pool, ⟨ptr, size⟩ :: s.live.erase l⟩

def call (s : State) : Call → Option State
  | .heap op => step s op
  | .krealloc l size flags =>
    ((Kmalloc.krealloc s.pool l.ptr size flags).map (recordMove s l size)).toOption

/-- The data size that a request gets of the free block `mb`. -/
def roomFor (mp : Pool) (size mb : ℕ) : ℕ :=
  if align size mbAlignment + sizeofMemBlock < mbSize mp.mem mb then align size mbAlignment
  else mbSize mp.mem mb

def Checked (mp : Pool) (ptr : ℕ) : Prop :=
  magicOf mp.mem (sub32 ptr sizeofMemBlock) = mbMagic ∧ mp.mpMagic = mbMagic ∧
    isNegative (mbSize mp.mem (sub32 ptr sizeofMemBlock)) = true

lemma checked_iff {mp : Pool} {ptr : ℕ} : Checked mp ptr ↔
    ¬ (magicOf mp.mem (sub32 ptr sizeofMemBlock) ≠ mbMagic ∨ mp.mpMagic ≠ mbMagic ∨
      isNegative (mbSize mp.mem (sub32 ptr sizeofMemBlock)) = false) := by
  simp [Checked]

/-- The pointer is not an aligned one with something like a header in front, the request
does not wrap around, and its block has room for the old one. -/
def Movable (s : State) (l : Alloc) (size : ℕ) : Prop :=
  (Checked s.pool l.ptr → dataOf s.pool.mem l.ptr = l.ptr) ∧
    (size = 0 ∨ Unwrapped s.pool size ∧ ∀ mb, firstFree s.pool (totalSize size) = some mb →
      abs32 (mbSize s.pool.mem (sub32 l.ptr sizeofMemBlock)) ≤ roomFor s.pool size mb)

def Guarded (s : State) : Call → Prop
  | .heap op => Within s op
  | .krealloc l size _ => l ∈ s.live ∧ Movable s l size

def Freed (mp : Pool) (mb size : ℕ) : Prop :=
  ∃ ar ∈ mp.mpArena, ∃ e ∈ ar.freeblks, e ≤ mb ∧ mb + size ≤ e + mbSize mp.mem e

/-- A block is granted, has the old contents, and the old one is free. -/
structure Reallocated (s : State) (l : Alloc) (size ptr : ℕ) (mp : Pool) : Prop where
  granted : sizeofMemBlock ≤ ptr ∧ Granted mp (ptr - sizeofMemBlock) size
  contents : ∀ i < min l.size size, mp.mem (ptr + i) = s.pool.mem (l.ptr + i)
  freed : Freed mp (sub32 l.ptr sizeofMemBlock)
    (abs32 (mbSize s.pool.mem (sub32 l.ptr sizeofMemBlock)))
  frame : ∀ x, (x < ptr ∨ ptr + abs32 (mbSize mp.mem (ptr - sizeofMemBlock)) ≤ x) →
    (∀ a ∈ sub32 l.ptr sizeofMemBlock :: (ptr + align size mbAlignment) ::
      freeHeaders s.pool.mpArena, x < a ∨ a + sizeofMemBlock ≤ x) → mp.mem x = s.pool.mem x
  live : Limited ⟨mp, ⟨ptr, size⟩ :: s.live.erase l⟩

variable {S : ℕ → Prop} {mp : Pool} {ps : List (Arena × List (Block Alloc))}
  {b c : Block Alloc} {l : Alloc}

variable {P : ℕ → Prop} {mp1 : Pool} {d : Block Alloc}

lemma PoolOf.freed {p : Arena × List (Block Alloc)} (h : PoolOf P S mp ps) (hp : p ∈ ps)
    (hlow : p.1.lo ≤ c.addr) (hhigh : c.addr + 16 + c.size ≤ p.1.hi)
    (hout : ∀ e ∈ inUse ps, c.addr + 16 + c.size ≤ e.addr ∨ e.addr + 16 + e.size ≤ c.addr) :
    Freed mp c.addr c.size := by
  have harena := h.rep p hp
  have hused : ∀ e ∈ used p.2, e.addr + 16 + e.size ≤ c.addr ∨ c.addr + (16 + c.size) ≤ e.addr := by
    intro e he
    have := hout e (mem_flatMap.2 ⟨p, hp, he⟩)
    omega
  obtain ⟨b, hb, hfree, hbl, hbh⟩ := harena.rep.contig.covered (by omega)
    harena.separated hlow (by omega) hused
  have hsize : mbSize mp.mem b.addr = b.size := by simpa [hfree] using (harena.rep.ok b hb).size
  have hlist : p.1.freeblks = frees p.2 := harena.rep.list
  refine ⟨p.1, ?_, b.addr, ?_, hbl, by omega⟩
  · rw [h.arenas]
    exact mem_map_of_mem hp
  · rw [hlist]
    exact mem_frees_of_mem hb hfree

/-! The header of an allocation that was not moved. -/

lemma PoolOf.header (h : PoolOf NoHeader S mp ps) (hc : c ∈ inUse ps) (hl : c.use = some l)
    (hptr : l.ptr = c.addr + 16) : sub32 l.ptr sizeofMemBlock = c.addr ∧
      abs32 (mbSize mp.mem c.addr) = c.size ∧ Checked mp l.ptr := by
  obtain ⟨hok, htop, hsize⟩ := h.block hc
  obtain ⟨hneg, habs⟩ := hok.checks hl hsize
  have hmb : sub32 l.ptr sizeofMemBlock = c.addr := by
    rw [sub32, u32, sizeofMemBlock]
    omega
  refine ⟨hmb, habs, ?_⟩
  rw [Checked, hmb]
  exact ⟨hok.magic, h.magic, hneg⟩

lemma PoolOf.grant_apart {total : ℕ} (h : PoolOf P S mp ps) (hb : firstFit total ps = some b)
    (req size : ℕ) :
    (grant req size b :: inUse ps).Pairwise fun p q =>
      p.addr + 16 + p.size ≤ q.addr ∨ q.addr + 16 + q.size ≤ p.addr := by
  refine pairwise_cons.2 ⟨fun e he => ?_, h.inUse_apart⟩
  have hapart := h.apart_free he (mem_of_find?_eq_some hb) (fits_iff.1 (find?_some hb)).1
  have hsize : (grant req size b).size ≤ b.size := by
    unfold grant
    split_ifs <;> simp only <;> omega
  have haddr : (grant req size b).addr = b.addr := rfl
  omega

lemma PoolOf.kmalloc_writes_grant {size flags : ℕ} (h : PoolOf P S mp ps)
    (hlt : size + 23 < 2 ^ 32) (hb : firstFit (rounded size + 16) ps = some b)
    (hnew : kmalloc mp size flags = .ok (some (b.addr + 16), mp1)) :
    (∀ x, (x < b.addr + 16 ∨ b.addr + 16 + size ≤ x) →
      (∀ a ∈ (b.addr + 16 + rounded size) :: freeHeaders mp.mpArena, x < a ∨ a + 16 ≤ x) →
        mp1.mem x = mp.mem x) ∧
      freeHeaders mp1.mpArena ⊆ (b.addr + 16 + rounded size) :: freeHeaders mp.mpArena := by
  have hfit := (fits_iff.1 (find?_some hb)).2
  obtain ⟨p, hp, hmem⟩ := mem_flatMap.1 (mem_of_find?_eq_some hb)
  have hbound := ((h.rep p hp).bounds hmem).2.2.1
  have hrest : restOf (b.addr + 16 - sizeofMemBlock) (align size mbAlignment) =
      b.addr + 16 + rounded size := by
    rw [(total_eq hlt).1, restOf, sizeofMemBlock, u32]
    omega
  rw [← hrest]
  exact kmalloc_writes hnew

variable {x : ℕ} {mp' : Pool}

lemma PoolOf.kmalloc_data {size flags : ℕ} (h : PoolOf P S mp ps) (hlt : size + 23 < 2 ^ 32)
    (hb : firstFit (rounded size + 16) ps = some b)
    (hnew : kmalloc mp size flags = .ok (some (b.addr + 16), mp1)) (hc : c ∈ inUse ps)
    (hlow : c.addr + 16 ≤ x) (hhigh : x < c.addr + 16 + c.size) : mp1.mem x = mp.mem x := by
  obtain ⟨hfree, hfit⟩ := fits_iff.1 (find?_some hb)
  have hbc := h.apart_free hc (mem_of_find?_eq_some hb) hfree
  have hle := (rounded_spec size).1
  refine (h.kmalloc_writes_grant hlt hb hnew).1 x (by omega) fun a ha => ?_
  rcases mem_cons.1 ha with rfl | ha
  · omega
  · have := h.apart_header hc ha
    omega

lemma PoolOf.copied {ps1 : List (Arena × List (Block Alloc))} {size n : ℕ}
    (h : PoolOf P S mp1 ps1) (src : ℕ) (hperm : (inUse ps1).Perm (d :: inUse ps))
    (hduse : d.use = some ⟨d.addr + 16, size⟩) (hn : n ≤ d.size) : ∃ ps2,
      PoolOf P S { mp1 with mem := copy mp1.mem (d.addr + 16) src n } ps2 ∧
      (inUse ps2).Perm (d :: inUse ps) ∧ shapes ps2 = shapes ps1 := by
  have hlink := (h.block (hperm.mem_iff.2 mem_cons_self)).1.link _ hduse
  have hcopy : ∀ x, x < d.addr + 16 ∨ d.addr + 16 + d.size ≤ x →
      copy mp1.mem (d.addr + 16) src n x = mp1.mem x := fun x hx => copy_of_ne (by omega)
  obtain ⟨ps2, hrep, hperm2, hshapes⟩ := h.retag hperm hcopy
    ⟨hlink.low, hlink.inside, hlink.room, hlink.aligned, .inl rfl⟩
  rw [← hduse] at hperm2
  exact ⟨ps2, hrep, hperm2, hshapes⟩

lemma PoolOf.kfree_writes_header (h : PoolOf NoHeader S mp ps) (hc : c ∈ inUse ps)
    (hl : c.use = some l) (hfree : kfree mp l.ptr = .ok mp') :
    Writes (c.addr :: freeHeaders mp.mpArena) mp.mem mp'.mem := by
  have htop := (h.block hc).2.1
  have hmb : sub32 (c.addr + 16) sizeofMemBlock = c.addr := by
    rw [sub32, u32, sizeofMemBlock]
    omega
  have hwrites := kfree_writes hfree
  rwa [h.dataOf hc hl, hmb] at hwrites

/-- The data moves to the first fit, and the old block is freed. -/
lemma krealloc_spec {size : ℕ} (flags : ℕ) (hP : Closed NoHeader S) (h : PoolOf NoHeader S mp ps)
    (hc : c ∈ inUse ps) (hl : c.use = some l) (hptr : l.ptr = c.addr + 16) (hpos : 0 < size)
    (hlt : size + 23 < 2 ^ 32) (hb : firstFit (rounded size + 16) ps = some b)
    (hd : grant (rounded size) size b = d) (hroom : c.size ≤ d.size) :
    ∃ mp' ps', krealloc mp l.ptr size flags = .ok (some (d.addr + 16), mp') ∧
      PoolOf NoHeader S mp' ps' ∧ (c :: inUse ps').Perm (d :: inUse ps) ∧ shapes ps' = shapes ps ∧
      (∀ i < min l.size size, mp'.mem (d.addr + 16 + i) = mp.mem (l.ptr + i)) ∧
      ∀ x, (x < d.addr + 16 ∨ d.addr + 16 + d.size ≤ x) →
        (∀ a ∈ c.addr :: (d.addr + 16 + rounded size) :: freeHeaders mp.mpArena,
          x < a ∨ a + 16 ≤ x) → mp'.mem x = mp.mem x := by
  obtain ⟨mp1, ps1, hnew, hrep1, hperm1, hshapes1⟩ := kmalloc_some flags hP h hpos hlt hb
  have hdaddr : b.addr = d.addr := by rw [← hd]; rfl
  have hduse : d.use = some ⟨d.addr + 16, size⟩ := by rw [← hd]; rfl
  have hpair := h.grant_apart hb (rounded size) size
  have hdsize := grant_size size (fits_iff.1 (find?_some hb)).2
  rw [hd] at hperm1 hpair hdsize
  have hle := (rounded_spec size).1
  have hdc := (pairwise_cons.1 hpair).1 c hc
  obtain ⟨hwrites, hheaders⟩ := h.kmalloc_writes_grant hlt hb hnew
  have hdata : ∀ x, c.addr + 16 ≤ x → x < c.addr + 16 + c.size → mp1.mem x = mp.mem x :=
    fun x hlow hhigh => h.kmalloc_data hlt hb hnew hc hlow hhigh
  rw [hdaddr] at hnew hwrites hheaders
  obtain ⟨hmb, -, hcheck⟩ := h.header hc hl hptr
  obtain ⟨-, habs, -⟩ := hrep1.header (hperm1.mem_iff.2 (mem_cons_of_mem d hc)) hl hptr
  obtain ⟨ps2, hrep2, hperm2, hshapes2⟩ := hrep1.copied l.ptr hperm1 hduse hroom
  have hdmem := hperm2.mem_iff.2 mem_cons_self
  have hcmem := hperm2.mem_iff.2 (mem_cons_of_mem d hc)
  obtain ⟨mp3, ps3, hfree, hrep3, hperm3, hshapes3⟩ :=
    kfree_spec hP hrep2 hcmem hl (hrep2.dataOf hcmem hl)
  refine ⟨mp3, ps3, ?_, hrep3, hperm3.symm.trans hperm2,
    hshapes3.trans (hshapes2.trans hshapes1), fun i hi => ?_, fun x hx hxh => ?_⟩
  · rw [krealloc]
    simp only [if_neg (checked_iff.1 hcheck), if_neg (Nat.pos_iff_ne_zero.1 hpos)]
    refine bind_ok.2 ⟨_, hnew, bind_ok.2 ⟨_, ?_, rfl⟩⟩
    rw [hmb, habs]
    exact hfree
  · have hlsize := ((h.block hc).1.link l hl).room
    calc mp3.mem (d.addr + 16 + i)
        = copy mp1.mem (d.addr + 16) l.ptr c.size (d.addr + 16 + i) := by
          refine hrep2.kfree_writes_header hcmem hl hfree _ fun a ha => ?_
          rcases mem_cons.1 ha with rfl | ha
          · omega
          · have := hrep2.apart_header hdmem ha
            omega
      _ = mp1.mem (l.ptr + i) := copy_of_lt (by omega) (by omega)
      _ = mp.mem (l.ptr + i) := hdata _ (by omega) (by omega)
  · have hall : ∀ a ∈ (d.addr + 16 + rounded size) :: freeHeaders mp.mpArena,
        x < a ∨ a + 16 ≤ x := fun a ha => hxh a (mem_cons_of_mem _ ha)
    calc mp3.mem x = copy mp1.mem (d.addr + 16) l.ptr c.size x := by
          refine hrep2.kfree_writes_header hcmem hl hfree x fun a ha => ?_
          rcases mem_cons.1 ha with rfl | ha
          · exact hxh _ mem_cons_self
          · exact hall a (hheaders ha)
      _ = mp1.mem x := copy_of_ne (by omega)
      _ = mp.mem x := hwrites x (by omega) hall

lemma PoolOf.roomFor_eq {size : ℕ} (h : PoolOf NoHeader S mp ps) (hlt : size + 23 < 2 ^ 32)
    (hb : firstFit (rounded size + 16) ps = some b) :
    roomFor mp size b.addr = (grant (rounded size) size b).size := by
  obtain ⟨p, hp, hmem⟩ := mem_flatMap.1 (mem_of_find?_eq_some hb)
  have hfree := (fits_iff.1 (find?_some hb)).1
  have hsize : mbSize mp.mem b.addr = b.size := by
    simpa [hfree] using ((h.rep p hp).rep.ok b hmem).size
  rw [roomFor, (total_eq hlt).1, hsize, grant, sizeofMemBlock]

/-! Reallocations in a run. -/

variable {s : State} {size flags : ℕ}

lemma krealloc_null (h : PoolOf NoHeader S mp ps) (hcheck : Checked mp l.ptr)
    (hnone : size = 0 ∨ firstFree mp (totalSize size) = none) :
    krealloc mp l.ptr size flags = .ok (none, mp) ∨
      krealloc mp l.ptr size flags = .error .exhausted := by
  rw [krealloc]
  simp only [if_neg (checked_iff.1 hcheck)]
  by_cases hzero : size = 0
  · rw [if_pos hzero]
    exact .inl rfl
  rw [if_neg hzero]
  rcases kmalloc_none flags h (h.firstFit_none (hnone.resolve_left hzero)) with hok | herr
  · rw [hok]
    exact .inl rfl
  · rw [herr]
    exact .inr rfl

lemma Holds.reallocated {ps' : List (Arena × List (Block Alloc))}
    (h : Holds NoHeader AnySize s ps) (hc : c ∈ inUse ps) (hl : c.use = some l)
    (hduse : d.use = some ⟨d.addr + 16, size⟩) (hpair : (d :: inUse ps).Pairwise fun p q =>
      p.addr + 16 + p.size ≤ q.addr ∨ q.addr + 16 + q.size ≤ p.addr)
    (hrep : PoolOf NoHeader AnySize mp' ps') (hperm : (c :: inUse ps').Perm (d :: inUse ps))
    (hshapes : shapes ps' = shapes ps) :
    Granted mp' d.addr size ∧ abs32 (mbSize mp'.mem d.addr) = d.size ∧ Freed mp' c.addr c.size ∧
      Limited ⟨mp', ⟨d.addr + 16, size⟩ :: s.live.erase l⟩ := by
  have hdc := (pairwise_cons.1 hpair).1 c hc
  have hd : d ∈ inUse ps' := by
    refine (mem_cons.1 (hperm.mem_iff.2 mem_cons_self)).resolve_left fun he => ?_
    rw [he] at hdc
    omega
  have hout := (pairwise_cons.1 ((hperm.pairwise_iff fun h => h.symm).2 hpair)).1
  refine ⟨hrep.granted hd hduse rfl, (hrep.header hd hduse rfl).2.1, ?_, ps', hrep, ?_⟩
  · obtain ⟨p, hp, hmem⟩ := mem_flatMap.1 hc
    have hbound := (h.pool.rep p hp).bounds (mem_used.1 hmem).1
    obtain ⟨q, hq, hbase, hsize⟩ := exists_of_shapes hshapes hp
    refine hrep.freed hq ?_ ?_ hout
    · rw [Arena.lo, hbase]
      exact hbound.1
    · rw [Arena.hi, hbase, hsize]
      exact hbound.2.1
  · have hmap := hperm.filterMap Block.use
    rw [filterMap_cons_some hl, filterMap_cons_some hduse] at hmap
    have hold := perm_cons_erase (h.live.mem_iff.2 (mem_filterMap.2 ⟨c, hc, hl⟩))
    have hnew := ((hold.symm.trans h.live).cons ⟨d.addr + 16, size⟩).trans hmap.symm
    exact ((List.Perm.swap _ _ _).trans hnew).cons_inv

lemma krealloc_cases (flags : ℕ) (h : Limited s) (hl : l ∈ s.live) (hcheck : Checked s.pool l.ptr)
    (hop : Movable s l size) :
    krealloc s.pool l.ptr size flags = .ok (none, s.pool) ∨
      krealloc s.pool l.ptr size flags = .error .exhausted ∨
      ∃ ptr mp, krealloc s.pool l.ptr size flags = .ok (some ptr, mp) ∧
        Reallocated s l size ptr mp := by
  obtain ⟨ps, h⟩ := h
  obtain ⟨hdata, hop⟩ := hop
  obtain ⟨c, hc, huse⟩ := exists_block h.live hl
  have hptr : l.ptr = c.addr + 16 := (hdata hcheck).symm.trans (h.pool.dataOf hc huse)
  obtain ⟨hmb, habs, -⟩ := h.pool.header hc huse hptr
  by_cases hzero : size = 0
  · exact (krealloc_null h.pool hcheck (.inl hzero)).imp_right Or.inl
  obtain ⟨hsize, hroom⟩ := hop.resolve_left hzero
  rcases hsize with hsize | hnone
  swap
  · exact (krealloc_null h.pool hcheck (.inr hnone)).imp_right Or.inl
  have hlt : size + 23 < 2 ^ 32 := by omega
  cases hb : firstFit (rounded size + 16) ps with
  | none =>
    have hnone : firstFree s.pool (totalSize size) = none := by
      rw [h.pool.firstFree_eq, totalSize, (total_eq hlt).2, hb]
      rfl
    exact (krealloc_null h.pool hcheck (.inr hnone)).imp_right Or.inl
  | some b =>
    right
    right
    have hgranted := h.pool.roomFor_eq hlt hb
    obtain ⟨d, hd⟩ : ∃ d, grant (rounded size) size b = d := ⟨_, rfl⟩
    have hduse : d.use = some ⟨d.addr + 16, size⟩ := by rw [← hd]; rfl
    have hle := hroom b.addr (h.pool.firstFree_of_fit hlt hb)
    rw [hmb, habs, hgranted, hd] at hle
    obtain ⟨mp', ps', hok, hrep, hperm, hshapes, hcontents, hframe⟩ :=
      krealloc_spec flags closed_anySize h.pool hc huse hptr (by omega) hlt hb hd hle
    have hpair := h.pool.grant_apart hb (rounded size) size
    rw [hd] at hpair
    obtain ⟨hnew, hdsize, hfreed, hlimited⟩ :=
      h.reallocated hc huse hduse hpair hrep hperm hshapes
    have hmove : d.addr + 16 - sizeofMemBlock = d.addr := Nat.add_sub_cancel _ _
    refine ⟨d.addr + 16, mp', hok, ⟨Nat.le_add_left _ _, ?_⟩, hcontents, ?_, ?_, hlimited⟩
    · exact hnew
    · rw [hmb, habs]
      exact hfreed
    · rw [hmove, hdsize, hmb, (total_eq hlt).1]
      exact hframe

lemma krealloc_unchecked (h : ¬ Checked mp l.ptr) :
    krealloc mp l.ptr size flags = .error .corruption := by
  rw [krealloc]
  simp only [if_pos (not_not.1 (checked_iff.not.1 h))]

lemma limited_call {t : State} (x : Call) (h : Limited s) (hx : Guarded s x)
    (ht : call s x = some t) : Limited t := by
  cases x with
  | heap op => exact limited_step op h hx ht
  | krealloc l size flags =>
    rw [call] at ht
    by_cases hcheck : Checked s.pool l.ptr
    · rcases krealloc_cases flags h hx.1 hcheck hx.2 with hnull | herr |
        ⟨ptr, mp, hok, hmoved⟩
      · rw [hnull] at ht
        exact some.inj ht ▸ h
      · rw [herr] at ht
        cases ht
      · rw [hok] at ht
        exact some.inj ht ▸ hmoved.live
    · rw [krealloc_unchecked hcheck] at ht
      cases ht

/-- In every run whose reallocations have room for the old block, a reallocation that
returns a block moves the allocation there, and one that returns the null pointer
changes nothing. -/
theorem krealloc_moves (mem : Mem) (calls : List Call)
    (h : Meets call Guarded (start mem) calls) : Always call (fun s => ∀ l ∈ s.live,
      ∀ size flags, Movable s l size → ∀ mp,
        (krealloc s.pool l.ptr size flags = .ok (none, mp) → mp = s.pool) ∧
        ∀ ptr, krealloc s.pool l.ptr size flags = .ok (some ptr, mp) →
          Reallocated s l size ptr mp) (start mem) calls := by
  have hlimited :=
    always_of_meets (fun _ x _ hs hx ht => limited_call x hs hx ht) (limited_start mem) h
  refine hlimited.mono fun s hs l hl size flags hop mp => ?_
  by_cases hcheck : Checked s.pool l.ptr
  · rcases krealloc_cases flags hs hl hcheck hop with hnull | herr | ⟨ptr, mp', hsome, hmoved⟩
    · rw [hnull]
      refine ⟨fun hok => ?_, fun ptr hok => by cases hok⟩
      cases hok
      rfl
    · rw [herr]
      exact ⟨(fun hok => by cases hok), fun ptr hok => by cases hok⟩
    · rw [hsome]
      refine ⟨(fun hok => by cases hok), fun ptr hok => ?_⟩
      cases hok
      exact hmoved
  · rw [krealloc_unchecked hcheck]
    exact ⟨(fun hok => by cases hok), fun ptr hok => by cases hok⟩

def sampleGrow : List Call := [.heap sampleArena, .heap (.kmalloc 8 0)]

theorem krealloc_moves_grow : ∃ s, exec call (start fun _ => 0) sampleGrow = some s ∧
    ∃ mp, krealloc s.pool 0x80000030 24 0 = .ok (some 0x80000048, mp) ∧
      Reallocated s ⟨0x80000030, 8⟩ 24 0x80000048 mp := by
  have hmeets : Meets call Guarded (start fun _ => 0) sampleGrow := by
    simp only [sampleGrow, meets_cons]
    exact ⟨⟨by decide, by decide, by decide, (fun ar har => by cases har), by decide⟩, fun s _ =>
      ⟨.inl (by decide), fun _ _ => meets_nil _ _ _⟩⟩
  have hrun : (exec call (start fun _ => 0) sampleGrow).any (fun s => decide
      (s.live = [⟨0x80000030, 8⟩] ∧ dataOf s.pool.mem 0x80000030 = 0x80000030 ∧
        firstFree s.pool (totalSize 24) = some 0x80000038 ∧
        abs32 (mbSize s.pool.mem 0x80000020) ≤ roomFor s.pool 24 0x80000038 ∧
        (krealloc s.pool 0x80000030 24 0).toOption.map Prod.fst = some (some 0x80000048))) =
      true := by decide +kernel
  obtain ⟨s, hs, hfacts⟩ := (any_eq_true _ _).1 hrun
  obtain ⟨hlive, hdata, hfirst, hroom, hres⟩ := of_decide_eq_true hfacts
  obtain ⟨⟨ptr, mp⟩, hok, hptr⟩ := map_eq_some_iff.1 hres
  obtain rfl : ptr = some 0x80000048 := hptr
  rw [toOption_eq_some] at hok
  have hmovable : Movable s ⟨0x80000030, 8⟩ 24 := by
    refine ⟨fun _ => hdata, .inr ⟨.inl (by decide), fun mb hmb => ?_⟩⟩
    obtain rfl : 0x80000038 = mb := some.inj (hfirst.symm.trans hmb)
    exact hroom
  refine ⟨s, hs, mp, hok, ?_⟩
  exact ((krealloc_moves _ _ hmeets).last hs ⟨0x80000030, 8⟩ (by simp [hlive]) 24 0 hmovable mp).2
    _ hok

def sampleShrink : List Call :=
  [.heap sampleArena, .heap (.kmalloc 64 0), .heap (.kmalloc 24 0), .heap (.kmalloc 40 0),
    .heap (.kfree ⟨0x80000080, 24⟩), .heap (.write ⟨0x80000030, 64⟩ 40 1)]

/-- Shrinking an allocation of 64 bytes into a block of 24 overwrites the data of the
live allocation behind it. -/
theorem krealloc_overwrites : ∃ s, exec call (start fun _ => 0) sampleShrink = some s ∧
    ⟨0x80000030, 64⟩ ∈ s.live ∧ ⟨0x800000a8, 40⟩ ∈ s.live ∧
    ∃ mp, krealloc s.pool 0x80000030 8 0 = .ok (some 0x80000080, mp) ∧
      mp.mem 0x800000a8 ≠ s.pool.mem 0x800000a8 ∧
      ¬ Reallocated s ⟨0x80000030, 64⟩ 8 0x80000080 mp := by
  have hrun : (exec call (start fun _ => 0) sampleShrink).any (fun s => decide
      (s.live = [⟨0x800000a8, 40⟩, ⟨0x80000030, 64⟩] ∧ s.pool.mem 0x800000a8 = 0 ∧
        freeHeaders s.pool.mpArena = [0x80000070, 0x800000d0] ∧
        (krealloc s.pool 0x80000030 8 0).toOption.map (fun r =>
          (r.1, r.2.mem 0x800000a8, abs32 (mbSize r.2.mem 0x80000070))) =
            some (some 0x80000080, 1, 24))) = true := by decide +kernel
  obtain ⟨s, hs, hfacts⟩ := (any_eq_true _ _).1 hrun
  obtain ⟨hlive, hbyte, hheaders, hres⟩ := of_decide_eq_true hfacts
  obtain ⟨⟨ptr, mp⟩, hok, hptr⟩ := map_eq_some_iff.1 hres
  simp only [Prod.mk.injEq] at hptr
  obtain ⟨rfl, hnew, hsize⟩ := hptr
  rw [toOption_eq_some] at hok
  have hne : mp.mem 0x800000a8 ≠ s.pool.mem 0x800000a8 := by
    rw [hnew, hbyte]
    decide
  refine ⟨s, hs, by simp [hlive], by simp [hlive], mp, hok, hne, fun h => hne (h.frame _ ?_ ?_)⟩
  · right
    show 0x80000080 + abs32 (mbSize mp.mem 0x80000070) ≤ 0x800000a8
    rw [hsize]
    decide
  · rw [hheaders]
    decide

end GzOS.Kmalloc
