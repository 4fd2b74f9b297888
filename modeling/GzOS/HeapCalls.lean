import GzOS.HeapPool
import Mathlib.Tactic

/-!
# The calls of the heap

What an allocation, an aligned allocation and a new arena do to the blocks of the
pool. An allocation takes the first free block with room for the rounded request
and a header, so which block it is follows from the blocks alone.
-/
namespace GzOS.Kmalloc
open ByteMemory BlockList List Nat

variable {P S : ℕ → Prop} {mem mem' : Mem} {mp : Pool}
  {ps : List (Arena × List (Block Alloc))} {b c : Block Alloc} {l : Alloc}

variable {x k size ptr : ℕ} {mp' : Pool}

lemma and_mask (hx : x < 2 ^ 32) (hk : k ≤ 32) : x &&& (2 ^ 32 - 2 ^ k) = x / 2 ^ k * 2 ^ k := by
  have hmask : 2 ^ 32 - 2 ^ k = (2 ^ (32 - k) - 1) <<< k := by
    rw [Nat.shiftLeft_eq, Nat.sub_mul, ← pow_add, Nat.sub_add_cancel hk, one_mul]
  rw [hmask, ← shiftRight_eq_div_pow, ← shiftLeft_eq]
  apply eq_of_testBit_eq
  intro i
  simp only [testBit_shiftLeft, testBit_shiftRight]
  by_cases hi : k ≤ i
  · rw [Nat.add_sub_cancel' hi]
    by_cases hlt : i < 32
    · simp [hi, show i - k < 32 - k by omega]
    · have hbit : x.testBit i = false :=
        Nat.testBit_lt_two_pow (hx.trans_le (Nat.pow_le_pow_right (by decide) (by omega)))
      simp [hbit]
  · simp [hi]

lemma align_eq (hk : k ≤ 32) (hx : x + (2 ^ k - 1) < 2 ^ 32) :
    align x (2 ^ k) = (x + (2 ^ k - 1)) / 2 ^ k * 2 ^ k := by
  rw [align, u32, mod_eq_of_lt hx, and_mask hx hk]

def rounded (size : ℕ) : ℕ := (size + 7) / 8 * 8

lemma rounded_spec (size : ℕ) : size ≤ rounded size ∧ rounded size ≤ size + 7 ∧
    8 ∣ rounded size := by
  unfold rounded
  omega

lemma total_eq (hlt : size + 23 < 2 ^ 32) : align size mbAlignment = rounded size ∧
    u32 (align size mbAlignment + sizeofMemBlock) = rounded size + 16 := by
  have halign : align size mbAlignment = rounded size := 
    align_eq (k := 3) (by decide) (by omega)
  have := rounded_spec size
  refine ⟨halign, ?_⟩
  rw [u32, sizeofMemBlock]
  omega

lemma kmalloc_none (flags : ℕ) (h : PoolOf P S mp ps)
    (hnone : firstFit (u32 (align size mbAlignment + sizeofMemBlock)) ps = none) :
    kmalloc mp size flags = .ok (none, mp) ∨ kmalloc mp size flags = .error .exhausted := by
  by_cases hzero : size = 0
  · left
    rw [kmalloc, if_pos hzero]
  rcases allocInArenas_eq (align size mbAlignment) h.rep with ⟨-, hfail⟩ |
    ⟨_, _, _, _, b, -, hb, -⟩
  · have heq : kmalloc mp size flags =
        if flags &&& mNowait ≠ 0 then .ok (none, mp) else .error .exhausted := by
      rw [kmalloc, if_neg hzero, h.arenas, hfail]
      rfl
    rw [heq]
    split_ifs
    · exact .inl rfl
    · exact .inr rfl
  · rw [hnone] at hb
    cases hb

lemma kmalloc_found (flags : ℕ) (h : PoolOf P S mp ps) (hzero : size ≠ 0)
    (hb : firstFit (u32 (align size mbAlignment + sizeofMemBlock)) ps = some b) :
    ∃ mp', kmalloc mp size flags = .ok (some (b.addr + 16), mp') := by
  rcases allocInArenas_eq (align size mbAlignment) h.rep with ⟨hnone, -⟩ |
    ⟨_, _, _, _, b', -, hfirst, -, hsome⟩
  · rw [hnone] at hb
    cases hb
  · obtain rfl := Option.some.inj (hfirst.symm.trans hb)
    rw [kmalloc, if_neg hzero, h.arenas, hsome]
    exact ⟨_, rfl⟩

/-- The first fit is split, or taken whole if too little would be left. -/
lemma kmalloc_some (flags : ℕ) (hP : Closed P S) (h : PoolOf P S mp ps) (hpos : 0 < size)
    (hlt : size + 23 < 2 ^ 32) (hb : firstFit (rounded size + 16) ps = some b) :
    ∃ mp' ps', kmalloc mp size flags = .ok (some (b.addr + 16), mp') ∧ PoolOf P S mp' ps' ∧
      (inUse ps').Perm (grant (rounded size) size b :: inUse ps) ∧ shapes ps' = shapes ps := by
  obtain ⟨halign, htotal⟩ := total_eq hlt
  obtain ⟨hle, -, hal⟩ := rounded_spec size
  rw [halign] at htotal
  have hspec := allocInArenas_eq (rounded size) h.rep
  rw [htotal, ← h.arenas] at hspec
  rcases hspec with ⟨hnone, -⟩ | ⟨qs, ar, bs, rs, b', rfl, hfirst, hfind, hsome⟩
  · rw [hnone] at hb
    cases hb
  obtain rfl := Option.some.inj (hfirst.symm.trans hb)
  have hroom := (fits_iff.1 (find?_some hfind)).2
  have har := h.rep (ar, bs) (mem_append_right _ mem_cons_self)
  obtain ⟨g, htake⟩ : ∃ g, takeBlock ar.base ⟨mp.mem, ar.freeblks⟩ b'.addr (rounded size) = g :=
    ⟨_, rfl⟩
  rw [htake] at hsome
  obtain ⟨bs', harep, hperm, hframe⟩ := har.take hP (by omega) hal hle hfind htake
  have hfit := grant_size size hroom
  have haddr : (grant (rounded size) size b').addr = b'.addr := rfl
  have huse : (grant (rounded size) size b').use = some ⟨b'.addr + 16, size⟩ := rfl
  obtain ⟨d, hd⟩ : ∃ d, grant (rounded size) size b' = d := ⟨_, rfl⟩
  rw [hd] at hperm hfit haddr huse ⊢
  have hnew := h.update hframe harep
  have hall : (inUse (qs ++ ({ ar with freeblks := g.list }, bs') :: rs)).Perm
      (d :: inUse (qs ++ (ar, bs) :: rs)) := inUse_perm hperm
  have hdmem := (mem_used.1 (hperm.mem_iff.2 mem_cons_self)).1
  have hlink := (harep.rep.ok _ hdmem).link _ huse
  obtain ⟨mem', hmem'⟩ : ∃ mem', mem' =
      if flags &&& mZero ≠ 0 then zero g.mem (b'.addr + 16) size else g.mem := ⟨_, rfl⟩
  have hout : ∀ x, x < d.addr + 16 ∨ d.addr + 16 + d.size ≤ x → mem' x = g.mem x := by
    intro x hx
    rw [hmem']
    split_ifs
    · exact zero_of_ne (by omega)
    · rfl
  obtain ⟨ps', bs1, hrep, hold, hnew', hshapes⟩ :=
    hnew.data (hall.mem_iff.2 mem_cons_self) hout
      ⟨hlink.low, hlink.inside, hlink.room, hlink.aligned, .inl (by rw [haddr])⟩
  rw [← huse] at hnew'
  refine ⟨_, ps', ?_, hrep, hnew'.trans (hold.symm.trans hall), hshapes.trans shapes_middle⟩
  have hzero : size ≠ 0 := by omega
  rw [kmalloc, if_neg hzero, halign, hsome, hmem']
  rfl

lemma kmalloc_spec {size : ℕ} (flags : ℕ) (hP : Closed P S) (h : PoolOf P S mp ps)
    (hlt : size + 23 < 2 ^ 32) :
    kmalloc mp size flags = .ok (none, mp) ∨ kmalloc mp size flags = .error .exhausted ∨
      ∃ b mp' ps', firstFit (rounded size + 16) ps = some b ∧
        kmalloc mp size flags = .ok (some (b.addr + 16), mp') ∧ PoolOf P S mp' ps' ∧
        (inUse ps').Perm (grant (rounded size) size b :: inUse ps) ∧ shapes ps' = shapes ps := by
  rcases Nat.eq_zero_or_pos size with rfl | hpos
  · left
    rw [kmalloc, if_pos rfl]
  cases hb : firstFit (rounded size + 16) ps with
  | none =>
    have hnone := hb
    rw [← (total_eq hlt).2] at hnone
    exact (kmalloc_none flags h hnone).imp_right Or.inl
  | some b =>
    obtain ⟨mp', ps', hsome⟩ := kmalloc_some flags hP h hpos hlt hb
    exact .inr (.inr ⟨b, mp', ps', rfl, hsome⟩)

/-! The blocks of a pool. -/

lemma PoolOf.blocks_apart (h : PoolOf P S mp ps) (hb : b ∈ ps.flatMap Prod.snd)
    (hc : c ∈ ps.flatMap Prod.snd) :
    b = c ∨ b.addr + 16 + b.size ≤ c.addr ∨ c.addr + 16 + c.size ≤ b.addr := by
  obtain ⟨p, hp, hbp⟩ := mem_flatMap.1 hb
  obtain ⟨q, hq, hcq⟩ := mem_flatMap.1 hc
  by_cases hpq : p = q
  · subst hpq
    exact (h.rep p hp).rep.contig.apart hbp hcq
  have hbb := (h.rep p hp).bounds hbp
  have hcb := (h.rep q hq).bounds hcq
  have hsymm : Std.Symm fun p q : Arena × List (Block Alloc) => p.1.Apart q.1 :=
    ⟨fun _ _ => Or.symm⟩
  have hapart : p.1.Apart q.1 := h.apart.forall hp hq hpq
  unfold Arena.Apart at hapart
  omega

lemma PoolOf.inUse_apart (h : PoolOf P S mp ps) : (inUse ps).Pairwise fun p q =>
    p.addr + 16 + p.size ≤ q.addr ∨ q.addr + 16 + q.size ≤ p.addr := by
  refine pairwise_flatMap.2 ⟨fun p hp => ?_, h.apart.imp_of_mem fun {p q} hp hq hpq => ?_⟩
  · exact ((h.rep p hp).rep.contig.pairwise.imp Or.inl).filter _
  intro x hx y hy
  have hxb := (h.rep p hp).rep.contig.bounds (mem_used.1 hx).1
  have hyb := (h.rep q hq).rep.contig.bounds (mem_used.1 hy).1
  have := hpq.blocks
  omega

lemma PoolOf.apart_free (h : PoolOf P S mp ps) (hc : c ∈ inUse ps)
    (hb : b ∈ ps.flatMap Prod.snd) (hfree : b.use = none) :
    c.addr + 16 + c.size ≤ b.addr ∨ b.addr + 16 + b.size ≤ c.addr := by
  obtain ⟨_, _, hmem⟩ := mem_flatMap.1 hc
  obtain ⟨p, hp, hmem⟩ := mem_flatMap.1 hc
  have hblock := mem_flatMap.2 ⟨p, hp, (mem_used.1 hmem).1⟩
  refine (h.blocks_apart hblock hb).resolve_left fun he => ?_
  exact (mem_used.1 hmem).2 (he ▸ hfree)

lemma PoolOf.apart_header (h : PoolOf P S mp ps) (hc : c ∈ inUse ps) {a : ℕ}
    (ha : a ∈ freeHeaders mp.mpArena) : c.addr + 16 + c.size ≤ a ∨ a + 16 ≤ c.addr := by
  rw [h.arenas] at ha
  obtain ⟨ar, har, hmem⟩ := mem_flatMap.1 ha
  obtain ⟨p, hp, rfl⟩ := mem_map.1 har
  have hlist : p.1.freeblks = frees p.2 := (h.rep p hp).rep.list
  rw [hlist] at hmem
  obtain ⟨b, hb, hfree, rfl⟩ := mem_frees.1 hmem
  have := h.apart_free hc (mem_flatMap.2 ⟨p, hp, hb⟩) hfree
  omega

/-! Aligned allocations. -/

lemma PoolOf.block (h : PoolOf P S mp ps) (hc : c ∈ inUse ps) : HeaderOk P S mp.mem c ∧
    c.addr + 16 + c.size < 2 ^ 32 ∧ c.size < 2 ^ 31 := by
  obtain ⟨p, hp, hmem⟩ := mem_flatMap.1 hc
  have har := h.rep p hp
  have hcb := (mem_used.1 hmem).1
  exact ⟨har.rep.ok c hcb, (har.bounds hcb).2.2⟩

/-- A live pointer leads to its block if no back link looks like an alignment header. -/
lemma PoolOf.dataOf (h : PoolOf NoHeader S mp ps) (hc : c ∈ inUse ps) (hl : c.use = some l) :
    dataOf mp.mem l.ptr = c.addr + 16 := by
  obtain ⟨hok, htop, -⟩ := h.block hc
  exact dataOf_eq hok hl htop fun _ => hok.prev

def gap (ptr k : ℕ) : ℕ := 2 ^ k - ptr % 2 ^ k

lemma gap_spec (hptr : 8 ∣ ptr) (hunaligned : ptr % 2 ^ k ≠ 0) :
    8 ≤ gap ptr k ∧ gap ptr k + 8 ≤ 2 ^ k ∧ 8 ∣ ptr + gap ptr k ∧
      (ptr + gap ptr k) % 2 ^ k = 0 := by
  have hbig : 3 ≤ k := by
    by_contra hsmall
    apply hunaligned
    apply mod_eq_zero_of_dvd
    have hdvd : 2 ^ k ∣ 8 := pow_dvd_pow 2 (show k ≤ 3 by omega)
    exact hdvd.trans hptr
  have height : 8 ∣ 2 ^ k := pow_dvd_pow 2 hbig
  have hmod : 8 ∣ ptr % 2 ^ k := (dvd_mod_iff height).2 hptr
  have hsum : ptr + (2 ^ k - ptr % 2 ^ k) = ptr - ptr % 2 ^ k + 2 ^ k := by
    have := mod_le ptr (2 ^ k)
    omega
  unfold gap
  refine ⟨by omega, by omega, by omega, ?_⟩
  rw [hsum, add_mod_right]
  exact mod_eq_zero_of_dvd (dvd_sub_mod ptr)

lemma align_gap (hk : k ≤ 32) (hptr : 8 ∣ ptr) (hunaligned : ptr % 2 ^ k ≠ 0) :
    align (u32 (ptr + sizeofAlignedMemBlock)) (2 ^ k) = u32 (ptr + gap ptr k) := by
  have hpos : 0 < 2 ^ k := Nat.two_pow_pos k
  obtain ⟨hlow, hhigh, -, -⟩ := gap_spec hptr hunaligned
  have hdiv : (ptr + 4 + (2 ^ k - 1)) / 2 ^ k = ptr / 2 ^ k + 1 := by
    have hparts := div_add_mod ptr (2 ^ k)
    have hsum : ptr + 4 + (2 ^ k - 1) = ptr % 2 ^ k + 3 + 2 ^ k * (ptr / 2 ^ k + 1) := by
      rw [mul_add]
      omega
    unfold gap at hlow
    rw [hsum, add_mul_div_left _ _ hpos, div_eq_of_lt (by omega), zero_add]
  have hmoved : (ptr / 2 ^ k + 1) * 2 ^ k = ptr + gap ptr k := by
    have hparts := div_add_mod' ptr (2 ^ k)
    unfold gap
    rw [add_mul]
    omega
  have hu32 : u32 (u32 (ptr + sizeofAlignedMemBlock) + (2 ^ k - 1)) =
      u32 (ptr + 4 + (2 ^ k - 1)) := mod_add_mod _ _ _
  have hword : (2 : ℕ) ^ 32 = 2 ^ k * 2 ^ (32 - k) := by
    rw [← pow_add, Nat.add_sub_cancel' hk]
  have hcut : ∀ x, x % 2 ^ 32 / 2 ^ k * 2 ^ k = x / 2 ^ k * 2 ^ k % 2 ^ 32 := by
    intro x
    rw [hword, mod_mul_right_div_self, mul_comm (2 ^ k), mul_mod_mul_right]
  have hlt : u32 (ptr + 4 + (2 ^ k - 1)) < 2 ^ 32 := mod_lt _ (by decide)
  rw [align, hu32, and_mask hlt hk, u32, hcut, hdiv, hmoved]
  rfl

def writeHeader (mem : Mem) (header offset : ℕ) : Mem :=
  writeHalf (writeHalf mem header alignedMemBlockMagic) (header + 2) offset

lemma readWord_writeHeader {header offset : ℕ} :
    readWord (writeHeader mem header offset) header =
      alignedMemBlockMagic * 2 ^ 16 + offset % 2 ^ 16 := by
  rw [readWord, writeHeader, readHalf_writeHalf, readHalf_writeHalf_ne (by omega),
    readHalf_writeHalf, alignedMemBlockMagic]
  omega

variable {ps' : List (Arena × List (Block Alloc))}

lemma PoolOf.retag (h : PoolOf P S mp' ps') (hperm : (inUse ps').Perm (b :: inUse ps))
    (hmem : ∀ x, x < b.addr + 16 ∨ b.addr + 16 + b.size ≤ x → mem' x = mp'.mem x)
    (hlink : LinkOk mem' ⟨b.addr, b.size, some l⟩ l) :
    ∃ ps1, PoolOf P S { mp' with mem := mem' } ps1 ∧
      (inUse ps1).Perm (⟨b.addr, b.size, some l⟩ :: inUse ps) ∧ shapes ps1 = shapes ps' := by
  obtain ⟨ps1, bs, hrep, hold, hnew, hshapes⟩ :=
    h.data (hperm.mem_iff.2 mem_cons_self) hmem hlink
  have hrest : bs.Perm (inUse ps) := (hold.symm.trans hperm).cons_inv
  exact ⟨ps1, hrep, hnew.trans (hrest.cons _), hshapes⟩

lemma padded_eq (hlt : size + 2 ^ k + 4 < 2 ^ 32) :
    u32 (size + 2 ^ k + sizeofAlignedMemBlock) = size + 2 ^ k + 4 := mod_eq_of_lt hlt

lemma kmemalign_aligned {mp' : Pool} {size k ptr : ℕ} (flags : ℕ)
    (hsize : size + 2 ^ k + 4 < 2 ^ 32)
    (hsome : kmalloc mp (size + 2 ^ k + 4) flags = .ok (some ptr, mp'))
    (haligned : ptr % 2 ^ k = 0) :
    kmemalign mp size (2 ^ k) flags = .ok (some ptr, mp') := by
  rw [kmemalign, padded_eq hsize, hsome]
  simp only [bind, Except.bind, if_pos haligned]
  rfl

/-- The room is always found to be there, also where the addresses wrap around. -/
lemma kmemalign_moved (flags : ℕ) (hk : k ≤ 31) (hsize : size + 2 ^ k + 4 < 2 ^ 32)
    (hsome : kmalloc mp (size + 2 ^ k + 4) flags = .ok (some ptr, mp')) (hptr : 8 ∣ ptr)
    (hlt : ptr < 2 ^ 32) (hunaligned : ptr % 2 ^ k ≠ 0) :
    kmemalign mp size (2 ^ k) flags = .ok (some (u32 (ptr + gap ptr k)), { mp' with
      mem := writeHeader mp'.mem (sub32 (u32 (ptr + gap ptr k)) 4) (gap ptr k) }) := by
  obtain ⟨hlow, hhigh, -, -⟩ := gap_spec hptr hunaligned
  have hroom : ¬ sub32 (u32 (ptr + (size + 2 ^ k + 4))) (u32 (ptr + gap ptr k)) < size := by
    simp only [sub32, u32]
    omega
  have hoffset : sub32 (u32 (ptr + gap ptr k)) ptr = gap ptr k := by
    simp only [sub32, u32]
    omega
  rw [kmemalign, padded_eq hsize, hsome]
  simp only [bind, Except.bind, if_neg hunaligned, align_gap (by omega : k ≤ 32) hptr hunaligned,
    if_neg hroom, hoffset]
  rfl

def Lossless (ptr k : ℕ) : Prop := ptr % 2 ^ k = 0 ∨ gap ptr k < 2 ^ 16

lemma lossless_of_le (hk : k ≤ 16) : Lossless ptr k := by
  by_cases haligned : ptr % 2 ^ k = 0
  · exact .inl haligned
  right
  have hpow : 2 ^ k ≤ 2 ^ 16 := Nat.pow_le_pow_right (by decide) hk
  unfold gap
  omega

structure Moved (ptr size padded moved : ℕ) : Prop where
  low : ptr + 8 ≤ moved
  high : moved + size < ptr + padded
  offset : moved < ptr + 2 ^ 16
  aligned : 8 ∣ moved

/-- The aligned pointer and the header before it lie inside the block of `kmalloc`. -/
lemma kmemalign_some (flags : ℕ) (hk : k ≤ 31) (hsize : size + 2 ^ k + 4 < 2 ^ 32)
    (hsome : kmalloc mp (size + 2 ^ k + 4) flags = .ok (some (b.addr + 16), mp'))
    (h : PoolOf P S mp' ps') (hperm : (inUse ps').Perm (b :: inUse ps))
    (hroom : size + 2 ^ k + 4 ≤ b.size) (hloss : Lossless (b.addr + 16) k) :
    ∃ ptr mp1 ps1, kmemalign mp size (2 ^ k) flags = .ok (some ptr, mp1) ∧ PoolOf P S mp1 ps1 ∧
      (inUse ps1).Perm (⟨b.addr, b.size, some ⟨ptr, size⟩⟩ :: inUse ps) ∧
      shapes ps1 = shapes ps' ∧ ptr % 2 ^ k = 0 := by
  obtain ⟨hbok, htop, -⟩ := h.block (hperm.mem_iff.2 mem_cons_self)
  have hptr : 8 ∣ b.addr + 16 := dvd_add hbok.aligned (by decide)
  by_cases haligned : (b.addr + 16) % 2 ^ k = 0
  · have hlink : LinkOk mp'.mem ⟨b.addr, b.size, some ⟨b.addr + 16, size⟩⟩ ⟨b.addr + 16, size⟩ :=
      ⟨le_rfl, by simp only; omega, by simp only; omega, hptr, .inl rfl⟩
    obtain ⟨ps1, hrep1, hperm1, hshapes⟩ := h.retag hperm (fun _ _ => rfl) hlink
    exact ⟨_, _, ps1, kmemalign_aligned flags hsize hsome haligned, hrep1, hperm1, hshapes,
      haligned⟩
  · obtain ⟨hlow, hhigh, hal, hmult⟩ := gap_spec hptr haligned
    have hoffset := hloss.resolve_left haligned
    obtain ⟨hml, hmh, hmo, hma⟩ : Moved (b.addr + 16) size (size + 2 ^ k + 4)
        (b.addr + 16 + gap (b.addr + 16) k) := ⟨by omega, by omega, by omega, hal⟩
    have heq := kmemalign_moved flags hk hsize hsome hptr (by omega) haligned
    have hmoved : u32 (b.addr + 16 + gap (b.addr + 16) k) = b.addr + 16 + gap (b.addr + 16) k :=
      mod_eq_of_lt (by omega)
    have hheader : sub32 (b.addr + 16 + gap (b.addr + 16) k) 4 =
        b.addr + 16 + gap (b.addr + 16) k - 4 := by
      simp only [sub32, u32]
      omega
    rw [hmoved, hheader] at heq
    generalize gap (b.addr + 16) k = offset at *
    have hlink : LinkOk (writeHeader mp'.mem (b.addr + 16 + offset - 4) offset)
        ⟨b.addr, b.size, some ⟨b.addr + 16 + offset, size⟩⟩ ⟨b.addr + 16 + offset, size⟩ := by
      refine ⟨by simp only; omega, by simp only; omega, by simp only; omega, hma,
        .inr ⟨by simp only; omega, by simp only; omega, ?_⟩⟩
      rw [readWord_writeHeader]
      simp only
      omega
    have hout : ∀ x, x < b.addr + 16 ∨ b.addr + 16 + b.size ≤ x →
        writeHeader mp'.mem (b.addr + 16 + offset - 4) offset x = mp'.mem x :=
      fun x hx => by
      rw [writeHeader, writeHalf_of_ne (by omega), writeHalf_of_ne (by omega)]
    obtain ⟨ps1, hrep1, hperm1, hshapes⟩ := h.retag hperm hout hlink
    exact ⟨_, _, ps1, heq, hrep1, hperm1, hshapes, hmult⟩

lemma kmemalign_none (flags : ℕ) (h : PoolOf P S mp ps) (hsize : size + 2 ^ k + 4 < 2 ^ 32)
    (hnone : firstFit (u32 (align (size + 2 ^ k + 4) mbAlignment + sizeofMemBlock)) ps = none) :
    kmemalign mp size (2 ^ k) flags = .ok (none, mp) ∨
      kmemalign mp size (2 ^ k) flags = .error .exhausted := by
  rw [kmemalign, padded_eq hsize]
  rcases kmalloc_none flags h hnone with hok | herr
  · left
    rw [hok]
    rfl
  · right
    rw [herr]
    rfl

lemma kmemalign_spec (flags : ℕ) (hP : Closed P S) (h : PoolOf P S mp ps) (hk : k ≤ 31)
    (hlt : size + 2 ^ k + 4 + 23 < 2 ^ 32)
    (hloss : ∀ b, firstFit (rounded (size + 2 ^ k + 4) + 16) ps = some b →
      Lossless (b.addr + 16) k) :
    kmemalign mp size (2 ^ k) flags = .ok (none, mp) ∨
      kmemalign mp size (2 ^ k) flags = .error .exhausted ∨
      ∃ b ptr mp' ps', firstFit (rounded (size + 2 ^ k + 4) + 16) ps = some b ∧
        kmemalign mp size (2 ^ k) flags = .ok (some ptr, mp') ∧ PoolOf P S mp' ps' ∧
        (inUse ps').Perm (⟨b.addr, (grant (rounded (size + 2 ^ k + 4)) size b).size,
          some ⟨ptr, size⟩⟩ :: inUse ps) ∧ shapes ps' = shapes ps ∧ ptr % 2 ^ k = 0 := by
  rcases kmalloc_spec flags hP h hlt with hnone | herr |
    ⟨b, mp', ps', hb, hsome, hrep, hperm, hshapes⟩
  · left
    rw [kmemalign, padded_eq (by omega), hnone]
    rfl
  · right
    left
    rw [kmemalign, padded_eq (by omega), herr]
    rfl
  · right
    right
    have hroom := (fits_iff.1 (find?_some hb)).2
    have hfit := grant_size (size + 2 ^ k + 4) hroom
    have hle := (rounded_spec (size + 2 ^ k + 4)).1
    obtain ⟨ptr, mp1, ps1, hok, hrep1, hperm1, hshapes1, hmult⟩ :=
      kmemalign_some (b := grant (rounded (size + 2 ^ k + 4)) (size + 2 ^ k + 4) b) flags hk
        (by omega) hsome hrep hperm (hle.trans hfit) (hloss b hb)
    exact ⟨b, ptr, mp1, ps1, hb, hok, hrep1, hperm1, hshapes1.trans hshapes, hmult⟩

/-! New arenas. -/

def newArena (mem : Mem) (start size : ℕ) : FreeList :=
  addFreeMemoryBlock start ⟨zero mem start 32, []⟩ (start + 32) (size - 48 + 16)

lemma kmallocAddArena_eq (mp : Pool) (start : ℕ) (hlow : 48 ≤ size) :
    kmallocAddArena mp start size = { mp with
        mpArena := ⟨start, size - 32, mbMagic, (newArena mp.mem start size).list⟩ :: mp.mpArena
        mem := (newArena mp.mem start size).mem } := by
  have hbig : ¬ size < sizeofMemArena := by
    rw [sizeofMemArena]
    omega
  have hblock : size - 48 + 16 = size - 32 := by omega
  rw [kmallocAddArena, if_neg hbig]
  simp only [newArena, sizeofMemArena, hblock]

lemma newArena_frame (mem : Mem) (start : ℕ) (hlow : 48 ≤ size) :
    Frame start (start + size) mem (newArena mem start size).mem := by
  intro x hx
  have hwrites := (addFreeMemoryBlock_confined start (start + 32) (size - 48 + 16)
    ⟨zero mem start 32, []⟩).writes
  rw [newArena, hwrites x fun a ha => ?_]
  · exact zero_of_ne (by omega)
  · obtain rfl := mem_singleton.1 ha
    omega

lemma kmallocAddArena_spec {start : ℕ} (hP : Closed P S) (h : PoolOf P S mp ps)
    (hstart : 8 ∣ start) (hlow : 48 ≤ size) (hhigh : size < 2 ^ 31 + 48) (hsize : S (size - 48))
    (htop : start + size < 2 ^ 32) (hlinks : ∀ w, start ≤ w → w < start + size → P w)
    (hapart : ∀ ar ∈ mp.mpArena, ar.hi ≤ start ∨ start + size ≤ ar.base) :
    ∃ ar bs, PoolOf P S (kmallocAddArena mp start size) ((ar, bs) :: ps) ∧
      ar.shape = (start, size - 32, mbMagic) ∧ used bs = [] := by
  let c : Block Alloc := ⟨start + 32, size - 48, none⟩
  let f : FreeList := ⟨zero mp.mem start 32, []⟩
  let ar : Arena :=
    ⟨start, size - 32, mbMagic, (addFreeMemoryBlock start f c.addr (c.size + 16)).list⟩
  have hhi : ar.hi = start + size := by
    simp only [Arena.hi, ar]
    omega
  have hc : Contig 16 ar.lo ([] ++ c :: []) ar.hi := by
    refine ⟨rfl, ?_⟩
    rw [hhi]
    show start + 32 + 16 + (size - 48) = start + size
    omega
  have hlinkable : Linkable P start ar.lo ar.hi := by
    have hlo : ar.lo = start + 32 := rfl
    rw [hhi]
    exact ⟨htop, fun w hw hw' => hlinks w (by omega) hw', hlinks _ (by omega) (by omega), by omega⟩
  obtain ⟨bs', hrep, hsep, hused⟩ := addFreeMemoryBlock_spec (f := f) hP hlinkable hc (by simp)
    (by simp) rfl isChain_nil isChain_nil hsize (by simp only [c]; omega)
  have hframe := newArena_frame mp.mem start hlow
  have heq : kmallocAddArena mp start size = { mp with
        mpArena := ar :: mp.mpArena
        mem := (addFreeMemoryBlock start f c.addr (c.size + 16)).mem } :=
    kmallocAddArena_eq mp start hlow
  have hnew : ArenaOf P S (addFreeMemoryBlock start f c.addr (c.size + 16)).mem ar bs' := by
    refine ⟨rfl, hhi.symm ▸ htop, ?_, ?_, hrep, hsep⟩
    · show size - 32 < 2 ^ 31 + 16
      omega
    · rw [hhi]
      exact hlinks
  refine ⟨ar, bs', ?_, rfl, by simpa [used] using hused⟩
  rw [heq]
  refine ⟨h.magic, by simp [h.arenas], fun p hp => ?_, pairwise_cons.2 ⟨?_, h.apart⟩⟩
  · rcases mem_cons.1 hp with rfl | hp
    · exact hnew
    have hfar := hapart p.1 (by rw [h.arenas]; exact mem_map_of_mem hp)
    refine (h.rep p hp).congr hframe ?_
    unfold Arena.lo
    omega
  · intro p hp
    have hfar := hapart p.1 (by rw [h.arenas]; exact mem_map_of_mem hp)
    unfold Arena.Apart
    rw [hhi]
    show start + size ≤ p.1.base ∨ p.1.hi ≤ start
    omega

end GzOS.Kmalloc
