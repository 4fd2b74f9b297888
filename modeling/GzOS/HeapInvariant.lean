import GzOS.BlockList
import GzOS.HeapWrites

/-!
# Block headers and block lists

The headers in memory and the list of free blocks of an arena represent a list of
blocks that tiles the arena. What is to hold of the back links and of the block sizes
beyond that is a parameter: in kseg0 no back link looks like an alignment header, and
page-sized arenas have block sizes that are multiples of eight.
-/
namespace GzOS.Kmalloc
open ByteMemory BlockList List

/-- The pointer handed out and the requested size. -/
structure Alloc where
  ptr : ℕ
  size : ℕ
  deriving DecidableEq

/-- The pointer is in the block with room for the size: the start of the data, or behind an
alignment header that leads there. -/
structure LinkOk (mem : Mem) (b : Block Alloc) (l : Alloc) : Prop where
  low : b.addr + 16 ≤ l.ptr
  inside : l.ptr < b.addr + 16 + b.size
  room : l.ptr + l.size ≤ b.addr + 16 + b.size
  aligned : 8 ∣ l.ptr
  header : l.ptr = b.addr + 16 ∨ (b.addr + 20 ≤ l.ptr ∧ l.ptr < b.addr + 16 + 2 ^ 16 ∧
      readWord mem (l.ptr - 4) = alignedMemBlockMagic * 2 ^ 16 + (l.ptr - (b.addr + 16)))

def Frame (lo hi : ℕ) (mem mem' : Mem) : Prop := ∀ x, x < lo ∨ hi ≤ x → mem' x = mem x

lemma Writes.frame {hs : List ℕ} {lo hi : ℕ} {m1 m2 : Mem} (h : Writes hs m1 m2)
    (hin : ∀ a ∈ hs, lo ≤ a ∧ a + 16 ≤ hi) : Frame lo hi m1 m2 := by
  intro x hx
  apply h
  intro a ha
  have := hin a ha
  omega

structure Closed (P S : ℕ → Prop) : Prop where
  zero : P 0
  merge : ∀ m n, S m → S n → S (m + 16 + n)
  request : ∀ n, 0 < n → 8 ∣ n → S n
  rest : ∀ m n, 8 ∣ m → S n → m + 16 < n → S (n - m - 16)

structure HeaderOk (P S : ℕ → Prop) (mem : Mem) (b : Block Alloc) : Prop where
  magic : magicOf mem b.addr = mbMagic
  size : mbSize mem b.addr = if b.use.isNone then b.size else 2 ^ 32 - b.size
  prev : P (tqePrev mem b.addr)
  sized : S b.size
  aligned : 8 ∣ b.addr
  link : ∀ l, b.use = some l → LinkOk mem b l

structure RepOf (P S : ℕ → Prop) (f : FreeList) (lo hi : ℕ) (bs : List (Block Alloc)) : Prop where
  contig : Contig 16 lo bs hi
  ok : ∀ b ∈ bs, HeaderOk P S f.mem b
  list : f.list = frees bs

def NoHeader (w : ℕ) : Prop := w / 2 ^ 16 ≠ alignedMemBlockMagic

def Eights (n : ℕ) : Prop := 0 < n ∧ 8 ∣ n

lemma closed_eights : Closed NoHeader Eights where
  zero := by
    unfold NoHeader
    decide
  merge m n hm hn := ⟨by omega, Nat.dvd_add (Nat.dvd_add hm.2 (by decide)) hn.2⟩
  request n hpos hal := ⟨hpos, hal⟩
  rest m n hm hn hlt := by
    obtain ⟨-, hn⟩ := hn
    exact ⟨by omega, by omega⟩

def AnySize (_ : ℕ) : Prop := True

lemma closed_anySize : Closed NoHeader AnySize :=
  ⟨closed_eights.zero, fun _ _ _ _ => trivial, fun _ _ _ => trivial, fun _ _ _ _ _ => trivial⟩

variable {P S : ℕ → Prop} {mem mem' : Mem} {b c : Block Alloc} {xs ys bs : List (Block Alloc)}
  {lo hi a w : ℕ} {f : FreeList}

lemma HeaderOk.congr (h : HeaderOk P S mem b)
    (hmem : ∀ x, b.addr ≤ x → x < b.addr + 16 + (if b.use.isNone then 0 else b.size) →
      mem' x = mem x) : HeaderOk P S mem' b := by
  have hword : ∀ d ≤ 12, readWord mem' (b.addr + d) = readWord mem (b.addr + d) := by
    intro d hd
    apply readWord_congr
    intro x hlow hhigh
    exact hmem x (by omega) (by omega)
  refine ⟨(hword 0 (by omega)).trans h.magic, (hword 4 (by omega)).trans h.size, ?_, h.sized,
    h.aligned, fun l hl => ?_⟩
  · have hprev : tqePrev mem' b.addr = tqePrev mem b.addr := hword 12 le_rfl
    rw [hprev]
    exact h.prev
  · have hlink := h.link l hl
    refine ⟨hlink.low, hlink.inside, hlink.room, hlink.aligned, ?_⟩
    have hhead : b.addr + 20 ≤ l.ptr → readWord mem' (l.ptr - 4) = readWord mem (l.ptr - 4) := by
      intro hptr
      apply readWord_congr
      intro x hlow hhigh
      have hin := hlink.inside
      apply hmem x (by omega)
      simp only [hl, Option.isNone_some, Bool.false_eq_true, if_false]
      omega
    rcases hlink.header with hptr | ⟨hptr, hoff, hread⟩
    · exact .inl hptr
    · exact .inr ⟨hptr, hoff, (hhead hptr).trans hread⟩

lemma HeaderOk.congr_of_apart (h : HeaderOk P S mem b)
    (hmem : ∀ x, b.addr ≤ x → x < b.addr + 16 + b.size → mem' x = mem x) :
    HeaderOk P S mem' b := by
  apply h.congr
  intro x hlow hhigh
  apply hmem x hlow
  split_ifs at hhigh <;> omega

lemma headerOk_setPrev (hc : Contig 16 lo bs hi) (hok : ∀ b ∈ bs, HeaderOk P S mem b)
    (ha : a ∈ frees bs) (hw : w < 2 ^ 32) (hP : P w) :
    ∀ b ∈ bs, HeaderOk P S (setPrev mem a w) b := by
  intro b hb
  obtain ⟨e, he, hefree, rfl⟩ := mem_frees.1 ha
  rcases hc.apart he hb with rfl | hapart
  · have h := hok e hb
    refine ⟨?_, ?_, ?_, h.sized, h.aligned, fun l hl => ?_⟩
    · exact (readWord_writeWord_ne (by omega)).trans h.magic
    · exact (readWord_writeWord_ne (by omega)).trans h.size
    · have hread : tqePrev (setPrev mem e.addr w) e.addr = w := readWord_writeWord hw
      rw [hread]
      exact hP
    · rw [hefree] at hl
      cases hl
  · apply (hok b hb).congr_of_apart
    intro x hlow hhigh
    exact writeWord_of_ne (by omega)

lemma headerOk_relink (hc : Contig 16 lo bs hi) (hok : ∀ b ∈ bs, HeaderOk P S mem b)
    {next : Option ℕ} (hnext : ∀ e, next = some e → e ∈ frees bs) (hw : w < 2 ^ 32) (hP : P w) :
    ∀ b ∈ bs, HeaderOk P S (relink mem next w) b := by
  cases next with
  | none => exact hok
  | some e => exact headerOk_setPrev hc hok (hnext e rfl) hw hP

/-! Positions in the list of free blocks. -/

section Positions

variable {l1 l2 : List ℕ} (ha : a ∉ l1)
include ha

lemma dropWhile_eq : (l1 ++ a :: l2).dropWhile (fun e => decide (e ≠ a)) = a :: l2 := by
  rw [dropWhile_append_of_pos]
  · simp
  · intro e he
    exact decide_eq_true fun hea => ha (hea ▸ he)

lemma takeWhile_eq : (l1 ++ a :: l2).takeWhile (fun e => decide (e ≠ a)) = l1 := by
  rw [takeWhile_append_of_pos]
  · simp
  · intro e he
    exact decide_eq_true fun hea => ha (hea ▸ he)

lemma nextOf_eq : nextOf (l1 ++ a :: l2) a = l2.head? := by
  rw [nextOf, dropWhile_eq ha, tail_cons]

end Positions

lemma not_mem_frees_before (hc : Contig 16 lo (xs ++ b :: ys) hi) : b.addr ∉ frees xs := by
  intro hmem
  have := (contig_middle.1 hc).1.frees_lt (by decide) hmem
  omega

lemma frees_middle (hb : b.use = none) :
    frees (xs ++ b :: ys) = frees xs ++ b.addr :: frees ys := by
  rw [frees_append, frees_cons_free hb]

lemma mem_frees_right {e : ℕ} (he : (frees ys).head? = some e) : e ∈ frees (xs ++ b :: ys) := by
  have hmem := mem_of_mem_head? he
  obtain ⟨y, hy, hfree, rfl⟩ := mem_frees.1 hmem
  exact mem_frees_of_mem (mem_append_right xs (mem_cons_of_mem b hy)) hfree

lemma RepOf.nextOf_free (h : RepOf P S f lo hi (xs ++ b :: ys)) (hb : b.use = none) :
    nextOf f.list b.addr = (frees ys).head? := by
  rw [h.list.trans (frees_middle hb), nextOf_eq (not_mem_frees_before h.contig)]

lemma remove_spec (h : RepOf P S f lo hi (xs ++ b :: ys)) (hb : b.use = none) :
    (∀ e ∈ xs ++ b :: ys, HeaderOk P S (remove f b.addr).mem e) ∧
      (remove f b.addr).list = frees xs ++ frees ys := by
  have hbok := h.ok b (mem_append_right xs mem_cons_self)
  constructor
  · exact headerOk_relink h.contig h.ok
      (fun e he => mem_frees_right (h.nextOf_free hb ▸ he)) readWord_lt hbok.prev
  · rw [remove, h.list.trans (frees_middle hb),
      erase_append_right _ (not_mem_frees_before h.contig), erase_cons_head]

lemma headerOk_resize {size : ℕ} (hc : Contig 16 lo (xs ++ ⟨b.addr, size, none⟩ :: ys) hi)
    (hxs : ∀ e ∈ xs, HeaderOk P S mem e) (hys : ∀ e ∈ ys, HeaderOk P S mem e)
    (hb : HeaderOk P S mem b) (hsize : S size) (hlt : size < 2 ^ 32) :
    ∀ e ∈ xs ++ ⟨b.addr, size, none⟩ :: ys, HeaderOk P S (setSize mem b.addr size) e := by
  obtain ⟨hcx, hcy⟩ := contig_middle.1 hc
  intro e he
  rcases mem_append.1 he with he | he
  · apply (hxs e he).congr_of_apart
    intro x _ hx
    have := (hcx.bounds he).2
    exact writeWord_of_ne (by simp only at this; omega)
  · rcases mem_cons.1 he with rfl | he
    · refine ⟨?_, ?_, ?_, hsize, hb.aligned, fun l hl => by cases hl⟩
      · show readWord (writeWord mem (b.addr + 4) size) b.addr = mbMagic
        exact (readWord_writeWord_ne (by omega)).trans hb.magic
      · exact readWord_writeWord hlt
      have hread : tqePrev (setSize mem b.addr size) b.addr = tqePrev mem b.addr :=
        readWord_writeWord_ne (by omega)
      simp only [hread]
      exact hb.prev
    · apply (hys e he).congr_of_apart
      intro x hx _
      have := (hcy.bounds he).1
      exact writeWord_of_ne (by simp only at this; omega)

/-- Two free neighbours become one block. -/
lemma mergeRight_free {y : Block Alloc} (hP : Closed P S) (hhi : hi < 2 ^ 32)
    (h : RepOf P S f lo hi (xs ++ b :: y :: ys)) (hb : b.use = none) (hy : y.use = none)
    (hend : u32 (b.addr + mbSize f.mem b.addr + sizeofMemBlock) = b.addr + 16 + b.size)
    (hnext : nextOf f.list b.addr = some y.addr) :
    RepOf P S (mergeRight f b.addr) lo hi
      (xs ++ ⟨b.addr, b.size + 16 + y.size, none⟩ :: ys) := by
  obtain ⟨hcx, hcy⟩ := contig_middle.1 h.contig
  have hyaddr : y.addr = b.addr + 16 + b.size := hcy.1
  have hle := hcy.2.le
  have hsplit : xs ++ b :: y :: ys = (xs ++ [b]) ++ y :: ys := by simp
  obtain ⟨hok, hlist⟩ := remove_spec (hsplit ▸ h) hy
  have hbok := hok b (by simp)
  have hyok := hok y (by simp)
  have hsb : mbSize (remove f y.addr).mem b.addr = b.size := by simpa [hb] using hbok.size
  have hsy : mbSize (remove f y.addr).mem y.addr = y.size := by simpa [hy] using hyok.size
  have hnew : u32 (b.size + y.size + sizeofMemBlock) = b.size + 16 + y.size := by
    rw [u32, sizeofMemBlock]
    omega
  have heq : mergeRight f b.addr = ⟨setSize (remove f y.addr).mem b.addr (b.size + 16 + y.size),
      (remove f y.addr).list⟩ := by
    simp [mergeRight, hnext, hend, hyaddr.symm, hsb, hsy, hnew]
  have hcontig : Contig 16 lo (xs ++ ⟨b.addr, b.size + 16 + y.size, none⟩ :: ys) hi := by
    refine contig_middle.2 ⟨hcx, ?_⟩
    have hshift : b.addr + 16 + (b.size + 16 + y.size) = b.addr + 16 + b.size + 16 + y.size := by
      omega
    simp only [hshift]
    exact hcy.2
  rw [heq]
  refine ⟨hcontig, headerOk_resize hcontig (fun e he => hok e (by simp [he]))
    (fun e he => hok e (by simp [he])) hbok (hP.merge _ _ hbok.sized hyok.sized) (by omega), ?_⟩
  rw [hlist, frees_append, frees_cons_free hb]
  simp [frees]

lemma mergeRight_spec (hP : Closed P S) (hhi : hi < 2 ^ 32)
    (h : RepOf P S f lo hi (xs ++ b :: ys)) (hb : b.use = none) :
    RepOf P S (mergeRight f b.addr) lo hi
      (xs ++ (mergeNext 16 b ys).1 :: (mergeNext 16 b ys).2) := by
  have hnext := h.nextOf_free hb
  have hbok := h.ok b (mem_append_right xs mem_cons_self)
  have hsize : mbSize f.mem b.addr = b.size := by simpa [hb] using hbok.size
  obtain ⟨hxs, hys⟩ := contig_middle.1 h.contig
  cases ys with
  | nil =>
    have hsame : mergeRight f b.addr = f := by simp [mergeRight, hnext, frees]
    rw [hsame]
    exact h
  | cons y ys =>
    have hend : u32 (b.addr + mbSize f.mem b.addr + sizeofMemBlock) = b.addr + 16 + b.size := by
      have := hys.le
      rw [u32, sizeofMemBlock]
      omega
    by_cases hy : y.use = none
    · rw [frees_cons_free hy] at hnext
      rw [mergeNext_free hy]
      exact mergeRight_free hP hhi h hb hy hend hnext
    · have hsame : mergeRight f b.addr = f := by
        rw [frees_cons_used hy] at hnext
        unfold mergeRight
        rw [hnext]
        cases hz : (frees ys).head? with
        | none => rfl
        | some z =>
          have hlow := (hys.2.frees_lt (by decide) (mem_of_mem_head? hz)).1
          simp only
          rw [if_neg (by omega)]
      rw [hsame, mergeNext_used hy]
      exact h

/-! Adding a block. -/

/-- A heap interval lies in kseg0, where no address looks like an alignment
header. -/
def InKseg0 (lo hi : ℕ) : Prop := 0x80000000 ≤ lo ∧ hi ≤ 0xA0000000

structure Linkable (P : ℕ → Prop) (ma lo hi : ℕ) : Prop where
  top : hi < 2 ^ 32
  links : ∀ w, lo ≤ w → w < hi → P w
  head : P (ma + 16)
  head_lt : ma + 16 < 2 ^ 32

lemma initBlock_spec (hP : Closed P S) (hc : Contig 16 lo (xs ++ c :: ys) hi)
    (hhi : hi < 2 ^ 32) (hxs : ∀ e ∈ xs, HeaderOk P S mem e) (hys : ∀ e ∈ ys, HeaderOk P S mem e)
    (hsize : S c.size) (hal : 8 ∣ c.addr) :
    ∀ e ∈ xs ++ ⟨c.addr, c.size, none⟩ :: ys,
      HeaderOk P S (initBlock mem c.addr (c.size + 16)) e := by
  obtain ⟨hcx, hcy⟩ := contig_middle.1 hc
  have hhigh := hcy.le
  have hsub : sub32 (c.size + 16) sizeofMemBlock = c.size := by
    rw [sub32, u32, sizeofMemBlock]
    omega
  have hout : ∀ x, x < c.addr ∨ c.addr + 16 ≤ x → initBlock mem c.addr (c.size + 16) x = mem x := by
    intro x hx
    apply initBlock_writes
    simpa using hx
  intro e he
  rcases mem_append.1 he with he | he
  · apply (hxs e he).congr_of_apart
    intro x _ hx
    have := (hcx.bounds he).2
    exact hout x (by omega)
  · rcases mem_cons.1 he with rfl | he
    · refine ⟨?_, ?_, ?_, hsize, hal, fun l hl => by cases hl⟩
      · show readWord (initBlock mem c.addr (c.size + 16)) c.addr = mbMagic
        rw [initBlock, setSize, readWord_writeWord_ne (by omega), readWord_writeWord (by decide)]
      · show readWord (initBlock mem c.addr (c.size + 16)) (c.addr + 4) = c.size
        rw [initBlock, setSize, hsub, readWord_writeWord (by omega)]
      have hread : readWord (initBlock mem c.addr (c.size + 16)) (c.addr + 12) = 0 := by
        rw [initBlock, setSize, readWord_writeWord_ne (by omega),
          readWord_writeWord_ne (by omega), readWord_zero (by omega)]
        rw [sizeofMemBlock]
      simp only [tqePrev, hread]
      exact hP.zero
    · apply (hys e he).congr_of_apart
      intro x hx _
      have := (hcy.bounds he).1
      exact hout x (by omega)

lemma insertHead_spec {ma : ℕ} (hl : Linkable P ma lo hi)
    (hc : Contig 16 lo (xs ++ c :: ys) hi) (hfree : c.use = none)
    (hok : ∀ e ∈ xs ++ c :: ys, HeaderOk P S f.mem e) (hlist : f.list = frees ys)
    (hxs : frees xs = []) : RepOf P S (insertHead ma f c.addr) lo hi (xs ++ c :: ys) := by
  have hcmem : c ∈ xs ++ c :: ys := mem_append_right xs mem_cons_self
  have hbound := hc.bounds hcmem
  have htop := hl.top
  have hok1 := headerOk_relink (w := c.addr + 8) hc hok
    (fun e he => mem_frees_right (hlist ▸ he)) (by omega) (hl.links _ (by omega) (by omega))
  have hok2 := headerOk_setPrev hc hok1 (mem_frees_of_mem hcmem hfree) hl.head_lt hl.head
  refine ⟨hc, hok2, ?_⟩
  rw [frees_middle hfree, hxs, insertHead, hlist, nil_append]

lemma insertAfter_spec {best ma : ℕ} {l : List ℕ} (hl : Linkable P ma lo hi)
    (hc : Contig 16 lo (xs ++ c :: ys) hi) (hfree : c.use = none)
    (hok : ∀ e ∈ xs ++ c :: ys, HeaderOk P S f.mem e) (hlist : f.list = frees xs ++ frees ys)
    (hxs : frees xs = l ++ [best]) :
    RepOf P S (insertAfter f best c.addr) lo hi (xs ++ c :: ys) := by
  have hcmem : c ∈ xs ++ c :: ys := mem_append_right xs mem_cons_self
  have hbound := hc.bounds hcmem
  have htop := hl.top
  have hcx := (contig_middle.1 hc).1
  have hbest : best ∈ frees xs := by rw [hxs]; simp
  obtain ⟨p, hp, -, rfl⟩ := mem_frees.1 hbest
  have hpbound := hcx.bounds hp
  have hnot : p.addr ∉ l := by
    have hsorted := hcx.frees_sorted (by decide)
    rw [hxs, pairwise_append] at hsorted
    intro hmem
    have := hsorted.2.2 p.addr hmem p.addr (by simp)
    omega
  have hlist' : f.list = l ++ p.addr :: frees ys := by rw [hlist, hxs]; simp
  have hnext : nextOf f.list p.addr = (frees ys).head? := by rw [hlist', nextOf_eq hnot]
  have hok1 := headerOk_relink (w := c.addr + 8) hc hok
    (fun e he => mem_frees_right (hnext ▸ he)) (by omega) (hl.links _ (by omega) (by omega))
  have hok2 := headerOk_setPrev (w := p.addr + 8) hc hok1 (mem_frees_of_mem hcmem hfree) (by omega)
    (hl.links _ (by omega) (by omega))
  refine ⟨hc, hok2, ?_⟩
  rw [frees_middle hfree, hxs, insertAfter, hlist', takeWhile_eq hnot, dropWhile_eq hnot]
  simp

end GzOS.Kmalloc
