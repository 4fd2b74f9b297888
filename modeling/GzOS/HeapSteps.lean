import GzOS.HeapInvariant

/-!
# Allocating and freeing in one arena

Adding a free block merges it with its free neighbours, so that free blocks stay
apart. Taking a block splits it when the rest is large enough for a block of its
own.
-/
namespace GzOS.Kmalloc
open ByteMemory BlockList List

variable {P S : ℕ → Prop} {mem mem' : Mem} {b c : Block Alloc} {xs ys bs : List (Block Alloc)}
  {lo hi ma : ℕ} {f : FreeList}

lemma filter_frees (hc : Contig 16 lo (xs ++ c :: ys) hi) :
    (frees xs ++ frees ys).filter (fun current => decide (current < c.addr)) = frees xs := by
  obtain ⟨hcx, hcy⟩ := contig_middle.1 hc
  rw [filter_append, filter_eq_self.2, filter_eq_nil_iff.2, append_nil]
  · intro a ha
    have := (hcy.frees_lt (by decide) ha).1
    simp only [decide_eq_true_eq]
    omega
  · intro a ha
    exact decide_eq_true (hcx.frees_lt (by decide) ha).2

lemma separated_mergeLeft {p : Block Alloc} {us vs zs : List (Block Alloc)} {m : Block Alloc}
    (hs : Separated (us ++ p :: vs)) (hp : p.use = none) (hvs : frees vs = [])
    (hm : m.use = none) (hsz : Separated (m :: zs)) :
    Separated (us ++ (mergeNext 16 p (vs ++ m :: zs)).1 :: (mergeNext 16 p (vs ++ m :: zs)).2) := by
  cases vs with
  | nil =>
    rw [nil_append, mergeNext_free hm]
    exact Separated.glue hp hm hs hsz
  | cons v vs =>
    have hv := use_ne_none_of_frees_nil hvs
    rw [cons_append, mergeNext_used (hv v mem_cons_self)]
    have hlast : ∀ x ∈ (us ++ p :: v :: vs).getLast?, x.use ≠ none := by
      intro x hx
      rw [getLast?_append_of_ne_nil _ (by simp)] at hx
      exact hv x (mem_of_mem_getLast? hx)
    have := Separated.append_of_last hlast hs hsz
    simpa using this

/-- A freed block is merged with free neighbours on both sides. -/
lemma linkBlock_spec (hP : Closed P S) (hl : Linkable P ma lo hi)
    (hc : Contig 16 lo (xs ++ c :: ys) hi) (hfree : c.use = none)
    (hok : ∀ e ∈ xs ++ c :: ys, HeaderOk P S f.mem e) (hlist : f.list = frees xs ++ frees ys)
    (hsx : Separated xs) (hsy : Separated ys) :
    ∃ bs', RepOf P S (linkBlock ma f c.addr) lo hi bs' ∧ Separated bs' ∧
      used bs' = used xs ++ used ys := by
  have hused : ∀ zs, used (xs ++ (mergeNext 16 c zs).1 :: (mergeNext 16 c zs).2) =
      used xs ++ used zs := by
    intro zs
    rw [used_append, used_mergeNext hfree]
  unfold linkBlock
  rw [hlist, filter_frees hc]
  split_ifs with hnil
  · obtain ⟨hxnil, hynil⟩ := append_eq_nil_iff.1 hnil
    have hrep := insertHead_spec hl hc hfree hok (by rw [hlist, hxnil]; rfl) hxnil
    have hmerge : mergeNext 16 c ys = (c, ys) := mergeNext_of_frees_nil hynil
    have hsep : Separated ((mergeNext 16 c ys).1 :: (mergeNext 16 c ys).2) := hsy.mergeNext
    rw [hmerge] at hsep
    refine ⟨_, hrep, Separated.append_of_last ?_ hsx hsep, ?_⟩
    · intro x hx
      exact use_ne_none_of_frees_nil hxnil x (mem_of_mem_getLast? hx)
    · simpa [hmerge] using hused ys
  · cases hlast : (frees xs).getLast? with
    | none =>
      have hxnil : frees xs = [] := getLast?_eq_none_iff.1 hlast
      have hrep := insertHead_spec hl hc hfree hok (by rw [hlist, hxnil]; rfl) hxnil
      refine ⟨_, mergeRight_spec hP hl.top hrep hfree,
        Separated.append_of_last ?_ hsx hsy.mergeNext, hused ys⟩
      intro x hx
      exact use_ne_none_of_frees_nil hxnil x (mem_of_mem_getLast? hx)
    | some best =>
      obtain ⟨l, hl'⟩ := getLast?_eq_some_iff.1 hlast
      have hrep := mergeRight_spec hP hl.top (insertAfter_spec hl hc hfree hok hlist hl') hfree
      obtain ⟨us, p, vs, rfl, hp, rfl, -, hvs⟩ := frees_split hl'
      have hmfree : (mergeNext 16 c ys).1.use = none := (mergeNext_fst hfree).2
      rw [append_assoc, cons_append] at hrep
      refine ⟨_, mergeRight_spec hP hl.top hrep hp,
        separated_mergeLeft hsx hp hvs hmfree hsy.mergeNext, ?_⟩
      rw [used_append, used_mergeNext hp, used_append, used_mergeNext hfree, used_append,
        used_cons_free hp, append_assoc]

lemma addFreeMemoryBlock_spec (hP : Closed P S) (hl : Linkable P ma lo hi)
    (hc : Contig 16 lo (xs ++ c :: ys) hi) (hxs : ∀ e ∈ xs, HeaderOk P S f.mem e)
    (hys : ∀ e ∈ ys, HeaderOk P S f.mem e) (hlist : f.list = frees xs ++ frees ys)
    (hsx : Separated xs) (hsy : Separated ys) (hsize : S c.size) (hal : 8 ∣ c.addr) :
    ∃ bs', RepOf P S (addFreeMemoryBlock ma f c.addr (c.size + 16)) lo hi bs' ∧
      Separated bs' ∧ used bs' = used xs ++ used ys := by
  have hok := initBlock_spec hP hc hl.top hxs hys hsize hal
  obtain ⟨hcx, hcy⟩ := contig_middle.1 hc
  have hc' : Contig 16 lo (xs ++ ⟨c.addr, c.size, none⟩ :: ys) hi :=
    contig_middle.2 ⟨hcx, hcy⟩
  obtain ⟨bs', hrep⟩ := linkBlock_spec (f := ⟨initBlock f.mem c.addr (c.size + 16), f.list⟩) hP hl
    hc' rfl hok hlist hsx hsy
  exact ⟨bs', hrep⟩

/-! Taking a block. -/

def fits (total : ℕ) (b : Block Alloc) : Bool := b.use.isNone && decide (total ≤ b.size)

lemma fits_iff {total : ℕ} : fits total b ↔ b.use = none ∧ total ≤ b.size := by
  simp [fits]

lemma findEntry_eq (hok : ∀ b ∈ bs, HeaderOk P S mem b) (total : ℕ) :
    findEntry mem total (frees bs) = .ok ((bs.find? (fits total)).map Block.addr) := by
  induction bs with
  | nil => rfl
  | cons b bs ih =>
    have hrest := ih fun e he => hok e (mem_cons_of_mem _ he)
    have hb := hok b mem_cons_self
    by_cases hfree : b.use = none
    · have hsize : mbSize mem b.addr = b.size := by simpa [hfree] using hb.size
      have hmagic : ¬ magicOf mem b.addr ≠ mbMagic := not_not_intro hb.magic
      rw [frees_cons_free hfree, findEntry, if_neg hmagic, hsize, find?_cons]
      by_cases hroom : b.size ≥ total
      · simp [if_pos hroom, fits_iff.2 ⟨hfree, hroom⟩]
      have hno : fits total b = false := by
        rw [← Bool.not_eq_true, fits_iff]
        exact fun h => hroom h.2
      simp only [if_neg hroom, hno, hrest]
    · have hno : fits total b = false := by
        rw [← Bool.not_eq_true, fits_iff]
        exact fun h => hfree h.1
      rw [frees_cons_used hfree, find?_cons, hno, hrest]

/-- The front of a free block, or all of it if there is no room for another behind. -/
def grant (req size : ℕ) (b : Block Alloc) : Block Alloc :=
  ⟨b.addr, if req + 16 < b.size then req else b.size, some ⟨b.addr + 16, size⟩⟩

variable {req size : ℕ}

lemma grant_size (size : ℕ) (hroom : req + 16 ≤ b.size) : req ≤ (grant req size b).size := by
  unfold grant
  split_ifs <;> simp only <;> omega

lemma headerOk_take {k : ℕ} (hb : HeaderOk P S mem b) (hS : S k) (hk : 0 < k) (hlt : k < 2 ^ 32)
    (hsize : size ≤ k) :
    HeaderOk P S (setSize mem b.addr (sub32 0 k)) ⟨b.addr, k, some ⟨b.addr + 16, size⟩⟩ := by
  have hneg : sub32 0 k = 2 ^ 32 - k := by
    rw [sub32, u32]
    omega
  refine ⟨?_, ?_, ?_, hS, hb.aligned, fun l hl => ?_⟩
  · show readWord (writeWord mem (b.addr + 4) _) b.addr = mbMagic
    exact (readWord_writeWord_ne (by omega)).trans hb.magic
  · show readWord (writeWord mem (b.addr + 4) _) (b.addr + 4) = 2 ^ 32 - k
    rw [hneg, readWord_writeWord (by omega)]
  · have hread : tqePrev (setSize mem b.addr (sub32 0 k)) b.addr = tqePrev mem b.addr :=
      readWord_writeWord_ne (by omega)
    simp only [hread]
    exact hb.prev
  · cases hl
    have := hb.aligned
    exact ⟨le_rfl, by simp only; omega, by simp only; omega, by simp only; omega, .inl rfl⟩

lemma headerOk_around {k : ℕ} (hc : Contig 16 lo (xs ++ b :: ys) hi)
    (hok : ∀ e ∈ xs ++ b :: ys, HeaderOk P S mem e) :
    (∀ e ∈ xs, HeaderOk P S (setSize mem b.addr k) e) ∧
      ∀ e ∈ ys, HeaderOk P S (setSize mem b.addr k) e := by
  obtain ⟨hcx, hcy⟩ := contig_middle.1 hc
  constructor
  · intro e he
    apply (hok e (mem_append_left _ he)).congr_of_apart
    intro x _ hx
    have := (hcx.bounds he).2
    exact writeWord_of_ne (by omega)
  · intro e he
    apply (hok e (mem_append_right _ (mem_cons_of_mem _ he))).congr_of_apart
    intro x hx _
    have := (hcy.bounds he).1
    exact writeWord_of_ne (by omega)

lemma take_whole (h : RepOf P S f lo hi (xs ++ b :: ys)) (hb : b.use = none) (hhi : hi < 2 ^ 32)
    (hs : Separated (xs ++ b :: ys)) (hpos : 0 < b.size) (hsize : size ≤ b.size) :
    let g := remove f b.addr
    let b' : Block Alloc := ⟨b.addr, b.size, some ⟨b.addr + 16, size⟩⟩
    RepOf P S ⟨setSize g.mem b.addr (sub32 0 b.size), g.list⟩ lo hi (xs ++ b' :: ys) ∧
      Separated (xs ++ b' :: ys) := by
  intro g b'
  obtain ⟨hok, hlist⟩ := remove_spec h hb
  have hbmem : b ∈ xs ++ b :: ys := mem_append_right xs mem_cons_self
  have hbok := hok b hbmem
  have hbound := h.contig.bounds hbmem
  obtain ⟨hxs, hys⟩ := headerOk_around h.contig hok
  obtain ⟨hcx, hcy⟩ := contig_middle.1 h.contig
  have hused : b'.use ≠ none := Option.some_ne_none _
  refine ⟨⟨contig_middle.2 ⟨hcx, hcy⟩, fun e he => ?_, ?_⟩, ?_⟩
  · rcases mem_append.1 he with he | he
    · exact hxs e he
    · rcases mem_cons.1 he with rfl | he
      · exact headerOk_take hbok hbok.sized hpos (by omega) hsize
      · exact hys e he
  · rw [frees_append]
    exact hlist
  · exact Separated.middle hused hs.left hs.right

/-- The rest of a split block goes back to the list. -/
lemma take_front (hP : Closed P S) (hl : Linkable P ma lo hi)
    (h : RepOf P S f lo hi (xs ++ b :: ys)) (hb : b.use = none) (hs : Separated (xs ++ b :: ys))
    (hpos : 0 < req) (hal : 8 ∣ req) (hsize : size ≤ req) (hleft : req + 16 < b.size) :
    let g := remove f b.addr
    let b' : Block Alloc := ⟨b.addr, req, some ⟨b.addr + 16, size⟩⟩
    let r := addFreeMemoryBlock ma ⟨setSize g.mem b.addr (sub32 0 req), g.list⟩
      (b.addr + 16 + req) (b.size - req)
    ∃ bs', RepOf P S r lo hi bs' ∧ Separated bs' ∧ used bs' = used xs ++ b' :: used ys := by
  intro g b' r
  obtain ⟨hok, hlist⟩ := remove_spec h hb
  have hbmem : b ∈ xs ++ b :: ys := mem_append_right xs mem_cons_self
  have hbok := hok b hbmem
  have hbound := h.contig.bounds hbmem
  have hhi := hl.top
  obtain ⟨hxs, hys⟩ := headerOk_around h.contig hok
  obtain ⟨hcx, hcy⟩ := contig_middle.1 h.contig
  have hused : b'.use ≠ none := Option.some_ne_none _
  have hrest : b.size - req = b.size - req - 16 + 16 := by omega
  have halb := hbok.aligned
  let c : Block Alloc := ⟨b.addr + 16 + req, b.size - req - 16, none⟩
  have hc : Contig 16 lo ((xs ++ [b']) ++ c :: ys) hi := by
    rw [append_assoc]
    refine contig_middle.2 ⟨hcx, rfl, ?_⟩
    have hend : b'.addr + 16 + b'.size + 16 + c.size = b.addr + 16 + b.size := by
      simp only [b', c]
      omega
    rw [hend]
    exact hcy
  have hfront : ∀ e ∈ xs ++ [b'], HeaderOk P S (setSize g.mem b.addr (sub32 0 req)) e := by
    intro e he
    rcases mem_append.1 he with he | he
    · exact hxs e he
    · obtain rfl := mem_singleton.1 he
      exact headerOk_take hbok (hP.request req hpos hal) hpos (by omega) hsize
  have hlist' : g.list = frees (xs ++ [b']) ++ frees ys := by
    simpa [frees] using hlist
  obtain ⟨bs', hrep, hsep, hused'⟩ := addFreeMemoryBlock_spec
    (f := ⟨setSize g.mem b.addr (sub32 0 req), g.list⟩) hP hl hc hfront hys hlist'
    (Separated.middle hused hs.left isChain_nil) hs.right
    (hP.rest req b.size hal hbok.sized hleft) (by simp only [c]; omega)
  have hr : addFreeMemoryBlock ma ⟨setSize g.mem b.addr (sub32 0 req), g.list⟩ c.addr
      (c.size + 16) = r := by
    rw [← hrest]
  rw [hr] at hrep
  refine ⟨bs', hrep, hsep, ?_⟩
  rw [hused', used_append, used_cons_used hused]
  simp [used]

/-- The block is split if more than a header would be left. -/
lemma takeBlock_spec (hP : Closed P S) (hl : Linkable P ma lo hi)
    (h : RepOf P S f lo hi (xs ++ b :: ys)) (hb : b.use = none) (hs : Separated (xs ++ b :: ys))
    (hpos : 0 < req) (hal : 8 ∣ req) (hsize : size ≤ req) (hroom : req + 16 ≤ b.size) :
    ∃ bs', RepOf P S (takeBlock ma f b.addr req) lo hi bs' ∧ Separated bs' ∧
      (used bs').Perm (grant req size b :: used (xs ++ b :: ys)) := by
  have hhi := hl.top
  have hbmem : b ∈ xs ++ b :: ys := mem_append_right xs mem_cons_self
  have hbound := h.contig.bounds hbmem
  have hgsize : mbSize (remove f b.addr).mem b.addr = b.size := by
    simpa [hb] using ((remove_spec h hb).1 b hbmem).size
  have hleft : sub32 b.size req = b.size - req := by
    rw [sub32, u32]
    omega
  have hnew : u32 (b.addr + req + sizeofMemBlock) = b.addr + 16 + req := by
    rw [u32, sizeofMemBlock]
    omega
  have hperm : ∀ b' : Block Alloc,
      (used xs ++ b' :: used ys).Perm (b' :: used (xs ++ b :: ys)) := by
    intro b'
    rw [used_append, used_cons_free hb]
    exact perm_middle
  by_cases hsplit : req + 16 < b.size
  · have hgt : b.size - req > sizeofMemBlock := by
      rw [sizeofMemBlock]
      omega
    obtain ⟨bs', hrep, hsep, hused⟩ := take_front hP hl h hb hs hpos hal hsize hsplit
    simp only [takeBlock, hgsize, hleft, hnew, if_pos hgt]
    refine ⟨bs', hrep, hsep, ?_⟩
    rw [hused, grant, if_pos hsplit]
    exact hperm _
  · have hle : ¬ b.size - req > sizeofMemBlock := by
      rw [sizeofMemBlock]
      omega
    have hsize' : size ≤ b.size := by omega
    obtain ⟨hrep, hsep⟩ := take_whole h hb hhi hs (by omega) hsize'
    simp only [takeBlock, hgsize, hleft, if_neg hle]
    refine ⟨_, hrep, hsep, ?_⟩
    rw [used_append, grant, if_neg hsplit]
    exact hperm _

lemma tryAllocatingInArea_eq (ma : ℕ) (h : RepOf P S f lo hi bs) (req : ℕ) :
    tryAllocatingInArea ma f req = .ok ((bs.find? (fits (u32 (req + sizeofMemBlock)))).map
      fun b => (b.addr, takeBlock ma f b.addr req)) := by
  rw [tryAllocatingInArea, h.list, findEntry_eq h.ok]
  cases bs.find? (fits (u32 (req + sizeofMemBlock))) with
  | none => rfl
  | some b => rfl

end GzOS.Kmalloc
