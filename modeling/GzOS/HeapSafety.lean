import GzOS.HeapCalls
import GzOS.Runs

/-!
# Safety of the kernel heap

In every run the headers tile every arena, the lists of free blocks are exact and
sorted, free blocks are never neighbours, and the live allocations are apart.
-/
namespace GzOS.Kmalloc
open ByteMemory BlockList Runs List

variable {P S : ℕ → Prop} {mem mem' : Mem} {mp : Pool}
  {ps : List (Arena × List (Block Alloc))} {b c : Block Alloc} {l : Alloc}

/-! The heap as a system. -/

structure State where
  pool : Pool
  live : List Alloc

inductive Op
  | addArena (start size : ℕ)
  | kmalloc (size flags : ℕ)
  | kmemalign (size alignment flags : ℕ)
  | kfree (l : Alloc)
  | write (l : Alloc) (i : ℕ) (v : UInt8)

def record (live : List Alloc) (size : ℕ) (r : Option ℕ × Pool) : State :=
  match r with
  | (none, pool) => ⟨pool, live⟩
  | (some ptr, pool) => ⟨pool, ⟨ptr, size⟩ :: live⟩

def apply (s : State) : Op → Except Panic State
  | .addArena start size => .ok { s with pool := kmallocAddArena s.pool start size }
  | .kmalloc size flags => (Kmalloc.kmalloc s.pool size flags).map (record s.live size)
  | .kmemalign size alignment flags =>
    (Kmalloc.kmemalign s.pool size alignment flags).map (record s.live size)
  | .kfree l => (Kmalloc.kfree s.pool l.ptr).map fun pool => ⟨pool, s.live.erase l⟩
  | .write l i v => .ok { s with pool := { s.pool with mem := writeByte s.pool.mem (l.ptr + i) v } }

/-- A panic ends the run. -/
def step (s : State) (op : Op) : Option State := (apply s op).toOption

/-- New arenas are page-sized, 8-aligned, in kseg0 and apart; requests do not overflow; only
live allocations are freed or written. -/
def Allowed (s : State) : Op → Prop
  | .addArena start size => 8 ∣ start ∧ 4096 ∣ size ∧ InKseg0 start (start + size) ∧
      ∀ ar ∈ s.pool.mpArena, ar.hi ≤ start ∨ start + size ≤ ar.base
  | .kmalloc size _ => (size + 7) / 8 * 8 + 16 < 2 ^ 31
  | .kmemalign size alignment _ => ∃ k ≤ 15, alignment = 2 ^ k ∧
      (size + 2 ^ k + 4 + 7) / 8 * 8 + 16 < 2 ^ 31
  | .kfree l => l ∈ s.live
  | .write l i _ => l ∈ s.live ∧ i < l.size

def start (mem : Mem) : State := ⟨kmallocInit mem, []⟩

structure Holds (P S : ℕ → Prop) (s : State) (ps : List (Arena × List (Block Alloc))) : Prop where
  pool : PoolOf P S s.pool ps
  live : s.live.Perm ((inUse ps).filterMap Block.use)

lemma holds_start (mem : Mem) : Holds P S (start mem) [] :=
  ⟨⟨rfl, rfl, by simp, List.Pairwise.nil⟩, List.Perm.refl _⟩

lemma exists_block {live : List Alloc} (h : live.Perm ((inUse ps).filterMap Block.use))
    (hl : l ∈ live) : ∃ c ∈ inUse ps, c.use = some l :=
  mem_filterMap.1 (h.mem_iff.1 hl)

lemma Holds.record {s : State} {ps' : List (Arena × List (Block Alloc))} {mp' : Pool}
    (h : Holds P S s ps) (hrep : PoolOf P S mp' ps') (hperm : (inUse ps').Perm (b :: inUse ps))
    (hb : b.use = some l) : Holds P S ⟨mp', l :: s.live⟩ ps' := by
  have hmap := hperm.filterMap Block.use
  rw [filterMap_cons_some hb] at hmap
  exact ⟨hrep, (h.live.cons l).trans hmap.symm⟩

section Operations

variable {s : State} (hP : Closed P S) (h : Holds P S s ps)

include hP h

lemma holds_kmalloc {size : ℕ} (flags : ℕ) (hlt : size + 23 < 2 ^ 32) :
    apply s (.kmalloc size flags) = .error .exhausted ∨ ∃ t ps',
      apply s (.kmalloc size flags) = .ok t ∧ Holds P S t ps' ∧ shapes ps' = shapes ps := by
  rw [apply]
  rcases kmalloc_spec flags hP h.pool hlt with hnone | herr |
    ⟨b, mp', ps', -, hok, hrep, hperm, hshapes⟩
  · rw [hnone]
    exact .inr ⟨s, ps, rfl, h, rfl⟩
  · rw [herr]
    exact .inl rfl
  · rw [hok]
    exact .inr ⟨⟨mp', ⟨b.addr + 16, size⟩ :: s.live⟩, ps', rfl, h.record hrep hperm rfl, hshapes⟩

lemma holds_kmemalign {size k : ℕ} (flags : ℕ) (hk : k ≤ 31) (hlt : size + 2 ^ k + 4 + 23 < 2 ^ 32)
    (hloss : ∀ b, firstFit (rounded (size + 2 ^ k + 4) + 16) ps = some b →
      Lossless (b.addr + 16) k) :
    apply s (.kmemalign size (2 ^ k) flags) = .error .exhausted ∨ ∃ t ps',
      apply s (.kmemalign size (2 ^ k) flags) = .ok t ∧ Holds P S t ps' ∧
        shapes ps' = shapes ps := by
  rw [apply]
  rcases kmemalign_spec flags hP h.pool hk hlt hloss with hnone | herr |
    ⟨b, ptr, mp', ps', -, hok, hrep, hperm, hshapes, -⟩
  · rw [hnone]
    exact .inr ⟨s, ps, rfl, h, rfl⟩
  · rw [herr]
    exact .inl rfl
  · rw [hok]
    exact .inr ⟨⟨mp', ⟨ptr, size⟩ :: s.live⟩, ps', rfl, h.record hrep hperm rfl, hshapes⟩

lemma holds_kfree (hl : l ∈ s.live)
    (hdata : ∀ c ∈ inUse ps, c.use = some l → dataOf s.pool.mem l.ptr = c.addr + 16) :
    ∃ t ps', apply s (.kfree l) = .ok t ∧ t.live = s.live.erase l ∧ Holds P S t ps' ∧
      shapes ps' = shapes ps := by
  obtain ⟨c, hc, huse⟩ := exists_block h.live hl
  obtain ⟨mp', ps', hok, hrep, hperm, hshapes⟩ := kfree_spec hP h.pool hc huse (hdata c hc huse)
  refine ⟨⟨mp', s.live.erase l⟩, ps', by simp only [apply, hok]; rfl, rfl, ⟨hrep, ?_⟩, hshapes⟩
  have hmap := hperm.filterMap Block.use
  rw [filterMap_cons_some huse] at hmap
  have herase := (h.live.trans hmap).erase l
  rwa [erase_cons_head] at herase

omit hP in
lemma holds_write {i : ℕ} (v : UInt8) (hl : l ∈ s.live) (hi : i < l.size) :
    ∃ ps', Holds P S { s with pool := { s.pool with mem := writeByte s.pool.mem (l.ptr + i) v } }
      ps' ∧ shapes ps' = shapes ps := by
  obtain ⟨c, hc, huse⟩ := exists_block h.live hl
  have hlink := (h.pool.block hc).1.link l huse
  have hlow := hlink.low
  have hroom := hlink.room
  have hout : ∀ x, x ≠ l.ptr + i → writeByte s.pool.mem (l.ptr + i) v x = s.pool.mem x :=
    fun x hx => Function.update_of_ne hx _ _
  have hlink' : LinkOk (writeByte s.pool.mem (l.ptr + i) v) ⟨c.addr, c.size, some l⟩ l := by
    refine ⟨hlow, hlink.inside, hroom, hlink.aligned, ?_⟩
    rcases hlink.header with hptr | ⟨hptr, hoff, hread⟩
    · exact Or.inl hptr
    · refine Or.inr ⟨hptr, hoff, ?_⟩
      rw [← hread]
      exact readWord_congr fun x _ hx => hout x (by omega)
  obtain ⟨ps', bs', hrep', hold, hnew, hshapes⟩ :=
    h.pool.data hc (fun x hx => hout x (by omega)) hlink'
  refine ⟨ps', ⟨hrep', h.live.trans ?_⟩, hshapes⟩
  rw [← huse] at hnew
  exact (hold.trans hnew.symm).filterMap _

lemma holds_addArena {start size : ℕ} (hstart : 8 ∣ start) (hlow : 48 ≤ size)
    (hhigh : size < 2 ^ 31 + 48) (hsize : S (size - 48)) (htop : start + size < 2 ^ 32)
    (hlinks : ∀ w, start ≤ w → w < start + size → P w)
    (hapart : ∀ ar ∈ s.pool.mpArena, ar.hi ≤ start ∨ start + size ≤ ar.base) :
    ∃ ps', Holds P S { s with pool := kmallocAddArena s.pool start size } ps' ∧
      shapes ps' = (start, size - 32, mbMagic) :: shapes ps := by
  obtain ⟨ar, bs, hrep, hshape, hused⟩ :=
    kmallocAddArena_spec hP h.pool hstart hlow hhigh hsize htop hlinks hapart
  refine ⟨(ar, bs) :: ps, ⟨hrep, ?_⟩, ?_⟩
  · have hsame : inUse ((ar, bs) :: ps) = inUse ps := by simp [inUse, hused]
    rw [hsame]
    exact h.live
  · simp [shapes, hshape]

end Operations

def Kernel (shape : ℕ × ℕ × ℕ) : Prop := InKseg0 shape.1 (shape.1 + 32 + shape.2.1) ∧ 16 < shape.2.1

/-- The invariant of the allowed operations. -/
structure Kept (s : State) (ps : List (Arena × List (Block Alloc))) : Prop where
  holds : Holds NoHeader Eights s ps
  kernel : ∀ shape ∈ shapes ps, Kernel shape

/-- One operation of a run: it keeps the invariant unless memory is exhausted. -/
lemma apply_spec {s : State} (op : Op) (h : Kept s ps) (hop : Allowed s op) :
    apply s op = .error .exhausted ∨ ∃ t ps', apply s op = .ok t ∧ Kept t ps' := by
  obtain ⟨hh, hk⟩ := h
  -- an operation that leaves the arenas where they are
  have hsame : ∀ {t : State} {ps' : List (Arena × List (Block Alloc))},
      Holds NoHeader Eights t ps' →
      shapes ps' = shapes ps → Kept t ps' := fun ht hshapes => ⟨ht, hshapes ▸ hk⟩
  cases op with
  | addArena start size =>
    obtain ⟨hstart, hsize, hkseg, hapart⟩ := hop
    right
    by_cases hsmall : size < sizeofMemArena
    · refine ⟨s, ps, ?_, hh, hk⟩
      rw [apply, kmallocAddArena, if_pos hsmall]
    have hbig : 4096 ≤ size := Nat.le_of_dvd (by rw [sizeofMemArena] at hsmall; omega) hsize
    unfold InKseg0 at hkseg
    have hlinks : ∀ w, start ≤ w → w < start + size → NoHeader w := by
      intro w _ hw
      rw [NoHeader, alignedMemBlockMagic]
      omega
    obtain ⟨ps', hnew, hshapes⟩ := holds_addArena closed_eights hh hstart (by omega) (by omega)
      (show Eights (size - 48) from ⟨by omega, by omega⟩) (by omega) hlinks hapart
    refine ⟨_, ps', rfl, hnew, fun shape hmem => ?_⟩
    rw [hshapes] at hmem
    rcases mem_cons.1 hmem with rfl | hmem
    · simp only [Kernel, InKseg0]
      omega
    · exact hk shape hmem
  | kmalloc size flags =>
    have hlt : (size + 7) / 8 * 8 + 16 < 2 ^ 31 := hop
    refine (holds_kmalloc closed_eights hh flags (by omega)).imp_right ?_
    rintro ⟨t, ps', hok, ht, hshapes⟩
    exact ⟨t, ps', hok, hsame ht hshapes⟩
  | kmemalign size alignment flags =>
    obtain ⟨k, hk15, rfl, hlt⟩ := hop
    refine (holds_kmemalign closed_eights hh flags (by omega) (by omega) fun b _ =>
      lossless_of_le (by omega)).imp_right ?_
    rintro ⟨t, ps', hok, ht, hshapes⟩
    exact ⟨t, ps', hok, hsame ht hshapes⟩
  | kfree l =>
    obtain ⟨t, ps', hok, -, ht, hshapes⟩ :=
      holds_kfree closed_eights hh hop fun c hc hl => hh.pool.dataOf hc hl
    exact .inr ⟨t, ps', hok, hsame ht hshapes⟩
  | write l i v =>
    obtain ⟨ps', ht, hshapes⟩ := holds_write hh v hop.1 hop.2
    exact .inr ⟨_, ps', rfl, hsame ht hshapes⟩

/-! What is safe, in terms of the headers in memory. -/

def isPositive (size : ℕ) : Bool := decide (0 < size ∧ size < 2 ^ 31)

def Tiles (mem : Mem) : ℕ → List ℕ → ℕ → Prop
  | lo, [], hi => lo = hi
  | lo, mb :: rest, hi => mb = lo ∧ magicOf mem mb = mbMagic ∧
      Tiles mem (lo + sizeofMemBlock + abs32 (mbSize mem mb)) rest hi

structure ArenaSafe (mem : Mem) (ar : Arena) (headers : List ℕ) : Prop where
  tiles : Tiles mem (ar.base + sizeofMemArena) headers (ar.base + sizeofMemArena + ar.maSize)
  free : ar.freeblks = headers.filter fun mb => isPositive (mbSize mem mb)
  sorted : ar.freeblks.Pairwise (· < ·)
  merged : headers.IsChain fun p q => ¬ (isPositive (mbSize mem p) ∧ isPositive (mbSize mem q))

def Placed (mem : Mem) (headers : List ℕ) (l : Alloc) : Prop :=
  8 ∣ l.ptr ∧ ∃ mb ∈ headers, isPositive (mbSize mem mb) = false ∧ mb + sizeofMemBlock ≤ l.ptr ∧
    l.ptr + l.size ≤ mb + sizeofMemBlock + abs32 (mbSize mem mb)

/-- Arenas are cut into blocks; live allocations lie in blocks in use and do not overlap. -/
structure HeapSafe (s : State) : Prop where
  arenas : ∀ ar ∈ s.pool.mpArena, ∃ headers, ArenaSafe s.pool.mem ar headers
  live : ∀ l ∈ s.live, ∃ ar ∈ s.pool.mpArena, ∃ headers, ArenaSafe s.pool.mem ar headers ∧
    Placed s.pool.mem headers l
  disjoint : s.live.Pairwise fun l m => l.ptr + l.size ≤ m.ptr ∨ m.ptr + m.size ≤ l.ptr

lemma HeaderOk.header (h : HeaderOk P Eights mem b) (hsize : b.size < 2 ^ 31) :
    abs32 (mbSize mem b.addr) = b.size ∧ isPositive (mbSize mem b.addr) = b.use.isNone := by
  have hpos := h.sized.1
  cases huse : b.use with
  | none =>
    have hmb : mbSize mem b.addr = b.size := by simpa [huse] using h.size
    have hneg : ¬ (isNegative b.size) := by
      rw [isNegative, decide_eq_true_eq]
      omega
    rw [hmb, abs32, if_neg hneg]
    exact ⟨rfl, decide_eq_true ⟨hpos, hsize⟩⟩
  | some l =>
    obtain ⟨hneg, habs⟩ := h.checks huse hsize
    refine ⟨habs, decide_eq_false ?_⟩
    rw [isNegative, decide_eq_true_eq] at hneg
    omega

variable {bs : List (Block Alloc)}

lemma tiles_of_contig {lo hi : ℕ} (hc : Contig 16 lo bs hi)
    (hok : ∀ b ∈ bs, HeaderOk P Eights mem b) (hsize : ∀ b ∈ bs, b.size < 2 ^ 31) :
    Tiles mem lo (bs.map Block.addr) hi := by
  induction bs generalizing lo with
  | nil => exact hc
  | cons b bs ih =>
    have hb := hok b mem_cons_self
    refine ⟨hc.1, hb.magic, ?_⟩
    rw [(hb.header (hsize b mem_cons_self)).1]
    exact ih hc.2 (fun e he => hok e (mem_cons_of_mem _ he))
      fun e he => hsize e (mem_cons_of_mem _ he)

lemma frees_eq_filter (hok : ∀ b ∈ bs, HeaderOk P Eights mem b)
    (hsize : ∀ b ∈ bs, b.size < 2 ^ 31) :
    frees bs = (bs.map Block.addr).filter fun mb => isPositive (mbSize mem mb) := by
  induction bs with
  | nil => rfl
  | cons b bs ih =>
    have hb := ((hok b mem_cons_self).header (hsize b mem_cons_self)).2
    have hrest := ih (fun e he => hok e (mem_cons_of_mem _ he))
      fun e he => hsize e (mem_cons_of_mem _ he)
    rw [frees, map_cons, filter_cons, hb, hrest]

lemma ArenaOf.safe {ar : Arena} (h : ArenaOf P Eights mem ar bs) :
    ArenaSafe mem ar (bs.map Block.addr) := by
  have hok := h.rep.ok
  have hsize : ∀ b ∈ bs, b.size < 2 ^ 31 := fun b hb => (h.bounds hb).2.2.2
  have hlist : ar.freeblks = frees bs := h.rep.list
  refine ⟨tiles_of_contig h.rep.contig hok hsize, hlist.trans (frees_eq_filter hok hsize), ?_, ?_⟩
  · rw [hlist]
    exact h.rep.contig.frees_sorted (by decide)
  rw [isChain_map]
  refine List.IsChain.imp_of_mem_imp (fun p q hp hq hpq hfree => hpq ?_) h.separated
  rw [((hok p hp).header (hsize p hp)).2, ((hok q hq).header (hsize q hq)).2] at hfree
  simpa using hfree

lemma HeaderOk.placed (h : HeaderOk P Eights mem b) (hb : b ∈ bs) (hsize : b.size < 2 ^ 31)
    (hl : b.use = some l) : Placed mem (bs.map Block.addr) l := by
  obtain ⟨habs, hfree⟩ := h.header hsize
  have hlink := h.link l hl
  refine ⟨hlink.aligned, b.addr, mem_map_of_mem hb, by simp [hfree, hl], hlink.low, ?_⟩
  rw [habs]
  exact hlink.room

lemma Holds.safe {s : State} (h : Holds P Eights s ps) : HeapSafe s := by
  obtain ⟨hrep, hlive⟩ := h
  refine ⟨fun ar har => ?_, fun l hl => ?_, ?_⟩
  · rw [hrep.arenas] at har
    obtain ⟨p, hp, rfl⟩ := mem_map.1 har
    exact ⟨_, (hrep.rep p hp).safe⟩
  · obtain ⟨c, hc, huse⟩ := exists_block hlive hl
    obtain ⟨p, hp, hmem⟩ := mem_flatMap.1 hc
    have hcb := (mem_used.1 hmem).1
    have har := hrep.rep p hp
    refine ⟨p.1, ?_, _, har.safe,
      HeaderOk.placed (har.rep.ok c hcb) hcb (har.bounds hcb).2.2.2 huse⟩
    rw [hrep.arenas]
    exact mem_map_of_mem hp
  · refine (hlive.pairwise_iff fun h => h.symm).2 ?_
    rw [pairwise_filterMap]
    refine hrep.inUse_apart.imp_of_mem fun {p q} hp hq hpq l hl m hm => ?_
    have hlp := (hrep.block hp).1.link l hl
    have hmq := (hrep.block hq).1.link m hm
    have h1 := hlp.low
    have h2 := hlp.room
    have h3 := hmq.low
    have h4 := hmq.room
    omega

lemma always_kept (mem : Mem) {ops : List Op} (h : Meets step Allowed (start mem) ops) :
    Always step (fun s => ∃ ps, Kept s ps) (start mem) ops := by
  refine always_of_meets ?_ ⟨[], holds_start mem, by simp [shapes]⟩ h
  rintro s op t ⟨ps, hs⟩ hop ht
  rcases apply_spec op hs hop with herr | ⟨u, ps', hok, hu⟩
  · rw [step, herr] at ht
    cases ht
  · rw [step, hok] at ht
    exact ⟨ps', Option.some.inj ht ▸ hu⟩

/-- In every run of allowed operations from an empty pool the heap is safe, and
an operation can stop the kernel only for want of memory. -/
theorem heap_safe (mem : Mem) (ops : List Op) (h : Meets step Allowed (start mem) ops) :
    Always step (fun s => HeapSafe s ∧
      ∀ op, Allowed s op → ∀ e, apply s op = .error e → e = .exhausted) (start mem) ops := by
  refine (always_kept mem h).mono fun s hs => ?_
  obtain ⟨ps, hs⟩ := hs
  refine ⟨hs.holds.safe, fun op hop e he => ?_⟩
  rcases apply_spec op hs hop with herr | ⟨u, ps', hok, -⟩
  · exact Except.error.inj (he.symm.trans herr)
  · rw [hok] at he
    cases he

def sampleArena : Op := .addArena 0x80000000 4096
def sampleAlloc : Op := .kmemalign 8 64 0
def sampleFree : Op := .kfree ⟨0x80000040, 8⟩

theorem heap_safe_memalign_free : Always step (fun s => HeapSafe s ∧
    ∀ op, Allowed s op → ∀ e, apply s op = .error e → e = .exhausted) (start fun _ => 0)
    [sampleArena, sampleAlloc, sampleFree] := by
  apply heap_safe
  simp only [meets_cons]
  refine ⟨⟨by decide, by decide, ⟨by decide, by decide⟩, fun ar har => by cases har⟩, fun s hs =>
    ⟨⟨6, by decide, rfl, by decide⟩, fun t ht => ⟨?_, fun _ _ => meets_nil _ _ _⟩⟩⟩
  have hlive : (exec step (start fun _ => 0) [sampleArena, sampleAlloc]).map State.live =
      some [⟨0x80000040, 8⟩] := by decide +kernel
  have hexec : exec step (start fun _ => 0) [sampleArena, sampleAlloc] = some t := by
    rw [exec_cons, hs]
    simp [ht]
  rw [hexec] at hlive
  show _ ∈ t.live
  rw [Option.some.inj hlive]
  exact mem_singleton.2 rfl

end GzOS.Kmalloc
