import GzOS.HeapSafety

/-!
# The heap at the limits of the address space

Requests close to the end of the address space are rounded up past it, and an arena
that is too small or too large for one block gets a free block of negative size.
Without these, every block has the size that was asked for and no free block leaves its
arena.
-/
namespace GzOS.Kmalloc
open ByteMemory BlockList Runs List

variable {P S : ℕ → Prop} {mem : Mem} {mp : Pool} {ps : List (Arena × List (Block Alloc))}
  {b c : Block Alloc} {l : Alloc}

def firstFree (mp : Pool) (total : ℕ) : Option ℕ :=
  mp.mpArena.findSome? fun ar => (findEntry mp.mem total ar.freeblks).toOption.join

def totalSize (size : ℕ) : ℕ := u32 (align size mbAlignment + sizeofMemBlock)

/-- The rounded request fits into a word, or nothing is found for what is left of it. -/
def Unwrapped (mp : Pool) (size : ℕ) : Prop :=
  size ≤ 2 ^ 32 - 24 ∨ firstFree mp (totalSize size) = none

/-- The block found is large enough, and its data close enough to the next multiple for the
offset to be recorded. -/
def Aligns (mp : Pool) (size k : ℕ) : Prop :=
  ∀ mb, firstFree mp (totalSize (size + 2 ^ k + 4)) = some mb →
    size + 2 ^ k + 4 ≤ 2 ^ 32 - 24 ∧ Lossless (mb + sizeofMemBlock) k

/-- New arenas are apart, 8-aligned, not at addresses like an alignment header, and their
block has a size; requests do not wrap around, alignments are recorded, and only live
allocations are freed or written. -/
def Within (s : State) : Op → Prop
  | .addArena start size => 8 ∣ start ∧ start + size < 2 ^ 32 ∧
      (start + size ≤ 0xAAFF0000 ∨ 0xAB000000 ≤ start) ∧
      (∀ ar ∈ s.pool.mpArena, ar.hi ≤ start ∨ start + size ≤ ar.base) ∧
      (size < sizeofMemArena ∨ 48 ≤ size ∧ size < 2 ^ 31 + 48)
  | .kmalloc size _ => Unwrapped s.pool size
  | .kmemalign size alignment _ => ∃ k ≤ 30, alignment = 2 ^ k ∧ size + 2 ^ k + 4 < 2 ^ 32 ∧
      Aligns s.pool size k
  | .kfree l => l ∈ s.live
  | .write l i _ => l ∈ s.live ∧ i < l.size

def FreeSound (mp : Pool) : Prop :=
  ∀ ar ∈ mp.mpArena, ∀ mb ∈ ar.freeblks, isNegative (mbSize mp.mem mb) = false ∧ ar.lo ≤ mb ∧
    mb + sizeofMemBlock + mbSize mp.mem mb ≤ ar.hi

/-- The block is in an arena, in use and large enough. -/
def Granted (mp : Pool) (mb size : ℕ) : Prop :=
  ∃ ar ∈ mp.mpArena, ar.lo ≤ mb ∧ magicOf mp.mem mb = mbMagic ∧
    isNegative (mbSize mp.mem mb) = true ∧ size ≤ abs32 (mbSize mp.mem mb) ∧
    mb + sizeofMemBlock + abs32 (mbSize mp.mem mb) ≤ ar.hi

/-! The search. -/

lemma PoolOf.firstFree_eq (h : PoolOf P S mp ps) (total : ℕ) :
    firstFree mp total = (firstFit total ps).map Block.addr := by
  have hall : ∀ qs : List (Arena × List (Block Alloc)), (∀ p ∈ qs, p ∈ ps) →
      (qs.map Prod.fst).findSome? (fun ar => (findEntry mp.mem total ar.freeblks).toOption.join) =
        (firstFit total qs).map Block.addr := by
    intro qs
    induction qs with
    | nil => intro _; rfl
    | cons p qs ih =>
      intro hqs
      have hrep := (h.rep p (hqs p mem_cons_self)).rep
      have hlist : p.1.freeblks = frees p.2 := hrep.list
      have hrest := ih fun q hq => hqs q (mem_cons_of_mem _ hq)
      rw [map_cons, findSome?_cons, hlist, findEntry_eq hrep.ok, hrest, firstFit_cons]
      cases p.2.find? (fits total) with
      | none => rfl
      | some b => rfl
  rw [firstFree, h.arenas]
  exact hall ps fun _ hp => hp

lemma PoolOf.firstFit_none (h : PoolOf P S mp ps) {total : ℕ} (hnone : firstFree mp total = none) :
    firstFit total ps = none := by
  rw [h.firstFree_eq] at hnone
  exact Option.map_eq_none_iff.1 hnone

lemma PoolOf.firstFree_of_fit {size : ℕ} (h : PoolOf P S mp ps) (hlt : size + 23 < 2 ^ 32)
    (hb : firstFit (rounded size + 16) ps = some b) :
    firstFree mp (totalSize size) = some b.addr := by
  rw [h.firstFree_eq, totalSize, (total_eq hlt).2, hb]
  rfl

/-! The invariant of the runs. -/

def Limited (s : State) : Prop := ∃ ps, Holds NoHeader AnySize s ps

lemma limited_start (mem : Mem) : Limited (start mem) := ⟨[], holds_start mem⟩

variable {s : State}

lemma limited_addArena {start size : ℕ} (h : Holds NoHeader AnySize s ps)
    (hop : Within s (.addArena start size)) :
    Limited { s with pool := kmallocAddArena s.pool start size } := by
  obtain ⟨hstart, htop, hmagic, hapart, hsize⟩ := hop
  by_cases hsmall : size < sizeofMemArena
  · rw [kmallocAddArena, if_pos hsmall]
    exact ⟨ps, h⟩
  obtain ⟨hlow, hhigh⟩ := hsize.resolve_left hsmall
  have hlinks : ∀ w, start ≤ w → w < start + size → NoHeader w := by
    intro w hw hw'
    rw [NoHeader, alignedMemBlockMagic]
    omega
  obtain ⟨ps', hnew, -⟩ :=
    holds_addArena closed_anySize h hstart hlow hhigh trivial htop hlinks hapart
  exact ⟨ps', hnew⟩

lemma limited_kmalloc {size : ℕ} (flags : ℕ) (h : Holds NoHeader AnySize s ps)
    (hop : Unwrapped s.pool size) : apply s (.kmalloc size flags) = .error .exhausted ∨
      ∃ t, apply s (.kmalloc size flags) = .ok t ∧ Limited t := by
  rcases hop with hsize | hnone
  · refine (holds_kmalloc closed_anySize h flags (by omega)).imp_right ?_
    rintro ⟨t, ps', hok, ht, -⟩
    exact ⟨t, hok, ps', ht⟩
  · rw [apply]
    rcases kmalloc_none flags h.pool (h.pool.firstFit_none hnone) with hok | herr
    · rw [hok]
      exact .inr ⟨s, rfl, ps, h⟩
    · rw [herr]
      exact .inl rfl

lemma limited_kmemalign {size k : ℕ} (flags : ℕ) (h : Holds NoHeader AnySize s ps)
    (hk : k ≤ 30) (hlt : size + 2 ^ k + 4 < 2 ^ 32) (hop : Aligns s.pool size k) :
    apply s (.kmemalign size (2 ^ k) flags) = .error .exhausted ∨
      ∃ t, apply s (.kmemalign size (2 ^ k) flags) = .ok t ∧ Limited t := by
  cases hfirst : firstFree s.pool (totalSize (size + 2 ^ k + 4)) with
  | none =>
    rw [apply]
    rcases kmemalign_none flags h.pool hlt (h.pool.firstFit_none hfirst) with hok | herr
    · rw [hok]
      exact .inr ⟨s, rfl, ps, h⟩
    · rw [herr]
      exact .inl rfl
  | some mb =>
    obtain ⟨hsize, -⟩ := hop mb hfirst
    refine (holds_kmemalign closed_anySize h flags (by omega) (by omega)
      fun b hb => ?_).imp_right ?_
    · exact (hop b.addr (h.pool.firstFree_of_fit (by omega) hb)).2
    · rintro ⟨t, ps', hok, ht, -⟩
      exact ⟨t, hok, ps', ht⟩

lemma limited_step {t : State} (op : Op) (h : Limited s) (hop : Within s op)
    (hstep : step s op = some t) : Limited t := by
  obtain ⟨ps, h⟩ := h
  have hdone : (apply s op = .error .exhausted ∨ ∃ u, apply s op = .ok u ∧ Limited u) →
      Limited t := by
    rintro (herr | ⟨u, hok, hu⟩)
    · rw [step, herr] at hstep
      cases hstep
    · rw [step, hok] at hstep
      exact Option.some.inj hstep ▸ hu
  apply hdone
  cases op with
  | addArena start size => exact .inr ⟨_, rfl, limited_addArena h hop⟩
  | kmalloc size flags => exact limited_kmalloc flags h hop
  | kmemalign size alignment flags =>
    obtain ⟨k, hk, rfl, hlt, hroom⟩ := hop
    exact limited_kmemalign flags h hk hlt hroom
  | kfree l =>
    obtain ⟨u, ps', hok, -, hu, -⟩ :=
      holds_kfree closed_anySize h hop fun c hc hl => h.pool.dataOf hc hl
    exact .inr ⟨u, hok, ps', hu⟩
  | write l i v =>
    obtain ⟨ps', hu, -⟩ := holds_write h v hop.1 hop.2
    exact .inr ⟨_, rfl, ps', hu⟩

lemma always_limited (mem : Mem) {ops : List Op} (h : Meets step Within (start mem) ops) :
    Always step Limited (start mem) ops :=
  always_of_meets (fun _ op _ hs hop ht => limited_step op hs hop ht) (limited_start mem) h

/-! What the invariant says about the headers. -/

lemma PoolOf.freeSound (h : PoolOf P S mp ps) : FreeSound mp := by
  intro ar har mb hmb
  rw [h.arenas] at har
  obtain ⟨p, hp, rfl⟩ := mem_map.1 har
  have harena := h.rep p hp
  have hlist : p.1.freeblks = frees p.2 := harena.rep.list
  rw [hlist] at hmb
  obtain ⟨b, hb, hfree, rfl⟩ := mem_frees.1 hmb
  have hsize : mbSize mp.mem b.addr = b.size := by simpa [hfree] using (harena.rep.ok b hb).size
  have hbound := harena.bounds hb
  rw [isNegative, decide_eq_false_iff_not, sizeofMemBlock, Arena.lo]
  omega

lemma PoolOf.granted (h : PoolOf P S mp ps) (hc : c ∈ inUse ps) (hl : c.use = some l)
    (hptr : l.ptr = c.addr + 16) : Granted mp c.addr l.size := by
  obtain ⟨p, hp, hmem⟩ := mem_flatMap.1 hc
  have harena := h.rep p hp
  have hcb := (mem_used.1 hmem).1
  have hbound := harena.bounds hcb
  have hok : HeaderOk P S mp.mem c := harena.rep.ok c hcb
  obtain ⟨hneg, habs⟩ := hok.checks hl hbound.2.2.2
  have hroom := (hok.link l hl).room
  refine ⟨p.1, ?_, hbound.1, hok.magic, hneg, ?_, ?_⟩
  · rw [h.arenas]
    exact mem_map_of_mem hp
  · omega
  · rw [habs]
    exact hbound.2.1

lemma Limited.kmalloc_granted {size flags ptr : ℕ} (h : Limited s)
    (hop : Unwrapped s.pool size) (hok : kmalloc s.pool size flags = .ok (some ptr, mp)) :
    sizeofMemBlock ≤ ptr ∧ Granted mp (ptr - sizeofMemBlock) size := by
  obtain ⟨ps, h⟩ := h
  rcases hop with hsize | hnone
  · have hlt : size + 23 < 2 ^ 32 := by omega
    rcases kmalloc_spec flags closed_anySize h.pool hlt with hnull | herr |
      ⟨b, mp', ps', -, hsome, hrep, hperm, -⟩
    · rw [hnull] at hok
      cases hok
    · rw [herr] at hok
      cases hok
    · rw [hsome] at hok
      obtain ⟨rfl, rfl⟩ : b.addr + 16 = ptr ∧ mp' = mp := by simpa using hok
      exact ⟨Nat.le_add_left _ _, hrep.granted (hperm.mem_iff.2 mem_cons_self) rfl rfl⟩
  · rcases kmalloc_none flags h.pool (h.pool.firstFit_none hnone) with hnull | herr
    · rw [hnull] at hok
      cases hok
    · rw [herr] at hok
      cases hok

/-- In every run within the limits no free block has a negative or wrapped size, and
what is returned for a request that does not wrap around is the data of a block
with at least its size. -/
theorem kmalloc_limits (mem : Mem) (ops : List Op) (h : Meets step Within (start mem) ops) :
    Always step (fun s => FreeSound s.pool ∧ ∀ size flags ptr mp, Unwrapped s.pool size →
      kmalloc s.pool size flags = .ok (some ptr, mp) →
        sizeofMemBlock ≤ ptr ∧ Granted mp (ptr - sizeofMemBlock) size) (start mem) ops := by
  refine (always_limited mem h).mono fun s hs => ?_
  refine ⟨?_, fun size flags ptr mp hop hok => hs.kmalloc_granted hop hok⟩
  obtain ⟨ps, hs⟩ := hs
  exact hs.pool.freeSound

/-- The smallest and the largest arena within the limits. -/
theorem kmalloc_limits_largest :
    Meets step Within (start fun _ => 0) [.addArena 0x1000 48, .addArena 0x2000 (2 ^ 31 + 47)] ∧
    ∃ s, exec step (start fun _ => 0)
        [.addArena 0x1000 48, .addArena 0x2000 (2 ^ 31 + 47)] = some s ∧ FreeSound s.pool := by
  have hmeets : Meets step Within (start fun _ => 0)
      [.addArena 0x1000 48, .addArena 0x2000 (2 ^ 31 + 47)] := by
    simp only [meets_cons]
    refine ⟨⟨by decide, by decide, by decide, (fun ar har => by cases har), by decide⟩, fun s hs =>
      ⟨⟨by decide, by decide, by decide, fun ar har => .inl ?_, by decide⟩,
        fun _ _ => meets_nil _ _ _⟩⟩
    cases hs
    obtain rfl := mem_singleton.1 har
    decide
  exact ⟨hmeets, _, rfl, ((kmalloc_limits _ _ hmeets).last rfl).1⟩

/-- A request that is rounded up past the end of the address space gets a block of no
size, and arenas of 40 and of 2 ^ 31 + 48 bytes get a free block of negative size. -/
theorem kmalloc_limits_fail : (∃ s ptr mp, exec step (start fun _ => 0) [sampleArena] = some s ∧
      kmalloc s.pool (2 ^ 32 - 1) 0 = .ok (some ptr, mp) ∧
        ¬ Granted mp (ptr - sizeofMemBlock) (2 ^ 32 - 1)) ∧
    (∃ s, exec step (start fun _ => 0) [.addArena 0x80000000 40] = some s ∧ ¬ FreeSound s.pool) ∧
    ∃ s, exec step (start fun _ => 0) [.addArena 0x1000 (2 ^ 31 + 48)] = some s ∧
      ¬ FreeSound s.pool := by
  refine ⟨⟨_, 0x80000030, _, rfl, rfl, ?_⟩, ⟨_, rfl, ?_⟩, ⟨_, rfl, ?_⟩⟩
  · rintro ⟨ar, -, -, -, -, hsize, -⟩
    exact absurd hsize (by decide +kernel)
  · intro h
    exact absurd (h _ mem_cons_self 0x80000020 (by decide +kernel)).1 (by decide +kernel)
  · intro h
    exact absurd (h _ mem_cons_self 0x1020 (by decide +kernel)).1 (by decide +kernel)

end GzOS.Kmalloc
