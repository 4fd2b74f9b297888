import GzOS.HeapLimits
import GzOS.HeapUndo

/-!
# Aligned allocations and their frees

The way back from an aligned pointer to its block is an offset of half a word in
front of it. It leads to the block just when the data of the block found for the
request lies less than 2 ^ 16 bytes below the next multiple of the alignment.
-/
namespace GzOS.Kmalloc
open ByteMemory BlockList Runs Option

variable {S : ℕ → Prop} {mem : Mem} {mp : Pool} {ps : List (Arena × List (Block Alloc))}
  {b : Block Alloc} {size k : ℕ}

/-- A result is aligned with room for the request inside its block, and a free gives back
this block only. -/
def Agrees (mp : Pool) (size k flags : ℕ) : Prop :=
  ∀ ptr mp', kmemalign mp size (2 ^ k) flags = .ok (some ptr, mp') →
    ∃ mb mp₁, kmalloc mp (size + 2 ^ k + 4) flags = .ok (some (mb + sizeofMemBlock), mp₁) ∧
      ptr % 2 ^ k = 0 ∧ mb + sizeofMemBlock ≤ ptr ∧
      ptr + size ≤ mb + sizeofMemBlock + abs32 (mbSize mp'.mem mb) ∧
      sub32 (dataOf mp'.mem ptr) sizeofMemBlock = mb ∧
      ∃ mp'', kfree mp' ptr = .ok mp'' ∧ mp''.mpArena = mp.mpArena ∧ freeLists mp'' = freeLists mp

lemma dataOf_writeHeader {ptr offset : ℕ} (hlow : 4 ≤ ptr) (hlt : ptr < 2 ^ 32) :
    dataOf (writeHeader mem (sub32 ptr 4) offset) ptr = sub32 ptr (offset % 2 ^ 16) := by
  have hheader : sub32 ptr sizeofAlignedMemBlock = ptr - 4 := by
    rw [sub32, u32, sizeofAlignedMemBlock]
    omega
  have hsame : sub32 ptr 4 = ptr - 4 := hheader
  have hword : readWord (writeHeader mem (ptr - 4) offset) (ptr - 4) =
      alignedMemBlockMagic * 2 ^ 16 + offset % 2 ^ 16 := readWord_writeHeader
  have hmagic : readHalf (writeHeader mem (ptr - 4) offset) (ptr - 4) = alignedMemBlockMagic := by
    rw [readHalf_eq, hword]
    omega
  have hoffset : readHalf (writeHeader mem (ptr - 4) offset) (ptr - 4 + 2) = offset % 2 ^ 16 := by
    rw [readHalf_add_two, hword]
    omega
  simp [dataOf, hheader, hsame, hmagic, hoffset]

lemma agrees_of_fit (flags : ℕ) (hP : Closed NoHeader S) (h : PoolOf NoHeader S mp ps)
    (hk : k ≤ 31) (hlt : size + 2 ^ k + 4 + 23 < 2 ^ 32)
    (hloss : ∀ b, firstFit (rounded (size + 2 ^ k + 4) + 16) ps = some b →
      Lossless (b.addr + 16) k) : Agrees mp size k flags := by
  intro ptr mp' hok
  rcases kmemalign_spec flags hP h hk hlt hloss with hnull | herr |
    ⟨b, ptr', mp2, ps2, hb, hsome, hrep, hperm, hshapes, hmult⟩
  · rw [hnull] at hok
    cases hok
  · rw [herr] at hok
    cases hok
  rw [hsome] at hok
  obtain ⟨rfl, rfl⟩ : ptr' = ptr ∧ mp2 = mp' := by simpa using hok
  obtain ⟨mp1, hnew⟩ := kmalloc_found flags h (Nat.succ_ne_zero _) (by rwa [(total_eq hlt).2])
  obtain ⟨c, hc⟩ : ∃ c : Block Alloc, c =
      ⟨b.addr, (grant (rounded (size + 2 ^ k + 4)) size b).size, some ⟨ptr', size⟩⟩ := ⟨_, rfl⟩
  have haddr : c.addr = b.addr := by rw [hc]
  have huse : c.use = some ⟨ptr', size⟩ := by rw [hc]
  rw [← hc] at hperm
  rw [← haddr] at hnew
  have hmem := hperm.mem_iff.2 List.mem_cons_self
  obtain ⟨hheader, htop, hsize⟩ := hrep.block hmem
  have hlink := hheader.link _ huse
  have hdata := hrep.dataOf hmem huse
  obtain ⟨mp3, ps3, hfree, hrep3, hperm3, hshapes3⟩ := kfree_spec hP hrep hmem huse hdata
  obtain rfl : ps3 = ps :=
    h.unique hrep3 (hshapes3.trans hshapes) (hperm3.symm.trans hperm).cons_inv
  refine ⟨c.addr, mp1, hnew, hmult, hlink.low, ?_, ?_, mp3, hfree,
    hrep3.arenas.trans h.arenas.symm, h.freeLists_eq hrep3⟩
  · rw [(hheader.checks huse hsize).2]
    exact hlink.room
  · rw [hdata, sub32, u32, sizeofMemBlock]
    omega

/-- The offset is stored in 16 bits, and a free finds the block only if that is exact. -/
lemma lossless_of_agrees {flags : ℕ} (hk : k ≤ 30) (hlt : size + 2 ^ k + 4 < 2 ^ 32)
    (hptr : 8 ∣ b.addr) (htop : b.addr + 16 < 2 ^ 32) {mp1 : Pool}
    (hnew : kmalloc mp (size + 2 ^ k + 4) flags = .ok (some (b.addr + 16), mp1))
    (h : Agrees mp size k flags) :
    size + 2 ^ k + 4 ≤ 2 ^ 32 - 24 ∧ Lossless (b.addr + 16) k := by
  have hdata : 8 ∣ b.addr + 16 := Nat.dvd_add hptr (by decide)
  have hpow : 2 ^ k ≤ 2 ^ 30 := Nat.pow_le_pow_right (by decide) hk
  obtain ⟨ptr, mp', hok⟩ : ∃ ptr mp', kmemalign mp size (2 ^ k) flags = .ok (some ptr, mp') := by
    by_cases haligned : (b.addr + 16) % 2 ^ k = 0
    · exact ⟨_, _, kmemalign_aligned flags hlt hnew haligned⟩
    · exact ⟨_, _, kmemalign_moved flags (by omega) hlt hnew hdata htop haligned⟩
  obtain ⟨mb, mp2, hnew', -, hlow, hroom, hfound, -⟩ := h ptr mp' hok
  obtain rfl : b.addr = mb := by
    rw [hnew] at hnew'
    simp only [Except.ok.injEq, Prod.mk.injEq, some.injEq, sizeofMemBlock] at hnew'
    omega
  have habs : abs32 (mbSize mp'.mem b.addr) ≤ 2 ^ 31 := by
    rw [abs32, isNegative]
    split_ifs with hneg
    · have := of_decide_eq_true hneg
      omega
    · simp only [decide_eq_true_eq] at hneg
      omega
  refine ⟨by omega, ?_⟩
  by_cases haligned : (b.addr + 16) % 2 ^ k = 0
  · exact .inl haligned
  right
  obtain ⟨hgl, hgh, -, -⟩ := gap_spec hdata haligned
  rw [kmemalign_moved flags (by omega) hlt hnew hdata htop haligned] at hok
  obtain ⟨rfl, rfl⟩ := hok
  generalize gap (b.addr + 16) k = offset at *
  have hmoved : u32 (b.addr + 16 + offset) = b.addr + 16 + offset := by
    rw [u32] at hlow
    rw [u32]
    omega
  rw [hmoved] at hfound
  rw [dataOf_writeHeader (by omega) (by rw [← hmoved]; exact Nat.mod_lt _ (by decide))] at hfound
  simp only [sub32, u32, sizeofMemBlock] at hfound hmoved
  omega

/-- In every state of a run within the limits, an aligned allocation and its free agree
just when the block found is large enough and close enough to the alignment. -/
theorem kmemalign_agrees_iff (mem : Mem) (ops : List Op) (h : Meets step Within (start mem) ops) :
    Always step (fun s => ∀ size k flags, k ≤ 30 → size + 2 ^ k + 4 < 2 ^ 32 →
      (Agrees s.pool size k flags ↔ Aligns s.pool size k)) (start mem) ops := by
  refine (always_limited mem h).mono fun s hs size k flags hk hlt => ?_
  obtain ⟨ps, hs⟩ := hs
  have hpool := hs.pool
  constructor
  · intro hagrees mb hmb
    rw [hpool.firstFree_eq] at hmb
    obtain ⟨b, hb, rfl⟩ := map_eq_some_iff.1 hmb
    obtain ⟨p, hp, hmem⟩ := List.mem_flatMap.1 (List.mem_of_find?_eq_some hb)
    have hbound := (hpool.rep p hp).bounds hmem
    obtain ⟨mp1, hnew⟩ := kmalloc_found flags hpool (Nat.succ_ne_zero _) hb
    exact lossless_of_agrees hk hlt ((hpool.rep p hp).rep.ok b hmem).aligned (by omega) hnew hagrees
  · intro haligns
    cases hfirst : firstFree s.pool (totalSize (size + 2 ^ k + 4)) with
    | none =>
      intro ptr mp' hok
      rcases kmemalign_none flags hpool hlt (hpool.firstFit_none hfirst) with hnull | herr
      · rw [hnull] at hok
        cases hok
      · rw [herr] at hok
        cases hok
    | some mb =>
      have hsize := (haligns mb hfirst).1
      refine agrees_of_fit flags closed_anySize hpool (by omega) (by omega) fun b hb => ?_
      exact (haligns b.addr (hpool.firstFree_of_fit (by omega) hb)).2

def sampleLarge : Op := .addArena 0x80000000 0x80000

/-- Pages are aligned without loss. -/
theorem kmemalign_agrees_page : ∃ s, exec step (start fun _ => 0) [sampleLarge] = some s ∧
    Agrees s.pool 8 12 0 := by
  have hmeets : Meets step Within (start fun _ => 0) [sampleLarge] := by
    rw [meets_cons]
    exact ⟨⟨by decide, by decide, by decide, (fun ar har => by cases har), by decide⟩,
      fun _ _ => meets_nil _ _ _⟩
  refine ⟨_, rfl, ?_⟩
  refine ((kmemalign_agrees_iff _ _ hmeets).last rfl 8 12 0 (by decide) (by decide)).2 ?_
  exact fun mb _ => ⟨by decide, lossless_of_le (by decide)⟩

/-- An alignment of 2 ^ 17 bytes moves the pointer by more than the header can record, and
the free takes the middle of the block for a header. -/
theorem kmemalign_lossy : ∃ s, exec step (start fun _ => 0) [sampleLarge] = some s ∧
    ∃ mp, kmemalign s.pool 8 (2 ^ 17) 0 = .ok (some 0x80020000, mp) ∧
      (∀ mp', kfree mp 0x80020000 ≠ .ok mp') ∧ ¬ Agrees s.pool 8 17 0 := by
  have hrun : (exec step (start fun _ => 0) [sampleLarge]).any (fun s =>
      (kmemalign s.pool 8 (2 ^ 17) 0).toOption.any fun r =>
        decide (r.1 = some 0x80020000 ∧ (kfree r.2 0x80020000).toOption.isNone = true)) = true := by
    decide +kernel
  obtain ⟨s, hs, hfacts⟩ := (any_eq_true _ _).1 hrun
  obtain ⟨⟨ptr, mp⟩, hok, hfacts⟩ := (any_eq_true _ _).1 hfacts
  obtain ⟨rfl, hnone⟩ := of_decide_eq_true hfacts
  rw [toOption_eq_some] at hok
  have hfail : ∀ mp', kfree mp 0x80020000 ≠ .ok mp' := by
    intro mp' hfree
    rw [hfree] at hnone
    cases hnone
  refine ⟨s, hs, mp, hok, hfail, fun h => ?_⟩
  obtain ⟨_, _, _, _, _, _, _, mp', hfree, _⟩ := h _ mp hok
  exact hfail mp' hfree

end GzOS.Kmalloc
