import GzOS.ByteMemory
import Mathlib.Data.Nat.Bitwise

/-!
# The kernel heap

A pool of arenas, each an arena header followed by blocks: a magic number, a signed size
that is positive for a free block, two list links, and the data. Addresses and sizes are
32-bit words. Of the links only `tqe_prev` is written to memory: it is the word in front
of the data that a free takes for an alignment header if its upper half is the magic
number.
-/
namespace GzOS.Kmalloc
open ByteMemory

def u32 (x : ℕ) : ℕ := x % 2 ^ 32

def sub32 (x y : ℕ) : ℕ := u32 (x + 2 ^ 32 - y)

def mbMagic : ℕ := 0xC0DECAFE
def alignedMemBlockMagic : ℕ := 0xAAFF
def mbAlignment : ℕ := 8
def sizeofMemBlock : ℕ := 16
def sizeofMemArena : ℕ := 32
def sizeofAlignedMemBlock : ℕ := 4
def mNowait : ℕ := 1
def mZero : ℕ := 2

def align (x size : ℕ) : ℕ := u32 (x + (size - 1)) &&& (2 ^ 32 - size)

structure Arena where
  base : ℕ
  maSize : ℕ
  maMagic : ℕ
  freeblks : List ℕ

structure Pool where
  mpMagic : ℕ
  mpArena : List Arena
  mem : Mem

/-- The ways to stop the kernel. -/
inductive Panic
  | exhausted
  | corruption
  | assertion
  deriving DecidableEq

/-! Fields of a block. -/

def magicOf (mem : Mem) (mb : ℕ) : ℕ := readWord mem mb
def mbSize (mem : Mem) (mb : ℕ) : ℕ := readWord mem (mb + 4)
def tqePrev (mem : Mem) (mb : ℕ) : ℕ := readWord mem (mb + 12)
def setSize (mem : Mem) (mb size : ℕ) : Mem := writeWord mem (mb + 4) size
def setPrev (mem : Mem) (mb prev : ℕ) : Mem := writeWord mem (mb + 12) prev

/-- The size field is a signed word. -/
def isNegative (size : ℕ) : Bool := decide (2 ^ 31 ≤ size)

def abs32 (size : ℕ) : ℕ := if isNegative size then 2 ^ 32 - size else size

/-! The list of free blocks. The address of the link after `mb` is `mb + 8`. -/

def nextOf (l : List ℕ) (mb : ℕ) : Option ℕ := (l.dropWhile fun e => decide (e ≠ mb)).tail.head?

def relink (mem : Mem) (next : Option ℕ) (prev : ℕ) : Mem :=
  match next with
  | none => mem
  | some e => setPrev mem e prev

structure FreeList where
  mem : Mem
  list : List ℕ

def insertHead (ma : ℕ) (f : FreeList) (mb : ℕ) : FreeList :=
  { mem := setPrev (relink f.mem f.list.head? (mb + 8)) mb (ma + 16)
    list := mb :: f.list }

def insertAfter (f : FreeList) (best mb : ℕ) : FreeList :=
  { mem := setPrev (relink f.mem (nextOf f.list best) (mb + 8)) mb (best + 8)
    list := f.list.takeWhile (fun e => decide (e ≠ best)) ++
      best :: mb :: (f.list.dropWhile fun e => decide (e ≠ best)).tail }

def remove (f : FreeList) (mb : ℕ) : FreeList :=
  { mem := relink f.mem (nextOf f.list mb) (tqePrev f.mem mb)
    list := f.list.erase mb }

def mergeRight (f : FreeList) (mb : ℕ) : FreeList :=
  match nextOf f.list mb with
  | none => f
  | some next =>
    if u32 (mb + mbSize f.mem mb + sizeofMemBlock) = next then
      let g := remove f next
      { g with
        mem := setSize g.mem mb (u32 (mbSize g.mem mb + mbSize g.mem next + sizeofMemBlock)) }
    else f

def initBlock (mem : Mem) (mb totalSize : ℕ) : Mem :=
  setSize (writeWord (zero mem mb sizeofMemBlock) mb mbMagic) mb (sub32 totalSize sizeofMemBlock)

def linkBlock (ma : ℕ) (f : FreeList) (mb : ℕ) : FreeList :=
  if f.list = [] then insertHead ma f mb
  else
    match (f.list.filter fun current => decide (current < mb)).getLast? with
    | none => mergeRight (insertHead ma f mb) mb
    | some bestSoFar => mergeRight (mergeRight (insertAfter f bestSoFar mb) mb) bestSoFar

def addFreeMemoryBlock (ma : ℕ) (f : FreeList) (mb totalSize : ℕ) : FreeList :=
  linkBlock ma { f with mem := initBlock f.mem mb totalSize } mb

def findEntry (mem : Mem) (totalSize : ℕ) : List ℕ → Except Panic (Option ℕ)
  | [] => .ok none
  | current :: rest =>
    if magicOf mem current ≠ mbMagic then .error .assertion
    else if mbSize mem current ≥ totalSize then .ok (some current)
    else findEntry mem totalSize rest

/-- What is beyond the request becomes a block of its own if it is large enough. -/
def takeBlock (ma : ℕ) (f : FreeList) (mb requestedSize : ℕ) : FreeList :=
  let g := remove f mb
  let totalSizeLeft := sub32 (mbSize g.mem mb) requestedSize
  if totalSizeLeft > sizeofMemBlock then
    let newMb := u32 (mb + requestedSize + sizeofMemBlock)
    addFreeMemoryBlock ma { g with mem := setSize g.mem mb (sub32 0 requestedSize) } newMb
      totalSizeLeft
  else
    { g with mem := setSize g.mem mb (sub32 0 (mbSize g.mem mb)) }

def tryAllocatingInArea (ma : ℕ) (f : FreeList) (requestedSize : ℕ) :
    Except Panic (Option (ℕ × FreeList)) := do
  match ← findEntry f.mem (u32 (requestedSize + sizeofMemBlock)) f.list with
  | none => return none
  | some mb => return some (mb, takeBlock ma f mb requestedSize)

def kmallocInit (mem : Mem) : Pool := { mpMagic := mbMagic, mpArena := [], mem }

def kmallocAddArena (mp : Pool) (start arenaSize : ℕ) : Pool :=
  if arenaSize < sizeofMemArena then mp
  else
    let mem := zero mp.mem start sizeofMemArena
    let f := addFreeMemoryBlock start ⟨mem, []⟩ (start + sizeofMemArena)
      (arenaSize - sizeofMemArena)
    { mp with
      mpArena := ⟨start, arenaSize - sizeofMemArena, mbMagic, f.list⟩ :: mp.mpArena
      mem := f.mem }

def allocInArenas (mem : Mem) (requestedSize : ℕ) :
    List Arena → Except Panic (Option (ℕ × Mem × List Arena))
  | [] => .ok none
  | current :: rest =>
    if current.maMagic ≠ mbMagic then .error .corruption
    else do
      match ← tryAllocatingInArea current.base ⟨mem, current.freeblks⟩ requestedSize with
      | some (mb, f) => return some (mb, f.mem, { current with freeblks := f.list } :: rest)
      | none =>
        match ← allocInArenas mem requestedSize rest with
        | some (mb, mem', rest') => return some (mb, mem', current :: rest')
        | none => return none

/-- The inner `none` is the null pointer. -/
def kmalloc (mp : Pool) (size flags : ℕ) : Except Panic (Option ℕ × Pool) :=
  if size = 0 then .ok (none, mp)
  else do
    match ← allocInArenas mp.mem (align size mbAlignment) mp.mpArena with
    | some (mb, mem, arenas) =>
      let data := mb + sizeofMemBlock
      let mem' := if flags &&& mZero ≠ 0 then zero mem data size else mem
      return (some data, { mp with mem := mem', mpArena := arenas })
    | none => if flags &&& mNowait ≠ 0 then .ok (none, mp) else .error .exhausted

/-- A block is added to every arena that contains it. -/
def freeInArenas (addr mb : ℕ) : Mem → List Arena → Mem × List Arena
  | mem, [] => (mem, [])
  | mem, current :: rest =>
    let start := current.base + sizeofMemArena
    if start ≤ addr ∧ addr < start + current.maSize then
      let f := addFreeMemoryBlock current.base ⟨mem, current.freeblks⟩ mb
        (u32 (abs32 (mbSize mem mb) + sizeofMemBlock))
      let r := freeInArenas addr mb f.mem rest
      (r.1, { current with freeblks := f.list } :: r.2)
    else
      let r := freeInArenas addr mb mem rest
      (r.1, current :: r.2)

/-- Through the alignment header if the word in front of the pointer is one. -/
def dataOf (mem : Mem) (addr : ℕ) : ℕ :=
  let header := sub32 addr sizeofAlignedMemBlock
  if readHalf mem header = alignedMemBlockMagic then sub32 addr (readHalf mem (header + 2))
  else addr

def kfree (mp : Pool) (ptr : ℕ) : Except Panic Pool :=
  let addr := dataOf mp.mem ptr
  let mb := sub32 addr sizeofMemBlock
  if magicOf mp.mem mb ≠ mbMagic ∨ mp.mpMagic ≠ mbMagic ∨ isNegative (mbSize mp.mem mb) = false then
    .error .corruption
  else
    let r := freeInArenas addr mb mp.mem mp.mpArena
    .ok { mp with mem := r.1, mpArena := r.2 }

/-- The old block is looked up without regard to an alignment header and copied as a whole.
-/
def krealloc (mp : Pool) (ptr size flags : ℕ) : Except Panic (Option ℕ × Pool) :=
  let mb := sub32 ptr sizeofMemBlock
  if magicOf mp.mem mb ≠ mbMagic ∨ mp.mpMagic ≠ mbMagic ∨ isNegative (mbSize mp.mem mb) = false then
    .error .corruption
  else if size = 0 then .ok (none, mp)
  else do
    match ← kmalloc mp size flags with
    | (none, mp) => return (none, mp)
    | (some newPtr, mp) =>
      let mem := copy mp.mem newPtr ptr (abs32 (mbSize mp.mem mb))
      return (some newPtr, ← kfree { mp with mem } ptr)

def kmemalign (mp : Pool) (size alignment flags : ℕ) : Except Panic (Option ℕ × Pool) := do
  let paddedSize := u32 (size + alignment + sizeofAlignedMemBlock)
  match ← kmalloc mp paddedSize flags with
  | (none, mp) => return (none, mp)
  | (some ptr, mp) =>
    if ptr % alignment = 0 then return (some ptr, mp)
    else
      let endPtr := u32 (ptr + paddedSize)
      let alignedPtr := align (u32 (ptr + sizeofAlignedMemBlock)) alignment
      if sub32 endPtr alignedPtr < size then .error .assertion
      else
        let header := sub32 alignedPtr sizeofAlignedMemBlock
        let mem := writeHalf (writeHalf mp.mem header alignedMemBlockMagic) (header + 2)
          (sub32 alignedPtr ptr)
        return (some alignedPtr, { mp with mem })

end GzOS.Kmalloc
