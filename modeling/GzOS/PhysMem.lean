import Mathlib.Algebra.Group.Nat.Defs
import Mathlib.Data.Nat.Basic
import Mathlib.Logic.Function.Basic

/-!
# The buddy allocator of physical pages

One segment: an array of page descriptors and sixteen free queues, queue `i` for the
blocks of `2 ^ i` pages. A failed assertion, a panic, an index outside the queues and an
unlink of a page that is not on the queue are all `none`.
-/
namespace GzOS.PhysMem

def pmNqueues : ℕ := 16
def pageSize : ℕ := 4096

/-- The size of the block it heads, stale if it heads none, and three flags. -/
structure Page where
  size : ℕ := 0
  reserved : Bool := false
  allocated : Bool := false
  managed : Bool := false

structure Seg where
  start : ℕ
  stop : ℕ
  npages : ℕ
  pages : ℕ → Page
  freeq : ℕ → List ℕ

/-- Undefined at zero in C; any value of at least `pmNqueues` gives the same sizes. -/
def ctz (x : ℕ) : ℕ := ((List.range 32).find? fun b => x.testBit b).getD 32

def ffs (x : ℕ) : ℕ := if x = 0 then 0 else ctz x + 1

def log2 (x : ℕ) : ℕ := ctz x

def powerof2 (x : ℕ) : Prop := x &&& (x - 1) = 0

instance : DecidablePred powerof2 := fun x => inferInstanceAs (Decidable (x &&& (x - 1) = 0))

namespace Seg

def size (seg : Seg) (pg : ℕ) : ℕ := (seg.pages pg).size

def pgStart (seg : Seg) (pg : ℕ) : ℕ := seg.start + pageSize * pg

def pgEnd (seg : Seg) (pg : ℕ) : ℕ := seg.pgStart pg + seg.size pg * pageSize

def setSize (seg : Seg) (pg size : ℕ) : Seg :=
  { seg with pages := Function.update seg.pages pg { seg.pages pg with size := size } }

def setManaged (seg : Seg) (pg : ℕ) (managed : Bool) : Seg :=
  { seg with pages := Function.update seg.pages pg { seg.pages pg with managed := managed } }

def mapBlock (seg : Seg) (pg n : ℕ) (f : Page → Page) : Seg :=
  { seg with pages := fun q => if pg ≤ q ∧ q < pg + n then f (seg.pages q) else seg.pages q }

def queueOf (size : ℕ) : Option ℕ := if log2 size < pmNqueues then some (log2 size) else none

def insertHead (seg : Seg) (i pg : ℕ) : Seg :=
  { seg with freeq := Function.update seg.freeq i (pg :: seg.freeq i) }

def unlink (seg : Seg) (i pg : ℕ) : Seg :=
  { seg with freeq := Function.update seg.freeq i ((seg.freeq i).erase pg) }

def remove (seg : Seg) (i pg : ℕ) : Option Seg :=
  if pg ∈ seg.freeq i then some (seg.unlink i pg) else none

end Seg

open Seg

def addBlocks (i : ℕ) : ℕ → Seg → ℕ → Seg × ℕ
  | 0, seg, currPage => (seg, currPage)
  | count + 1, seg, currPage =>
    addBlocks i count ((seg.insertHead i currPage).setManaged currPage true) (currPage + 2 ^ i)

def initQueues : ℕ → Seg → ℕ → ℕ → Seg
  | 0, seg, _, _ => seg
  | i + 1, seg, currPage, toAdd =>
    let added := addBlocks i (toAdd / 2 ^ i) seg currPage
    initQueues i added.1 added.2 (toAdd % 2 ^ i)

def blankSeg (start stop : ℕ) : Seg :=
  let npages := (stop - start) / pageSize
  let maxSize := min pmNqueues (ffs npages) - 1
  { start, stop, npages
    pages := fun i => if i < npages then { size := 2 ^ min maxSize (ctz i) } else {}
    freeq := fun _ => [] }

def pmSegInit (start stop : ℕ) : Option Seg := do
  guard (start < stop)
  guard (pageSize ∣ start)
  guard (pageSize ∣ stop)
  let seg := blankSeg start stop
  some (initQueues pmNqueues seg 0 seg.npages)

def pmMergeBuddies (seg : Seg) (pg1 pg2 : ℕ) : Option (ℕ × Seg) := do
  guard (seg.size pg1 = seg.size pg2)
  let lower := min pg1 pg2
  let upper := max pg1 pg2
  guard (lower + seg.size lower = upper)
  some (lower, seg.setSize lower (seg.size lower * 2))

/-- The inner `none` is the null pointer. -/
def pmFindBuddy (seg : Seg) (pg : ℕ) : Option (Option ℕ) := do
  guard (powerof2 (seg.size pg))
  let index : ℤ :=
    if pg % (2 * seg.size pg) = 0 then (pg : ℤ) + seg.size pg else (pg : ℤ) - seg.size pg
  if index < 0 ∨ index ≥ seg.npages then
    return none
  let buddy := index.toNat
  if seg.size buddy ≠ seg.size pg then
    return none
  if (seg.pages buddy).managed = false then
    return none
  return some buddy

def pmSplitPage (seg : Seg) (page : ℕ) : Option Seg := do
  guard (seg.size page > 1)
  let i ← queueOf (seg.size page)
  guard (seg.freeq i ≠ [])
  let size := seg.size page / 2
  let buddy := page + size
  guard ((seg.pages buddy).allocated = false)
  let removed ← seg.remove i page
  let j ← queueOf size
  let resized := (removed.setSize page size).setSize buddy size
  some (((resized.insertHead j page).insertHead j buddy).setManaged buddy true)

def Contained (seg : Seg) (start stop pg : ℕ) : Prop := seg.pgStart pg ≥ start ∧ seg.pgEnd pg ≤ stop

def Intersects (seg : Seg) (start stop pg : ℕ) : Prop :=
  (seg.pgStart pg < start ∧ seg.pgEnd pg > start) ∨ (seg.pgStart pg < stop ∧ seg.pgEnd pg > stop)

instance (seg : Seg) (start stop pg : ℕ) : Decidable (Contained seg start stop pg) :=
  inferInstanceAs (Decidable (_ ∧ _))

instance (seg : Seg) (start stop pg : ℕ) : Decidable (Intersects seg start stop pg) :=
  inferInstanceAs (Decidable (_ ∨ _))

def reserveBlock (seg : Seg) (i pg : ℕ) : Option Seg :=
  (seg.remove i pg).map fun removed =>
    removed.mapBlock pg (removed.size pg) fun page =>
      { page with reserved := true, allocated := false, managed := false }

def touched (seg : Seg) (start stop i : ℕ) : Option ℕ :=
  (seg.freeq i).find? fun pg =>
    decide (Contained seg start stop pg ∨ Intersects seg start stop pg)

/-- The first block that the range touches is reserved or split, and the search starts over.
-/
def reserveQueue (start stop i : ℕ) : ℕ → Seg → Option Seg
  | 0, seg => if touched seg start stop i = none then some seg else none
  | fuel + 1, seg =>
    match touched seg start stop i with
    | none => some seg
    | some pg =>
      (if Contained seg start stop pg then reserveBlock seg i pg else pmSplitPage seg pg).bind
        (reserveQueue start stop i fuel)

def reserveQueues (start stop : ℕ) : ℕ → Seg → Option Seg
  | 0, seg => some seg
  | i + 1, seg =>
    (reserveQueue start stop i (seg.freeq i).length seg).bind (reserveQueues start stop i)

def pmSegReserve (seg : Seg) (start stop : ℕ) : Option Seg := do
  guard (start < stop)
  guard (pageSize ∣ start)
  guard (pageSize ∣ stop)
  guard (seg.start ≤ start ∧ stop ≤ seg.stop)
  reserveQueues start stop pmNqueues seg

def allocSplit (j : ℕ) : ℕ → Seg → Option (ℕ × Seg)
  | 0, seg => do
    let page ← (seg.freeq j).head?
    let removed ← seg.remove j page
    let taken := removed.setManaged page false
    some (page, taken.mapBlock page (taken.size page) fun pg => { pg with allocated := true })
  | d + 1, seg => do
    let page ← (seg.freeq (j + (d + 1))).head?
    (pmSplitPage seg page).bind (allocSplit j d)

/-- The inner `none` is the null pointer. -/
def pmAllocFromSeg (seg : Seg) (npages : ℕ) : Option (Option ℕ × Seg) :=
  let j := log2 npages
  match (List.range' j (pmNqueues - j)).find? fun i => decide (seg.freeq i ≠ []) with
  | none => some (none, seg)
  | some i => (allocSplit j (i - j) seg).map fun r => (some r.1, r.2)

def pmAlloc (seg : Seg) (npages : ℕ) : Option (Option ℕ × Seg) := do
  guard (npages > 0 ∧ powerof2 npages)
  pmAllocFromSeg seg npages

/-- Each round doubles the block, so `npages` rounds are enough. -/
def freeLoop : ℕ → Seg → ℕ → Option Seg
  | 0, _, _ => none
  | fuel + 1, seg, page => do
    match ← pmFindBuddy seg page with
    | none =>
      let i ← queueOf (seg.size page)
      let queued := (seg.insertHead i page).setManaged page true
      some (queued.mapBlock page (queued.size page) fun pg => { pg with allocated := false })
    | some buddy =>
      let i ← queueOf (seg.size buddy)
      let removed ← seg.remove i buddy
      let merged ← pmMergeBuddies (removed.setManaged buddy false) page buddy
      freeLoop fuel merged.2 merged.1

def pmFreeFromSeg (seg : Seg) (page : ℕ) : Option Seg := do
  guard ((seg.pages page).reserved = false)
  guard ((seg.pages page).allocated = true)
  freeLoop seg.npages seg page

def pmFree (seg : Seg) (page : ℕ) : Option Seg := do
  guard (seg.pgStart page ≥ seg.start ∧ seg.pgEnd page ≤ seg.stop)
  pmFreeFromSeg seg page

def pmSplitAllocPage (seg : Seg) (pg : ℕ) : Option (ℕ × Seg) := do
  guard (seg.size pg > 1)
  guard ((seg.pages pg).allocated = true)
  let size := seg.size pg / 2
  let buddy := pg + size
  some (buddy, (seg.setSize pg size).setSize buddy size)

def pmHash (seg : Seg) : BitVec 32 :=
  (List.range pmNqueues).foldl (fun hash i =>
    if seg.freeq i ≠ [] then
      (seg.freeq i).foldl (fun hash pg => hash * 33 + BitVec.ofNat 32 (seg.pgStart pg)) hash
    else hash) 5381

end GzOS.PhysMem
