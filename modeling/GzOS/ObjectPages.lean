import GzOS.MapOrder
import GzOS.Runs
import Mathlib.Data.List.TakeWhile

/-!
# The pages of an object

The red-black tree of an object is given by its pages from left to right. A page that
comes back from `pm_alloc` for another offset counts as another page.
-/
namespace GzOS.VmObject
open List Runs Vm Option

structure VmPage where
  vmOffset : ℕ
  size : ℕ

structure Object where
  list : List ℕ
  tree : List ℕ
  npages : ℕ

def vmPageCmp (a b : ℕ) : Ordering := compareStarts a b

inductive Event
  | add (page : ℕ)
  | find (offset : ℕ)
  | remove (page : ℕ)

section
variable (pages : ℕ → VmPage)

def rbFind (tree : List ℕ) (offset : ℕ) : Option ℕ :=
  tree.find? fun p => vmPageCmp offset (pages p).vmOffset = .eq

/-- Nothing if the place of the page is taken. -/
def rbInsert (tree : List ℕ) (page : ℕ) : Option (List ℕ) :=
  let right (p : ℕ) : Bool := vmPageCmp (pages page).vmOffset (pages p).vmOffset = .gt
  if (rbFind pages tree (pages page).vmOffset).isSome then none
  else some (tree.takeWhile right ++ page :: tree.dropWhile right)

def vmObjectFindPage (obj : Object) (offset : ℕ) : Option ℕ := rbFind pages obj.tree offset

/-- Nothing for a failed assertion. -/
def vmObjectAddPage (obj : Object) (page : ℕ) : Option (Object × ℕ) :=
  if isAligned (pages page).vmOffset ∧ (pages page).size = 1 then
    some ((rbInsert pages obj.tree page).elim (obj, 0) fun tree =>
      let list := (nextOf tree page).elim (obj.list ++ [page]) (insertBefore obj.list · page)
      (⟨list, tree, obj.npages + 1⟩, 1))
  else none

/-- Of a page of the object, which then goes to `pm_free`. -/
def vmObjectRemovePage (obj : Object) (page : ℕ) : Option Object :=
  if page ∈ obj.list then some ⟨obj.list.erase page, obj.tree.erase page, obj.npages - 1⟩
  else none

def Event.offset : Event → ℕ
  | .add page => (pages page).vmOffset
  | .find offset => offset
  | .remove page => (pages page).vmOffset

def step (obj : Object) : Event → Option Object
  | .add page => (vmObjectAddPage pages obj page).map Prod.fst
  | .find _ => some obj
  | .remove page => vmObjectRemovePage obj page

structure Paged (obj : Object) : Prop where
  sorted : obj.list.Pairwise fun p q => (pages p).vmOffset < (pages q).vmOffset
  tree : obj.tree = obj.list
  npages : obj.npages = obj.list.length

end

variable {pages : ℕ → VmPage} {obj : Object} {page offset : ℕ}

lemma Paged.find_iff (h : Paged pages obj) (ho : offset < 2 ^ 31) :
    vmObjectFindPage pages obj offset = some page ↔
      page ∈ obj.list ∧ (pages page).vmOffset = offset := by
  have hnodup : (obj.list.map fun p => (pages p).vmOffset).Nodup :=
    pairwise_map.2 (h.sorted.imp ne_of_lt)
  have hcmp : ∀ p, vmPageCmp offset (pages p).vmOffset = .eq ↔ (pages p).vmOffset = offset := by
    intro p
    rw [vmPageCmp, compareStarts_eq ho, Nat.compare_eq_eq, eq_comm]
  simp only [vmObjectFindPage, rbFind, h.tree, hcmp]
  constructor
  · intro hfind
    exact ⟨mem_of_find?_eq_some hfind, by simpa using find?_some hfind⟩
  · rintro ⟨hmem, rfl⟩
    obtain ⟨q, hq⟩ := isSome_iff_exists.1
      (find?_isSome (p := fun q => decide ((pages q).vmOffset = _)).2
        ⟨page, hmem, decide_eq_true rfl⟩)
    rw [hq, inj_on_of_nodup_map hnodup (mem_of_find?_eq_some hq) hmem
      (by simpa using find?_some hq)]

lemma around_bound (f : ℕ → ℕ) {c : ℕ} {list : List ℕ} (h : list.Pairwise (f · < f ·))
    (hc : ∀ p ∈ list, f p ≠ c) : (∀ p ∈ list.takeWhile (f · < c), f p < c) ∧
      ∀ p ∈ list.dropWhile (f · < c), c < f p := by
  refine ⟨fun p hp => by simpa using mem_takeWhile_imp hp, ?_⟩
  induction list with
  | nil => simp
  | cons a list ih =>
    obtain ⟨ha, h⟩ := pairwise_cons.1 h
    obtain ⟨hca, hc⟩ := forall_mem_cons.1 hc
    by_cases hlt : f a < c
    · simpa [hlt] using ih h hc
    · have hgt : c < f a := by omega
      simpa [hlt, hgt] using fun p hp => hgt.trans (ha p hp)

/-- A page with a new offset takes its place in the order. -/
lemma Paged.add (h : Paged pages obj) (hp : (pages page).vmOffset < 2 ^ 31) {r : Object × ℕ}
    (hs : vmObjectAddPage pages obj page = some r) : Paged pages r.1 := by
  obtain ⟨-, hs⟩ := ite_none_right_eq_some.1 hs
  obtain rfl := some.inj hs
  cases hins : rbInsert pages obj.tree page with
  | none => exact h
  | some tree =>
    obtain ⟨hfree, htree⟩ := ite_none_left_eq_some.1 hins
    have hcmp : ∀ p, vmPageCmp (pages page).vmOffset (pages p).vmOffset = .gt ↔
        (pages p).vmOffset < (pages page).vmOffset := by
      intro p
      rw [vmPageCmp, compareStarts_eq hp, Nat.compare_eq_gt]
    simp only [hcmp, h.tree] at htree
    have hnew : ∀ p ∈ obj.list, (pages p).vmOffset ≠ (pages page).vmOffset := by
      intro p hmem heq
      rw [← vmObjectFindPage, (h.find_iff hp).2 ⟨hmem, heq⟩] at hfree
      exact hfree rfl
    obtain ⟨hlow, hhigh⟩ := around_bound (fun p => (pages p).vmOffset) h.sorted hnew
    have hkl := takeWhile_append_dropWhile
      (p := fun p => (pages p).vmOffset < (pages page).vmOffset) (l := obj.list)
    revert hkl hlow hhigh htree
    generalize takeWhile _ _ = k, dropWhile _ _ = l
    intro htree hlow hhigh hkl
    obtain rfl := some.inj htree
    have hlist : (nextOf (k ++ page :: l) page).elim (obj.list ++ [page])
        (insertBefore obj.list · page) = k ++ page :: l := by
      rw [nextOf_append fun hmem => lt_irrefl _ (hlow page hmem), ← hkl]
      cases l with
      | nil => simp
      | cons next l =>
        exact insertBefore_append
          (fun hmem => (hlow next hmem).asymm (hhigh next mem_cons_self)) page
    simp only [elim_some, hlist]
    refine ⟨pairwise_insert (hkl ▸ h.sorted) hlow hhigh, rfl, ?_⟩
    rw [h.npages, ← hkl]
    simp [add_assoc]

lemma Paged.step {e : Event} {t : Object} (h : Paged pages obj) (he : e.offset pages < 2 ^ 31)
    (hs : step pages obj e = some t) : Paged pages t := by
  cases e with
  | add page =>
    obtain ⟨r, hadd, rfl⟩ := map_eq_some_iff.1 hs
    exact h.add he hadd
  | find offset => exact some.inj hs ▸ h
  | remove page =>
    obtain ⟨hmem, ht⟩ := ite_none_right_eq_some.1 hs
    obtain rfl := some.inj ht
    refine ⟨h.sorted.sublist erase_sublist, congrArg (·.erase page) h.tree, ?_⟩
    rw [length_erase_of_mem hmem, h.npages]

/-- With what the calls return. -/
structure Exact (pages : ℕ → VmPage) (obj : Object) : Prop extends Paged pages obj where
  find : ∀ offset, offset < 2 ^ 31 → ∀ page, vmObjectFindPage pages obj offset = some page ↔
    page ∈ obj.list ∧ (pages page).vmOffset = offset
  present : ∀ page, (pages page).vmOffset < 2 ^ 31 → isAligned (pages page).vmOffset →
    (pages page).size = 1 → (∃ p ∈ obj.list, (pages p).vmOffset = (pages page).vmOffset) →
      vmObjectAddPage pages obj page = some (obj, 0)

/-- With offsets below `2 ^ 31` an object finds exactly the pages it has, in every run. -/
theorem object_pages (pages : ℕ → VmPage) (events : List Event)
    (h : ∀ e ∈ events, e.offset pages < 2 ^ 31) :
    Always (step pages) (Exact pages) ⟨[], [], 0⟩ events := by
  have hoff : Meets (step pages) (fun _ e => e.offset pages < 2 ^ 31) ⟨[], [], 0⟩ events :=
    fun pre e hp _ _ => h e (hp.mem (mem_append_right pre mem_cons_self))
  have hrun := always_of_meets (fun _ _ _ h he hs => Paged.step h he hs)
    ⟨Pairwise.nil, rfl, rfl⟩ hoff
  refine hrun.mono fun obj h => ⟨h, fun _ ho _ => h.find_iff ho, ?_⟩
  rintro page hp haligned hsize ⟨p, hmem, hsame⟩
  have hfind := (h.find_iff hp).2 ⟨hmem, hsame⟩
  rw [vmObjectAddPage, if_pos ⟨haligned, hsize⟩, rbInsert, ← vmObjectFindPage, hfind]
  rfl

/-- The second of two pages with neighbouring offsets goes in front of the first. -/
theorem object_pages_sample :
    Always (step fun p => ⟨4096 * (3 - p), 1⟩) (Exact fun p => ⟨4096 * (3 - p), 1⟩) ⟨[], [], 0⟩
      [.add 1, .add 2, .find 4096, .remove 1] :=
  object_pages _ _ (by decide)

end GzOS.VmObject
