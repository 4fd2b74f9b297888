import Mathlib.Data.List.Basic
import Mathlib.Data.List.Nodup
import Mathlib.Logic.Function.Basic
import Mathlib.Tactic

/-!
# Top-down splay trees in memory

The tree of `sys/tree.h`: nodes are addresses with two links each. The splay takes the tree
apart into two spines that hang on a local header node and attaches them to the last root.
Left and right are a parameter, so that every step is written and proved once.

On links that do not form a tree the fuel may run out. A tree is read as the sequence of its
nodes in order, a spine as its nodes and the trees that hang on them.
-/
namespace GzOS.SplayTree
open List

inductive Side
  | left
  | right
  deriving DecidableEq, Repr

def Side.opp : Side → Side
  | left => right
  | right => left

@[simp]
lemma Side.opp_opp (s : Side) : s.opp.opp = s := by cases s <;> rfl

@[simp]
lemma Side.opp_ne (s : Side) : s.opp ≠ s := by cases s <;> decide

@[simp]
lemma Side.ne_opp (s : Side) : s ≠ s.opp := s.opp_ne.symm

/-- The side of a key that compares this way with a node. -/
def toward : Ordering → Option Side
  | .lt => some .left
  | .gt => some .right
  | .eq => none

def Side.ord : Side → Ordering
  | left => .lt
  | right => .gt

lemma toward_eq_some {o : Ordering} {s : Side} : toward o = some s ↔ o = s.ord := by
  cases o <;> cases s <;> decide

lemma Side.ord_opp_ne (s : Side) : s.opp.ord ≠ s.ord := by cases s <;> decide

variable {α : Type}

/-- The links of every node; `none` is the null pointer. -/
abbrev Links (α : Type) := α → Side → Option α

section
variable [DecidableEq α]

def setLink (mem : Links α) (a : α) (s : Side) (v : Option α) : Links α :=
  fun b t => if b = a ∧ t = s then v else mem b t

/-- The current root, and the ends of the spine of larger nodes (`left`) and of smaller
ones. -/
structure Walk (α : Type) where
  mem : Links α
  root : α
  ends : Side → α

/-- `SPLAY_ROTATE_RIGHT` for the left child, `SPLAY_ROTATE_LEFT` for the right one. -/
def Walk.rotate (w : Walk α) (s : Side) (tmp : α) : Walk α :=
  let mem := setLink w.mem w.root s (w.mem tmp s.opp)
  { w with mem := setLink mem tmp s.opp (some w.root), root := tmp }

/-- `SPLAY_LINKLEFT` and `SPLAY_LINKRIGHT`; `none` if the new root is null. -/
def Walk.link (w : Walk α) (s : Side) : Option (Walk α) :=
  let mem := setLink w.mem (w.ends s) s (some w.root)
  (mem w.root s).map fun root =>
    { mem, root, ends := Function.update w.ends s w.root }

def splayLoop (cut : α → Ordering) : ℕ → Walk α → Option (Walk α)
  | 0, _ => none
  | fuel + 1, w =>
    match toward (cut w.root) with
    | none => some w
    | some s =>
      match w.mem w.root s with
      | none => some w
      | some tmp =>
        if toward (cut tmp) = some s then
          let w := w.rotate s tmp
          if w.mem w.root s = none then some w else (w.link s).bind (splayLoop cut fuel)
        else (w.link s).bind (splayLoop cut fuel)

def assemble (node : α) (w : Walk α) : Links α :=
  let mem := setLink w.mem (w.ends .right) .right (w.mem w.root .left)
  let mem := setLink mem (w.ends .left) .left (mem w.root .right)
  let mem := setLink mem w.root .left (mem node .right)
  setLink mem w.root .right (mem node .left)

/-- `node` is the address of the local header. -/
def splay (node : α) (cut : α → Ordering) (fuel : ℕ) (mem : Links α) (root : α) :
    Option (Links α × α) :=
  let mem := setLink (setLink mem node .right none) node .left none
  (splayLoop cut fuel ⟨mem, root, fun _ => node⟩).map fun w => (assemble node w, w.root)

structure SplayHead (α : Type) where
  mem : Links α
  root : Option α

/-- The second component is the node with the same key, if there is one. -/
def splayInsert (node : α) (cmp : α → α → Ordering) (fuel : ℕ) (t : SplayHead α) (elm : α) :
    Option (SplayHead α × Option α) :=
  match t.root with
  | none => some (⟨setLink (setLink t.mem elm .right none) elm .left none, some elm⟩, none)
  | some root => do
    let (mem, root) ← splay node (cmp elm) fuel t.mem root
    match toward (cmp elm root) with
    | none => return (⟨mem, some root⟩, some root)
    | some s =>
      let mem := setLink mem elm s (mem root s)
      let mem := setLink mem elm s.opp (some root)
      return (⟨setLink mem root s none, some elm⟩, none)

def leftmost (mem : Links α) : ℕ → α → Option α
  | 0, _ => none
  | fuel + 1, a =>
    match mem a .left with
    | none => some a
    | some b => leftmost mem fuel b

/-- `SPLAY_NEXT`; the inner `none` is the null pointer. -/
def splayNext (node : α) (cmp : α → α → Ordering) (fuel : ℕ) (t : SplayHead α) (elm : α) :
    Option (SplayHead α × Option α) := do
  let root ← t.root
  let (mem, root) ← splay node (cmp elm) fuel t.mem root
  match mem elm .right with
  | none => return (⟨mem, some root⟩, none)
  | some a => return (⟨mem, some root⟩, some (← leftmost mem fuel a))

end

/-! ## Trees read in order -/

/-- The nodes below a link, read from side `s` to the other. -/
inductive InOrder (mem : Links α) (s : Side) : Option α → List α → Prop
  | null : InOrder mem s none []
  | node {a : α} {k l : List α} (hk : InOrder mem s (mem a s) k)
      (hl : InOrder mem s (mem a s.opp) l) : InOrder mem s (some a) (k ++ a :: l)

section
variable {mem mem' : Links α} {s : Side} {p : Option α} {a b : α} {k l m : List α}

section
variable [DecidableEq α]

lemma setLink_self (mem : Links α) (a : α) (s : Side) (v : Option α) :
    setLink mem a s v a s = v := by simp [setLink]

lemma setLink_of_ne (h : b ≠ a) (t : Side) (v : Option α) :
    setLink mem a s v b t = mem b t := by simp [setLink, h]

lemma setLink_of_side_ne {t : Side} (h : t ≠ s) (v : Option α) :
    setLink mem a s v b t = mem b t := by simp [setLink, h]

end

lemma InOrder.congr (h : InOrder mem s p l) (he : ∀ b ∈ l, mem' b = mem b) :
    InOrder mem' s p l := by
  induction h with
  | null => exact .null
  | @node a k l hk hl ihk ihl =>
    have ha := he a (by simp)
    refine .node ?_ ?_
    · rw [ha]; exact ihk fun b hb => he b (by simp [hb])
    · rw [ha]; exact ihl fun b hb => he b (by simp [hb])

lemma InOrder.write [DecidableEq α] (h : InOrder mem s p l) (ha : a ∉ l) (t : Side)
    (v : Option α) : InOrder (setLink mem a t v) s p l :=
  h.congr fun _ hb => funext fun u => setLink_of_ne (ne_of_mem_of_not_mem hb ha) u v

lemma InOrder.flip (h : InOrder mem s p l) : InOrder mem s.opp p l.reverse := by
  induction h with
  | null => exact .null
  | node hk hl ihk ihl =>
    have := InOrder.node ihl (by simpa using ihk)
    simpa using this

lemma InOrder.cases_some (h : InOrder mem s (some a) m) :
    ∃ k l, m = k ++ a :: l ∧ InOrder mem s (mem a s) k ∧ InOrder mem s (mem a s.opp) l := by
  cases h with
  | node hk hl => exact ⟨_, _, rfl, hk, hl⟩

lemma InOrder.root_mem (h : InOrder mem s (some a) m) : a ∈ m := by
  obtain ⟨k, l, rfl, -⟩ := h.cases_some
  simp

lemma InOrder.eq_nil (h : InOrder mem s none l) : l = [] := by cases h; rfl

/-- The nodes collected on the way to side `s`, last one first, each with its other tree;
the link of the end is open. -/
inductive Spine (mem : Links α) (node : α) (s : Side) : α → List α → Prop
  | start : Spine mem node s node []
  | grow {e a : α} {k l : List α} (hl : Spine mem node s e l) (ha : mem e s = some a)
      (hk : InOrder mem s (mem a s.opp) k) : Spine mem node s a (a :: (k ++ l))

variable {node e : α}

lemma Spine.end_mem (h : Spine mem node s e l) : e ∈ node :: l := by
  cases h with
  | start => simp
  | grow => simp

lemma Spine.congr (h : Spine mem node s e l) (hn : (node :: l).Nodup)
    (he : ∀ b ∈ node :: l, ∀ t, ¬ (b = e ∧ t = s) → ¬ (b = node ∧ t = s.opp) →
      mem' b t = mem b t) : Spine mem' node s e l := by
  induction h with
  | start => exact .start
  | @grow e a k l hl ha hk ih =>
    have hn' : (node :: l).Nodup := by
      refine hn.sublist (List.Sublist.cons_cons _ ?_)
      exact (sublist_append_right k l).trans (sublist_cons_self _ _)
    have hal : a ∉ node :: l := by
      simp only [nodup_cons, mem_cons, mem_append, not_or] at hn ⊢
      exact ⟨Ne.symm hn.1.1, hn.2.1.2⟩
    have hae : a ≠ node := fun h => hal (by simp [h])
    -- the link into the last node is no longer open
    have hend := hl.end_mem
    refine .grow (ih hn' fun b hb t h1 h2 => he b ?_ t ?_ h2) ?_ ?_
    · simp only [mem_cons, mem_append] at hb ⊢; tauto
    · rintro ⟨rfl, -⟩; exact hal hb
    · rw [he e ?_ s ?_ (by simp), ha]
      · simp only [mem_cons, mem_append] at hend ⊢; tauto
      · rintro ⟨rfl, -⟩; exact hal hend
    · rw [he a (by simp) _ (by simp) (by simp [hae])]
      refine hk.congr fun b hb => funext fun t => he b (by simp [hb]) t ?_ ?_
      · rintro ⟨rfl, -⟩
        simp [hb] at hn
      · rintro ⟨rfl, -⟩
        simp [hb] at hn

lemma Spine.fill (h : Spine mem node s e l) (hk : InOrder mem s (mem e s) k) :
    InOrder mem s (mem node s) (k ++ l) := by
  induction h generalizing k with
  | start => simpa using hk
  | @grow e a k' l hl ha hk' ih =>
    have := ih (by rw [ha]; exact .node hk hk')
    simpa using this

end

end GzOS.SplayTree
