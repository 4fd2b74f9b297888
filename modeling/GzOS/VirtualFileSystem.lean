import GzOS.Paths

/-!
# Looking a path up in the file tree

On the last segment `VirtualFileSystem::lookup` first compares the segment with the name
of the node it stands on, and a segment before the last that names no child directory
leaves it where it is. The module says exactly on which trees and paths the walk agrees
with plain path resolution. A lookup reads three things of a node, its `View`.
-/
namespace GzOS.Vfs
open Paths List Option

inductive NodeType
  | file
  | directory
  deriving DecidableEq, Repr

/-- What a lookup reads of a node. -/
structure View (ν : Type*) where
  type : ν → NodeType
  segment : ν → Segment
  children : ν → List ν

namespace View

variable {ν : Type*} (view : View ν)

/-- The loop over the children: return one (`inl`), or go on from a node (`inr`). -/
def scanChildren (isLast : Bool) (segment : Segment) (node : ν) : List ν → ν ⊕ ν
  | [] => .inr node
  | currentNode :: rest =>
    if isLast ∧ view.segment currentNode = segment then .inl currentNode
    else if view.segment currentNode = segment ∧ view.type currentNode = .directory then
      .inr currentNode
    else scanChildren isLast segment node rest

def lookupLoop (isFirst : Bool) (node : ν) : List Segment → Option ν
  | [] => none
  | segment :: rest =>
    let isLast := rest.isEmpty
    if isFirst ∧ segment = [] then lookupLoop false node rest
    else if isLast ∧ segment = view.segment node then some node
    else if view.type node ≠ .directory then none
    else
      match view.scanChildren isLast segment node (view.children node) with
      | .inl child => some child
      | .inr node' => lookupLoop false node' rest

def lookupFrom (rootNode : ν) (path : List Char) : Option ν :=
  let sanitized := sanitize (trim path)
  if sanitized = [] then some rootNode else view.lookupLoop true rootNode (split sanitized)

/-- `lookup` of a process with the given working directory. -/
def lookup (rootNode currentWorkingNode : ν) (path : List Char) : Option ν :=
  view.lookupFrom (if isAbsolute path then rootNode else currentWorkingNode) path

/-! Plain path resolution. -/

def child (node : ν) (segment : Segment) : Option ν :=
  (view.children node).find? fun c => decide (view.segment c = segment)

def resolve (node : ν) : List Segment → Option ν
  | [] => some node
  | segment :: rest =>
    if view.type node = .directory then
      (view.child node segment).bind fun c => resolve c rest
    else none

/-! The loop, one segment at a time. -/

def advance (node : ν) (segment : Segment) : ν :=
  ((view.children node).find? fun c =>
    decide (view.segment c = segment ∧ view.type c = .directory)).getD node

def walk (node : ν) : List Segment → Option ν
  | [] => some node
  | segment :: rest =>
    if view.type node = .directory then walk (view.advance node segment) rest else none

def arrive (node : ν) (last : Segment) : Option ν :=
  if last = view.segment node then some node
  else if view.type node = .directory then view.child node last
  else none

lemma scanChildren_inner (segment : Segment) (node : ν) (nodes : List ν) :
    view.scanChildren false segment node nodes = .inr ((nodes.find? fun c =>
        decide (view.segment c = segment ∧ view.type c = .directory)).getD node) := by
  induction nodes with
  | nil => rfl
  | cons c rest ih =>
    by_cases hc : view.segment c = segment ∧ view.type c = .directory
    · simp [scanChildren, hc]
    · simp [scanChildren, hc, ih]

lemma scanChildren_last (segment : Segment) (node : ν) (nodes : List ν) :
    view.scanChildren true segment node nodes =
      ((nodes.find? fun c => decide (view.segment c = segment)).elim (.inr node) .inl) := by
  induction nodes with
  | nil => rfl
  | cons c rest ih =>
    by_cases hc : view.segment c = segment
    · simp [scanChildren, hc]
    · simp [scanChildren, hc, ih]

lemma lookupLoop_singleton (node : ν) (last : Segment) :
    view.lookupLoop false node [last] = view.arrive node last := by
  simp only [lookupLoop, Bool.false_eq_true, false_and, if_false,  isEmpty_nil, true_and, arrive,
    scanChildren_last, ite_not]
  split_ifs
  · rfl
  · unfold child
    cases find? (fun c => decide (view.segment c = last)) (view.children node) <;> rfl
  · rfl

lemma lookupLoop_cons (node : ν) (segment : Segment) {rest : List Segment} (h : rest ≠ []) :
    view.lookupLoop false node (segment :: rest) = if view.type node = .directory then
      view.lookupLoop false (view.advance node segment) rest else none := by
  have hne : rest.isEmpty = false := by simpa using h
  simp only [lookupLoop.eq_2, Bool.false_eq_true, false_and, if_false, hne, scanChildren_inner,
    advance, ite_not]

lemma lookupLoop_concat (node : ν) (init : List Segment) (last : Segment) :
    view.lookupLoop false node (init ++ [last]) =
      (view.walk node init).bind fun d => view.arrive d last := by
  induction init generalizing node with
  | nil => exact view.lookupLoop_singleton node last
  | cons segment init ih =>
    rw [cons_append, lookupLoop_cons _ _ _ (by simp), walk, ih]
    split_ifs <;> rfl

lemma walk_append (node : ν) (init rest : List Segment) :
    view.walk node (init ++ rest) = (view.walk node init).bind fun d => view.walk d rest := by
  induction init generalizing node with
  | nil => rfl
  | cons segment init ih =>
    simp only [cons_append, walk]
    split_ifs
    · exact ih _
    · rfl

lemma segment_of_arrive {node found : ν} {last : Segment}
    (h : view.arrive node last = some found) : view.segment found = last := by
  unfold arrive at h
  split_ifs at h with hself
  · rw [← some.inj h, hself]
  · simpa using find?_some h

/-! ### Agreement with path resolution -/

inductive Below (root : ν) : ν → Prop
  | refl : Below root root
  | child {node c : ν} (h : Below root node) (hc : c ∈ view.children node) : Below root c

/-- Names are not empty and differ from those of siblings. -/
structure WellFormed (root : ν) : Prop where
  nodup : ∀ node, view.Below root node → ((view.children node).map view.segment).Nodup
  named : ∀ node, view.Below root node → ∀ c ∈ view.children node, view.segment c ≠ []

def childDirectory (node : ν) (segment : Segment) : Option ν :=
  (view.child node segment).filter fun c => decide (view.type c = .directory)

/-- Segments that name no child directory are ignored. -/
def descend (node : ν) : List Segment → ν
  | [] => node
  | segment :: rest => descend ((view.childDirectory node segment).getD node) rest

def AllDirectories (node : ν) : List Segment → Prop
  | [] => True
  | segment :: rest => ∃ c, view.childDirectory node segment = some c ∧ AllDirectories c rest

def Agrees (root : ν) (path : List Char) : Prop :=
  (components path = [] → (∀ c ∈ path, c = separator) ∨ view.segment root = []) ∧
  ∀ init last, components path = init ++ [last] → last ≠ view.segment (view.descend root init) ∧
      (view.AllDirectories root init ∨ view.child (view.descend root init) last = none)

variable {view} {node root : ν} {segment : Segment}

lemma mem_of_child {c : ν} (h : view.child node segment = some c) :
    c ∈ view.children node ∧ view.segment c = segment :=
  ⟨mem_of_find?_eq_some h, by simpa using find?_some h⟩

lemma mem_of_childDirectory {c : ν} (h : view.childDirectory node segment = some c) :
    view.child node segment = some c ∧ view.type c = .directory := by
  obtain ⟨hc, ht⟩ := filter_eq_some_iff.1 h
  exact ⟨hc, by simpa using ht⟩

lemma next_directory (hb : view.Below root node) (ht : view.type node = .directory)
    (segment : Segment) : view.Below root ((view.childDirectory node segment).getD node) ∧
      view.type ((view.childDirectory node segment).getD node) = .directory := by
  cases hc : view.childDirectory node segment with
  | none => exact ⟨hb, ht⟩
  | some c =>
      obtain ⟨hchild, hdir⟩ := mem_of_childDirectory hc
      exact ⟨hb.child (mem_of_child hchild).1, hdir⟩

/-- The first directory with a name is the first node with it if the names are distinct. -/
lemma advance_eq (hnd : ((view.children node).map view.segment).Nodup) (segment : Segment) :
    view.advance node segment = (view.childDirectory node segment).getD node := by
  unfold advance childDirectory child
  generalize view.children node = nodes at hnd ⊢
  congr 1
  induction nodes with
  | nil => rfl
  | cons c rest ih =>
    obtain ⟨hnot, hnd⟩ := nodup_cons.1 (map_cons ▸ hnd)
    by_cases hc : view.segment c = segment
    · by_cases hd : view.type c = .directory
      · simp [hc, hd, filter_some]
      have hrest : ∀ x ∈ rest, view.segment x = segment → ¬ view.type x = .directory :=
        fun x hx hxs _ => hnot (hc ▸ hxs ▸ mem_map_of_mem hx)
      simpa [hc, hd, filter_some] using hrest
    · simpa [hc] using ih hnd

lemma walk_eq (hwf : view.WellFormed root) (hb : view.Below root node)
    (ht : view.type node = .directory) (init : List Segment) :
    view.walk node init = some (view.descend node init) ∧
      view.type (view.descend node init) = .directory := by
  induction init generalizing node with
  | nil => exact ⟨rfl, ht⟩
  | cons segment init ih =>
    obtain ⟨hb', ht'⟩ := next_directory hb ht segment
    rw [walk, if_pos ht, advance_eq (hwf.nodup node hb)]
    exact ih hb' ht'

lemma resolve_append (ht : view.type node = .directory) (init : List Segment) (last : Segment) :
    (view.AllDirectories node init →
      view.resolve node (init ++ [last]) = view.child (view.descend node init) last) ∧
      (¬ view.AllDirectories node init → view.resolve node (init ++ [last]) = none) := by
  induction init generalizing node with
  | nil =>
    refine ⟨fun _ => ?_, fun h => absurd trivial h⟩
    simp only [nil_append, resolve, if_pos ht, descend]
    cases view.child node last <;> rfl
  | cons segment init ih =>
    simp only [cons_append, resolve, if_pos ht, descend]
    constructor
    · rintro ⟨c, hc, hall⟩
      obtain ⟨hchild, hdir⟩ := mem_of_childDirectory hc
      simp only [hchild, hc]
      exact (ih hdir).1 hall
    · intro hnot
      cases hchild : view.child node segment with
      | none => rfl
      | some c =>
        by_cases hdir : view.type c = .directory
        · refine (ih hdir).2 fun hall => hnot ⟨c, ?_, hall⟩
          simp [childDirectory, hchild, hdir]
        · cases init with
          | nil => simp [resolve, hdir]
          | cons s rest => simp [resolve, hdir]

lemma arrive_eq_child_iff (ht : view.type node = .directory) (hself : node ∉ view.children node)
    (last : Segment) :
    view.arrive node last = view.child node last ↔ last ≠ view.segment node := by
  unfold arrive
  split_ifs with h
  · simp only [h, ne_eq, not_true_eq_false, iff_false]
    exact fun he => hself (mem_of_child he.symm).1
  · simp [h]

lemma arrive_eq_none_iff (ht : view.type node = .directory) (last : Segment) :
    view.arrive node last = none ↔ last ≠ view.segment node ∧ view.child node last = none := by
  unfold arrive
  split_ifs with h
  · simp [h]
  · simp [h]

lemma lookupLoop_eq_resolve_iff (hwf : view.WellFormed root) (ht : view.type root = .directory)
    (hself : ∀ node, node ∉ view.children node) (init : List Segment) (last : Segment) :
    view.lookupLoop false root (init ++ [last]) = view.resolve root (init ++ [last]) ↔
      last ≠ view.segment (view.descend root init) ∧
        (view.AllDirectories root init ∨ view.child (view.descend root init) last = none) := by
  obtain ⟨hwalk, hdir⟩ := walk_eq hwf .refl ht init
  obtain ⟨hall, hnot⟩ := resolve_append ht init last
  rw [lookupLoop_concat, hwalk, bind_some]
  by_cases h : view.AllDirectories root init
  · rw [hall h, arrive_eq_child_iff hdir (hself _)]
    simp [h]
  · rw [hnot h, arrive_eq_none_iff hdir]
    simp [h]

/-- It splits into two empty pieces, and no child is without a name. -/
lemma lookupLoop_root (hwf : view.WellFormed root) :
    view.lookupLoop true root [[], []] = some root ↔ view.segment root = [] := by
  have hloop : view.lookupLoop true root [[], []] = view.arrive root [] :=
    view.lookupLoop_singleton root []
  have hnone : view.child root [] = none := find?_eq_none.2 fun c hc hcs =>
    hwf.named root .refl c hc (by simpa using hcs)
  rw [hloop, arrive, hnone, ite_self]
  by_cases hname : view.segment root = []
  · simp [hname]
  · simp [hname, Ne.symm hname]

end View

/-- `address` is the identity of the shared pointer. A mountable node shows what is mounted
on it instead of its inner node. -/
inductive Node
  | basic (address : ℕ) (type : NodeType) (segment : Segment) (nodes : List Node)
  | mountable (address : ℕ) (innerNode : Node)
  | mounted (address : ℕ) (innerNode mountedNode : Node)

namespace Node

def getType : Node → NodeType
  | basic _ type _ _ => type
  | mountable _ innerNode => innerNode.getType
  | mounted _ _ mountedNode => mountedNode.getType

def getPathSegment : Node → Segment
  | basic _ _ segment _ => segment
  | mountable _ innerNode => innerNode.getPathSegment
  | mounted _ _ mountedNode => mountedNode.getPathSegment

def childNodes : Node → List Node
  | basic _ _ _ nodes => nodes
  | mountable _ innerNode => innerNode.childNodes
  | mounted _ _ mountedNode => mountedNode.childNodes

def view : View Node := ⟨getType, getPathSegment, childNodes⟩

end Node

/-- `lookup` of a process with the given working directory, if it has one. -/
def lookup (rootNode : Node) (currentWorkingNode : Option Node) (path : List Char) :
    Option Node :=
  Node.view.lookup rootNode (currentWorkingNode.getD rootNode) path

lemma sizeOf_child : ∀ {node c : Node}, c ∈ node.childNodes → sizeOf c < sizeOf node
  | .basic _ _ _ nodes, c, h => by
    have hlt : sizeOf c < sizeOf nodes := sizeOf_lt_of_mem h
    simp only [Node.basic.sizeOf_spec]
    omega
  | .mountable _ innerNode, c, h => by
    have hlt : sizeOf c < sizeOf innerNode := sizeOf_child h
    simp only [Node.mountable.sizeOf_spec]
    omega
  | .mounted _ _ mountedNode, c, h => by
    have hlt : sizeOf c < sizeOf mountedNode := sizeOf_child h
    simp only [Node.mounted.sizeOf_spec]
    omega

/-- The lookup of an absolute path is path resolution exactly on the trees and
paths described by `Agrees`. -/
theorem lookup_eq_resolve_iff (root : Node) (currentWorkingNode : Option Node) (path : List Char)
    (hdir : root.getType = .directory) (hwf : Node.view.WellFormed root)
    (habs : isAbsolute path = true) :
    lookup root currentWorkingNode path = Node.view.resolve root (components path) ↔
      Node.view.Agrees root path := by
  unfold lookup View.lookup View.lookupFrom
  simp only [habs, if_true]
  by_cases hnil : trim path = []
  · have hslash := (trim_eq_nil_iff path).1 hnil
    have hcomp : components path = [] := by
      rw [← components_trim, hnil]
      rfl
    have hagree : Node.view.Agrees root path :=
      ⟨fun _ => .inl hslash, fun init last he => by simp [hcomp] at he⟩
    simp [sanitize_trim_of_nil hnil, hcomp, View.resolve, hagree]
  · have hnot : ¬ ∀ c ∈ path, c = separator := fun h => hnil ((trim_eq_nil_iff path).2 h)
    rw [sanitize_trim habs hnil, if_neg (by simp),
      split_separator_join fun s hs => (mem_components hs).2]
    cases hc : components path using reverseRecOn with
    | nil =>
      rw [if_pos rfl, View.resolve, View.lookupLoop_root hwf]
      simp [View.Agrees, hc, hnot]
    | append_singleton init last _ =>
      rw [if_neg (by simp)]
      have hfirst : Node.view.lookupLoop true root ([] :: (init ++ [last])) =
          Node.view.lookupLoop false root (init ++ [last]) := by
        simp [View.lookupLoop]
      rw [hfirst, View.lookupLoop_eq_resolve_iff hwf hdir fun node h =>
        absurd (sizeOf_child h) (lt_irrefl _)]
      constructor
      · intro h
        refine ⟨fun he => by simp [hc] at he, fun init' last' he => ?_⟩
        obtain ⟨rfl, hl⟩ := append_inj' (hc.symm.trans he) rfl
        obtain rfl : last = last' := by simpa using hl
        exact h
      · intro h
        exact h.2 init last hc

/-- A root with one directory `a` that holds one file `f`. -/
def sampleFile : Node := .basic 2 .file ['f'] []
def sampleDirectory : Node := .mountable 1 (.basic 1 .directory ['a'] [sampleFile])
def sampleRoot : Node := .basic 0 .directory ['/'] [sampleDirectory]

lemma sampleRoot_below {node : Node} (h : Node.view.Below sampleRoot node) :
    node = sampleRoot ∨ node = sampleDirectory ∨ node = sampleFile := by
  induction h with
  | refl => exact .inl rfl
  | child _ hc ih =>
    rcases ih with rfl | rfl | rfl
    · exact .inr (.inl (mem_singleton.1 hc))
    · exact .inr (.inr (mem_singleton.1 hc))
    · cases hc

lemma sampleRoot_wellFormed : Node.view.WellFormed sampleRoot := by
  constructor
  · intro node hb
    rcases sampleRoot_below hb with rfl | rfl | rfl <;> decide
  intro node hb c hc
  rcases sampleRoot_below hb with rfl | rfl | rfl
  · obtain rfl := mem_singleton.1 hc
    decide
  · obtain rfl := mem_singleton.1 hc
    decide
  · cases hc

theorem lookup_eq_resolve_file :
    lookup sampleRoot none ['/', 'a', '/', 'f'] =
      Node.view.resolve sampleRoot (components ['/', 'a', '/', 'f']) := by
  refine (lookup_eq_resolve_iff sampleRoot none _ rfl sampleRoot_wellFormed rfl).2 ?_
  have hcomp : components ['/', 'a', '/', 'f'] = [['a']] ++ [['f']] := by decide
  refine ⟨fun h => by simp [hcomp] at h, fun init last h => ?_⟩
  obtain ⟨rfl, hl⟩ := append_inj' (hcomp.symm.trans h) rfl
  obtain rfl : ['f'] = last := by simpa using hl
  exact ⟨by decide, .inl ⟨sampleDirectory, rfl, trivial⟩⟩

/-- `/a/..` is not found, `/a/a` finds the directory `a`, and so does `/x/a`. -/
theorem lookup_ne_resolve :
    sampleRoot.getType = .directory ∧ Node.view.WellFormed sampleRoot ∧
    (lookup sampleRoot none ['/', 'a', '/', '.', '.'] = none ∧
      Node.view.resolve sampleRoot (components ['/', 'a', '/', '.', '.']) = some sampleRoot) ∧
    (lookup sampleRoot none ['/', 'a', '/', 'a'] = some sampleDirectory ∧
      Node.view.resolve sampleRoot (components ['/', 'a', '/', 'a']) = none) ∧
    (lookup sampleRoot none ['/', 'x', '/', 'a'] = some sampleDirectory ∧
      Node.view.resolve sampleRoot (components ['/', 'x', '/', 'a']) = none) :=
  ⟨rfl, sampleRoot_wellFormed, ⟨rfl, rfl⟩, ⟨rfl, rfl⟩, ⟨rfl, rfl⟩⟩

end GzOS.Vfs
