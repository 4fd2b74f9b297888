import GzOS.PathForms
import GzOS.Runs
import GzOS.VirtualFileSystem
import Mathlib.Logic.Function.Basic

/-!
# Creating nodes in the temporary file system

`createNode` looks for the node under the sanitized path and takes the name of the new one
from the path as it was given, so a path that ends in `.` or `..` is checked as one node and
created as another. Without such paths the children of every directory keep distinct proper
names. A node of a mounted file system shows the children that its file system lists.
-/
namespace GzOS.Vfs
open Paths Runs List

namespace View

variable {ν : Type*} (view : View ν)

section Texts

variable {relative : Bool} {segments : List Segment}

lemma lookupFrom_eq {node : ν} {path : List Char} (h : Canonical relative segments)
    (hne : segments ≠ []) (hpath : sanitize (trim path) = text relative segments) :
    view.lookupFrom node path = view.lookupLoop false node segments := by
  unfold lookupFrom
  rw [hpath]
  simp only [if_neg (text_ne_nil h hne), split_text h hne]
  split_ifs
  · obtain ⟨s, rest, rfl⟩ := exists_cons_of_ne_nil hne
    have hs := (h.pieces s mem_cons_self).1
    simp [lookupLoop, hs]
  · simp [lookupLoop]

lemma lookup_text (root cwd : ν) (h : Canonical relative segments) (hne : segments ≠ []) :
    view.lookup root cwd (text relative segments) =
      view.lookupLoop false (if relative then cwd else root) segments := by
  unfold lookup
  rw [view.lookupFrom_eq h hne (sanitize_text h hne), isAbsolute_text h hne]
  cases relative <;> rfl

lemma lookup_directory_text (root cwd : ν) (h : Canonical relative segments) (hne : segments ≠ []) :
    view.lookup root cwd (directory (text relative segments)) =
      view.lookupLoop false (if relative then cwd else root) segments := by
  have hdir : directory (text relative segments) = text relative segments ++ [separator] := by
    rw [directory, trim_eq_self (trailingSlash_text h hne)]
  have htrim : trim (text relative segments ++ [separator]) = trim (text relative segments) :=
    rdropWhile_concat_pos _ _ _ (by simp)
  have habs : isAbsolute (text relative segments ++ [separator]) = !relative := by
    rw [← isAbsolute_text h hne]
    obtain ⟨c, cs, hc⟩ := exists_cons_of_ne_nil (text_ne_nil h hne)
    simp [hc, isAbsolute]
  unfold lookup
  rw [hdir, view.lookupFrom_eq h hne (by rw [htrim, sanitize_text h hne]), habs]
  cases relative <;> rfl

end Texts

def start (root cwd : ν) (path : List Char) : ν := if isAbsolute path then root else cwd

lemma start_eq (root cwd : ν) (path : List Char) :
    (if (!isAbsolute path) = true then cwd else root) = start root cwd path := by
  unfold start
  cases isAbsolute path <;> rfl

/-- The three lookups go through the same segments, that of the path one level up to the one
before the last. -/
lemma lookups_of_filename (root cwd : ν) {path : List Char} (h : ProperName (filename path)) :
    ∃ init, view.lookup root cwd path =
        view.lookupLoop false (start root cwd path) (init ++ [filename path]) ∧
      view.lookup root cwd (sanitize (trim path)) =
        view.lookupLoop false (start root cwd path) (init ++ [filename path]) ∧
      view.lookup root cwd (up (sanitize (trim path))) =
        if init = [] then some (start root cwd path)
        else view.lookupLoop false (start root cwd path) init := by
  obtain ⟨init, hcanon, htext⟩ := sanitize_of_filename h
  have hne : init ++ [filename path] ≠ [] := by simp
  refine ⟨init, ?_, ?_, ?_⟩
  · exact view.lookupFrom_eq hcanon hne htext
  · rw [htext, view.lookup_text root cwd hcanon hne, start_eq]
  rw [htext, up_text_prune hcanon (by simp), prune_dotDot _ _ h.2.2]
  split_ifs with hinit
  · unfold lookup start
    cases isAbsolute path <;> rfl
  · rw [view.lookup_directory_text root cwd hcanon.init hinit, start_eq]

end View

/-- A node of a file system that is mounted. Only `Fat32VFSNode` creates nodes. -/
structure FsNode where
  type : NodeType
  segment : Segment
  nodes : List ℕ
  fat32 : Bool

/-- `opened` is the node behind the file if `f_open` opens it. The volumes are read-only, so
there are no new directories. -/
def FsNode.createNode (node : FsNode) (type : NodeType) (opened : Option ℕ) : Option ℕ :=
  if node.fat32 ∧ node.type = .directory ∧ type = .file then opened else none

def FsNode.push (node : FsNode) (child : ℕ) : FsNode := { node with nodes := node.nodes ++ [child] }

/-- With the mountable node around it and the root that is mounted there. -/
structure TmpfsNode where
  type : NodeType
  segment : Segment
  nodes : List ℕ
  mountedNode : Option FsNode

inductive SharedNode
  | tmpfs (id : ℕ)
  | foreign (id : ℕ)
  deriving DecidableEq

/-- The nodes by identity; the root is 0, the next one `next`. Those of the mounted file
systems, but for their roots, are `foreign`. -/
structure FileSystem where
  nodes : ℕ → TmpfsNode
  next : ℕ
  foreign : ℕ → FsNode

namespace FileSystem

def new : FileSystem where
  nodes id := ⟨if id = 0 then .directory else .file, if id = 0 then [separator] else [], [], none⟩
  next := 1
  foreign _ := ⟨.file, [], [], false⟩

variable (fs : FileSystem)

def view : View SharedNode where
  type
    | .tmpfs id => ((fs.nodes id).mountedNode.map FsNode.type).getD (fs.nodes id).type
    | .foreign id => (fs.foreign id).type
  segment
    | .tmpfs id => ((fs.nodes id).mountedNode.map FsNode.segment).getD (fs.nodes id).segment
    | .foreign id => (fs.foreign id).segment
  children
    | .tmpfs id =>
      match (fs.nodes id).mountedNode with
      | some root => root.nodes.map .foreign
      | none => (fs.nodes id).nodes.map .tmpfs
    | .foreign id => (fs.foreign id).nodes.map .foreign

def lookup (cwd : SharedNode) (path : List Char) : Option SharedNode :=
  fs.view.lookup (.tmpfs 0) cwd path

def setMounted (id : ℕ) (mountedNode : Option FsNode) : FileSystem :=
  { fs with nodes := Function.update fs.nodes id { fs.nodes id with mountedNode := mountedNode } }

def setForeign (id : ℕ) (node : FsNode) : FileSystem :=
  { fs with foreign := Function.update fs.foreign id node }

/-- `TmpfsDirectoryNode::createNode`. -/
def push (id : ℕ) (type : NodeType) (path : Segment) : FileSystem where
  nodes := Function.update (Function.update fs.nodes id
    { fs.nodes id with nodes := (fs.nodes id).nodes ++ [fs.next] }) fs.next ⟨type, path, [], none⟩
  next := fs.next + 1
  foreign := fs.foreign

/-- `createNode` of a node, with what it returns. -/
def createChild (type : NodeType) (path : Segment) (opened : Option ℕ) :
    SharedNode → FileSystem × Option SharedNode
  | .tmpfs id =>
    match (fs.nodes id).mountedNode with
    | none =>
      if (fs.nodes id).type = .directory then (fs.push id type path, some (.tmpfs fs.next))
      else (fs, none)
    | some root =>
      match root.createNode type opened with
      | none => (fs, none)
      | some child =>
        ((fs.setMounted id (some (root.push child))).setForeign child ⟨type, path, [], true⟩,
          some (.foreign child))
  | .foreign id =>
    match (fs.foreign id).createNode type opened with
    | none => (fs, none)
    | some child =>
      ((fs.setForeign id ((fs.foreign id).push child)).setForeign child ⟨type, path, [], true⟩,
        some (.foreign child))

def createNode (cwd : SharedNode) (nodePath : List Char) (type : NodeType) (opened : Option ℕ) :
    FileSystem × Option SharedNode :=
  if (fs.lookup cwd (sanitize (trim nodePath))).isSome then (fs, none)
  else if filename nodePath = [] then (fs, none)
  else
    match fs.lookup cwd (up (sanitize (trim nodePath))) with
    | none => (fs, none)
    | some node => fs.createChild type (filename nodePath) opened node

def mkdir (cwd : SharedNode) (path : List Char) : FileSystem × Option SharedNode :=
  fs.createNode cwd path .directory none

def openCreate (cwd : SharedNode) (path : List Char) (opened : Option ℕ) :
    FileSystem × Option SharedNode :=
  if (fs.lookup cwd path).isSome then (fs, none) else fs.createNode cwd path .file opened

/-- Where a mount succeeds, and the new root there. `root` is `none` if the type of the file
system is unknown or its factory fails. The root of the tree is busy, and a node of another
file system does not allow mounting. -/
def mountPoint (cwd : SharedNode) (destination : List Char) (root : Option FsNode) :
    Option (ℕ × FsNode) :=
  match fs.lookup cwd destination, root with
  | some (.tmpfs id), some root =>
    if id = 0 ∨ (fs.nodes id).mountedNode.isSome then none
    else some (id, { root with type := .directory, segment := filename destination })
  | _, _ => none

def mountFilesystem (cwd : SharedNode) (destination : List Char) (root : Option FsNode) :
    FileSystem × Bool :=
  match fs.mountPoint cwd destination root with
  | some (id, root) => (fs.setMounted id (some root), true)
  | none => (fs, false)

/-- A file system lists other nodes, in its root or below. -/
def refresh (node : SharedNode) (listed : FsNode) : FileSystem :=
  match node with
  | .tmpfs id =>
    match (fs.nodes id).mountedNode with
    | some root => fs.setMounted id (some { root with nodes := listed.nodes })
    | none => fs
  | .foreign id => fs.setForeign id listed

end FileSystem

/-- With the working directory of the calling process. -/
inductive FileEvent
  | mkdir (cwd : SharedNode) (path : List Char)
  | openCreate (cwd : SharedNode) (path : List Char) (opened : Option ℕ)
  | mount (cwd : SharedNode) (destination : List Char) (root : Option FsNode)
  | refresh (node : SharedNode) (listed : FsNode)

def fileStep (fs : FileSystem) : FileEvent → Option FileSystem
  | .mkdir cwd path => some (fs.mkdir cwd path).1
  | .openCreate cwd path opened => some (fs.openCreate cwd path opened).1
  | .mount cwd destination root => some (fs.mountFilesystem cwd destination root).1
  | .refresh node listed => some (fs.refresh node listed)

variable {id : ℕ} {name : Segment} {fs' : FileSystem}

namespace FileSystem

def shownName (fs : FileSystem) (id : ℕ) : Segment := fs.view.segment (.tmpfs id)

def childNames (fs : FileSystem) (id : ℕ) : List Segment := (fs.nodes id).nodes.map fs.shownName

/-- Children have distinct names, none empty, a dot or two dots, and none with a separator.
-/
def WellNamed (fs : FileSystem) : Prop :=
  ∀ id, (fs.childNames id).Nodup ∧ ∀ name ∈ fs.childNames id, ProperName name ∧ separator ∉ name

/-- No directory has a child of its own name either. -/
structure Tidy (fs : FileSystem) : Prop where
  older : ∀ id, ∀ child ∈ (fs.nodes id).nodes, child < fs.next
  wellNamed : fs.WellNamed
  ownName : ∀ id, fs.shownName id ∉ fs.childNames id

variable {fs : FileSystem}

lemma tidy_new : new.Tidy := by
  constructor
  · intro id child hc
    exact absurd hc not_mem_nil
  · intro id
    exact ⟨nodup_nil, fun _ hn => absurd hn not_mem_nil⟩
  · intro id
    exact not_mem_nil

lemma segments_children (h : (fs.nodes id).mountedNode = none) :
    fs.view.children (.tmpfs id) = (fs.nodes id).nodes.map .tmpfs ∧
      (fs.view.children (.tmpfs id)).map fs.view.segment = fs.childNames id := by
  have hc : fs.view.children (.tmpfs id) = (fs.nodes id).nodes.map .tmpfs := by
    simp [view, h]
  refine ⟨hc, ?_⟩
  rw [hc, map_map]
  rfl

variable {node cwd : SharedNode}

lemma eq_tmpfs_of_mem_children (h : .tmpfs id ∈ fs.view.children node) :
    ∃ parent, node = .tmpfs parent ∧ (fs.nodes parent).mountedNode = none := by
  cases node with
  | foreign node => simp [view] at h
  | tmpfs parent =>
    refine ⟨parent, rfl, ?_⟩
    cases hm : (fs.nodes parent).mountedNode with
    | none => rfl
    | some node => simp [view, hm] at h

lemma Tidy.advance_of_arrive (h : fs.Tidy) {segment : Segment}
    (hfree : (fs.nodes id).mountedNode = none) (hdir : fs.view.type (.tmpfs id) = .directory)
    (ha : fs.view.arrive node segment = some (.tmpfs id)) :
    fs.view.type node = .directory ∧ fs.view.advance node segment = .tmpfs id := by
  unfold View.arrive at ha
  split_ifs at ha with hself htype
  · obtain rfl : node = .tmpfs id := Option.some.inj ha
    refine ⟨hdir, ?_⟩
    have hnone : (fs.view.children (.tmpfs id)).find? (fun c =>
        decide (fs.view.segment c = segment ∧ fs.view.type c = .directory)) = none := by
      rw [find?_eq_none]
      intro c hc hseg
      have hname : fs.shownName id = fs.view.segment c :=
        hself.symm.trans (of_decide_eq_true hseg).1.symm
      refine h.ownName id ?_
      rw [hname, ← (segments_children hfree).2]
      exact mem_map_of_mem hc
    rw [View.advance, hnone]
    rfl
  · refine ⟨htype, ?_⟩
    have hmem := mem_of_find?_eq_some ha
    have hname : fs.view.segment (.tmpfs id) = segment := by simpa using find?_some ha
    obtain ⟨parent, rfl, hparent⟩ := eq_tmpfs_of_mem_children hmem
    have hnodup : ((fs.view.children (.tmpfs parent)).map fs.view.segment).Nodup := by
      rw [(segments_children hparent).2]
      exact (h.wellNamed parent).1
    cases hf : (fs.view.children (.tmpfs parent)).find? (fun c =>
        decide (fs.view.segment c = segment ∧ fs.view.type c = .directory)) with
    | none =>
      rw [find?_eq_none] at hf
      exact absurd (decide_eq_true ⟨hname, hdir⟩) (hf _ hmem)
    | some c =>
      have hc : fs.view.segment c = segment ∧ fs.view.type c = .directory := by
        simpa using find?_some hf
      rw [View.advance, hf]
      exact inj_on_of_nodup_map hnodup (mem_of_find?_eq_some hf) hmem
        (hc.1.trans hname.symm)

lemma Tidy.absent (h : fs.Tidy) {start : SharedNode} {init : List Segment}
    (hfree : (fs.nodes id).mountedNode = none) (hdir : fs.view.type (.tmpfs id) = .directory)
    (hparent : (if init = [] then some start else fs.view.lookupLoop false start init) =
      some (.tmpfs id)) (hnone : fs.view.lookupLoop false start (init ++ [name]) = none) :
    name ≠ fs.shownName id ∧ name ∉ fs.childNames id := by
  have hwalk : fs.view.walk start init = some (.tmpfs id) := by
    cases hi : init using reverseRecOn with
    | nil => rwa [hi] at hparent
    | append_singleton front last _ =>
      rw [hi, if_neg (by simp), View.lookupLoop_concat, Option.bind_eq_some_iff] at hparent
      obtain ⟨d, hd, ha⟩ := hparent
      obtain ⟨htype, hadv⟩ := h.advance_of_arrive hfree hdir ha
      rw [View.walk_append, hd, Option.bind_some, View.walk, if_pos htype, hadv, View.walk]
  rw [View.lookupLoop_concat, hwalk, Option.bind_some, View.arrive] at hnone
  split_ifs at hnone with hself
  refine ⟨hself, fun hmem => ?_⟩
  rw [← (segments_children hfree).2] at hmem
  obtain ⟨c, hc, hcn⟩ := mem_map.1 hmem
  rw [View.child, find?_eq_none] at hnone
  exact hnone c hc (decide_eq_true hcn)

/-- The last node is new, empty and the last child of its parent; other nodes are kept. -/
structure Created (fs fs' : FileSystem) (id : ℕ) (name : Segment) : Prop where
  next : fs'.next = fs.next + 1
  newName : fs'.shownName fs.next = name
  newNodes : (fs'.nodes fs.next).nodes = []
  shown : ∀ k, k ≠ fs.next → fs'.shownName k = fs.shownName k
  parent : id ≠ fs.next → (fs'.nodes id).nodes = (fs.nodes id).nodes ++ [fs.next]
  others : ∀ k, k ≠ fs.next → k ≠ id → (fs'.nodes k).nodes = (fs.nodes k).nodes

lemma push_created (fs : FileSystem) (id : ℕ) (type : NodeType) (path : Segment) :
    Created fs (fs.push id type path) id path := by
  refine ⟨rfl, ?_, ?_, ?_, ?_, ?_⟩
  · simp [shownName, view, push]
  · simp [push]
  · intro k hk
    by_cases hid : k = id
    · simp [shownName, view, push, hid ▸ hk, hid]
    · simp [shownName, view, push, hk, hid]
  · intro hid
    simp [push, hid]
  · intro k hk hid
    simp [push, hk, hid]

lemma mountPoint_eq_some {destination : List Char} {root : Option FsNode} {new : FsNode}
    (h : fs.mountPoint cwd destination root = some (id, new)) :
    fs.lookup cwd destination = some (.tmpfs id) ∧ id ≠ 0 ∧ (fs.nodes id).mountedNode = none ∧
      new.type = .directory ∧ new.segment = filename destination := by
  unfold mountPoint at h
  cases hl : fs.lookup cwd destination with
  | none => simp [hl] at h
  | some node =>
    cases node with
    | foreign id => simp [hl] at h
    | tmpfs k =>
      cases root with
      | none => simp [hl] at h
      | some root =>
        simp only [hl] at h
        split_ifs at h with hbusy
        cases h
        obtain ⟨hroot, hfree⟩ := not_or.1 hbusy
        exact ⟨rfl, hroot, by simpa using hfree, rfl, rfl⟩

lemma Created.childNames (hc : Created fs fs' id name) (h : fs.Tidy) (k : ℕ) (hk : k ≠ fs.next) :
    fs'.childNames k = if k = id then fs.childNames k ++ [name] else fs.childNames k := by
  have hold : (fs.nodes k).nodes.map fs'.shownName = fs.childNames k := by
    refine map_congr_left fun child hchild => hc.shown child ?_
    exact (h.older k child hchild).ne
  unfold FileSystem.childNames
  split_ifs with hid
  · subst hid
    rw [hc.parent hk, map_append, hold]
    simp [hc.newName, FileSystem.childNames]
  · rw [hc.others k hk hid, hold]
    rfl

/-- A child with a proper and new name keeps the tree tidy. -/
lemma Created.tidy (hc : Created fs fs' id name) (h : fs.Tidy) (hproper : ProperName name)
    (hsep : separator ∉ name) (hown : name ≠ fs.shownName id) (habsent : name ∉ fs.childNames id) :
    fs'.Tidy := by
  have hnew : fs'.childNames fs.next = [] := by
    rw [FileSystem.childNames, hc.newNodes, map_nil]
  constructor
  · intro k child hchild
    rw [hc.next]
    by_cases hk : k = fs.next
    · rw [hk, hc.newNodes] at hchild
      exact absurd hchild not_mem_nil
    by_cases hid : k = id
    · subst hid
      rw [hc.parent hk] at hchild
      rcases mem_append.1 hchild with hchild | hchild
      · exact (h.older k child hchild).trans (Nat.lt_succ_self _)
      · rw [mem_singleton.1 hchild]
        exact Nat.lt_succ_self _
    · rw [hc.others k hk hid] at hchild
      exact (h.older k child hchild).trans (Nat.lt_succ_self _)
  · intro k
    by_cases hk : k = fs.next
    · rw [hk, hnew]
      exact ⟨nodup_nil, fun _ hn => absurd hn not_mem_nil⟩
    rw [hc.childNames h k hk]
    obtain ⟨hnodup, hnames⟩ := h.wellNamed k
    split_ifs with hid
    · subst hid
      refine ⟨?_, fun n hn => ?_⟩
      · rw [nodup_append]
        refine ⟨hnodup, nodup_singleton _, fun a ha b hb => ?_⟩
        rw [mem_singleton.1 hb]
        exact fun he => habsent (he ▸ ha)
      · rcases mem_append.1 hn with hn | hn
        · exact hnames n hn
        · rw [mem_singleton.1 hn]
          exact ⟨hproper, hsep⟩
    · exact ⟨hnodup, hnames⟩
  · intro k
    by_cases hk : k = fs.next
    · rw [hk, hnew]
      exact not_mem_nil
    rw [hc.childNames h k hk, hc.shown k hk]
    split_ifs with hid
    · subst hid
      rw [mem_append, not_or]
      exact ⟨h.ownName k, fun hm => hown (mem_singleton.1 hm).symm⟩
    · exact h.ownName k

lemma Tidy.setMounted (h : fs.Tidy) {id : ℕ} {root : FsNode}
    (hname : root.segment = fs.shownName id) : (fs.setMounted id (some root)).Tidy := by
  have hnodes : ∀ k, ((fs.setMounted id (some root)).nodes k).nodes = (fs.nodes k).nodes := by
    intro k
    by_cases hk : k = id
    · simp [FileSystem.setMounted, hk]
    · simp [FileSystem.setMounted, hk]
  have hshown : (fs.setMounted id (some root)).shownName = fs.shownName := by
    funext k
    by_cases hk : k = id
    · subst hk
      rw [← hname]
      simp [FileSystem.setMounted, FileSystem.shownName, view]
    · simp [FileSystem.setMounted, FileSystem.shownName, view, hk]
  have hchildren : (fs.setMounted id (some root)).childNames = fs.childNames := by
    funext k
    rw [FileSystem.childNames, hnodes, hshown]
    rfl
  constructor
  · intro k child hchild
    rw [hnodes] at hchild
    exact h.older k child hchild
  · intro k
    rw [hchildren]
    exact h.wellNamed k
  · intro k
    rw [hchildren, hshown]
    exact h.ownName k

lemma Tidy.setForeign (h : fs.Tidy) (id : ℕ) (node : FsNode) : (fs.setForeign id node).Tidy :=
  ⟨h.older, h.wellNamed, h.ownName⟩

lemma Tidy.createChild (h : fs.Tidy) (hproper : ProperName name) (hsep : separator ∉ name)
    (habsent : ∀ id, node = .tmpfs id → (fs.nodes id).mountedNode = none →
      (fs.nodes id).type = .directory → name ≠ fs.shownName id ∧ name ∉ fs.childNames id)
    (type : NodeType) (opened : Option ℕ) : (fs.createChild type name opened node).1.Tidy := by
  cases node with
  | tmpfs id =>
    cases hm : (fs.nodes id).mountedNode with
    | none =>
      simp only [FileSystem.createChild, hm]
      split_ifs with hdir
      · obtain ⟨hown, hnew⟩ := habsent id rfl hm hdir
        exact (push_created fs id type name).tidy h hproper hsep hown hnew
      · exact h
    | some root =>
      simp only [FileSystem.createChild, hm]
      cases root.createNode type opened with
      | none => exact h
      | some child =>
        refine (h.setMounted ?_).setForeign _ _
        simp [FileSystem.shownName, view, hm, FsNode.push]
  | foreign id =>
    simp only [FileSystem.createChild]
    cases (fs.foreign id).createNode type opened with
    | none => exact h
    | some child => exact (h.setForeign _ _).setForeign _ _

lemma Tidy.createNode (h : fs.Tidy) {nodePath : List Char}
    (hdot : filename nodePath ≠ dot) (hdots : filename nodePath ≠ dotDot) (type : NodeType)
    (opened : Option ℕ) : (fs.createNode cwd nodePath type opened).1.Tidy := by
  unfold FileSystem.createNode
  split_ifs with hfound hempty
  · exact h
  · exact h
  have hproper : ProperName (filename nodePath) := ⟨hempty, hdot, hdots⟩
  obtain ⟨init, -, hexisting, hparent⟩ :=
    fs.view.lookups_of_filename (.tmpfs 0) cwd hproper
  have hnone : fs.view.lookupLoop false (View.start (.tmpfs 0) cwd nodePath)
      (init ++ [filename nodePath]) = none := by
    rw [← hexisting]
    simpa [FileSystem.lookup] using hfound
  cases hl : fs.lookup cwd (up (sanitize (trim nodePath))) with
  | none => exact h
  | some node =>
    refine h.createChild hproper (not_mem_filename nodePath) ?_ type opened
    rintro id rfl hfree hdir
    exact h.absent hfree (by simp [view, hfree, hdir]) (hparent.symm.trans hl) hnone

lemma Tidy.mountFilesystem (h : fs.Tidy) {destination : List Char}
    (hproper : ProperName (filename destination)) (root : Option FsNode) :
    (fs.mountFilesystem cwd destination root).1.Tidy := by
  unfold FileSystem.mountFilesystem
  cases hm : fs.mountPoint cwd destination root with
  | none => exact h
  | some r =>
    obtain ⟨id, root⟩ := r
    obtain ⟨hfound, -, -, -, hname⟩ := mountPoint_eq_some hm
    refine h.setMounted (hname.trans ?_)
    obtain ⟨init, hlookup, -, -⟩ := fs.view.lookups_of_filename (.tmpfs 0) cwd hproper
    have hloop := hlookup.symm.trans hfound
    rw [View.lookupLoop_concat, Option.bind_eq_some_iff] at hloop
    obtain ⟨d, -, ha⟩ := hloop
    exact (fs.view.segment_of_arrive ha).symm

lemma Tidy.refresh (h : fs.Tidy) (node : SharedNode) (listed : FsNode) :
    (fs.refresh node listed).Tidy := by
  cases node with
  | foreign id => exact h.setForeign id listed
  | tmpfs id =>
    unfold FileSystem.refresh
    cases hm : (fs.nodes id).mountedNode with
    | none => simpa only [hm] using h
    | some root =>
      simp only [hm]
      refine h.setMounted ?_
      simp [FileSystem.shownName, view, hm]

end FileSystem

def NamesProperly (_ : FileSystem) : FileEvent → Prop
  | .mkdir _ path => filename path ≠ dot ∧ filename path ≠ dotDot
  | .openCreate _ path _ => filename path ≠ dot ∧ filename path ≠ dotDot
  | .mount _ destination _ => ProperName (filename destination)
  | .refresh _ _ => True

instance (fs : FileSystem) : (event : FileEvent) → Decidable (NamesProperly fs event)
  | .mkdir _ _ => inferInstanceAs (Decidable (_ ∧ _))
  | .openCreate _ _ _ => inferInstanceAs (Decidable (_ ∧ _))
  | .mount _ _ _ => inferInstanceAs (Decidable (ProperName _))
  | .refresh _ _ => inferInstanceAs (Decidable True)

lemma fileStep_tidy {fs : FileSystem} {event : FileEvent} (h : fs.Tidy)
    (hg : NamesProperly fs event) (hs : fileStep fs event = some fs') : fs'.Tidy := by
  cases event with
  | mkdir cwd path =>
    rw [← Option.some.inj hs]
    exact h.createNode hg.1 hg.2 _ _
  | openCreate cwd path opened =>
    rw [← Option.some.inj hs, FileSystem.openCreate]
    split_ifs
    · exact h
    · exact h.createNode hg.1 hg.2 _ _
  | mount cwd destination root =>
    rw [← Option.some.inj hs]
    exact h.mountFilesystem hg root
  | refresh node listed =>
    rw [← Option.some.inj hs]
    exact h.refresh node listed

/-- In every run whose paths end in proper names, the children of every
directory have distinct proper names in every state. -/
theorem wellNamed_always (events : List FileEvent) (h : Meets fileStep NamesProperly .new events) :
    Always fileStep FileSystem.WellNamed .new events :=
  (always_of_meets (fun _ _ _ hi hg hs => fileStep_tidy hi hg hs) FileSystem.tidy_new h).mono
    fun _ ht => ht.wellNamed

def sampleEvents : List FileEvent :=
  [.mkdir (.tmpfs 0) ['/', 'a'], .openCreate (.tmpfs 0) ['/', 'a', '/', 'f'] none,
    .mkdir (.tmpfs 1) ['.', '.', '/', 'd'],
    .mount (.tmpfs 0) ['/', 'a'] (some ⟨.directory, [], [], true⟩),
    .openCreate (.tmpfs 0) ['/', 'a', '/', 'g'] (some 7)]

theorem wellNamed_sampleEvents : (exec fileStep .new sampleEvents).isSome ∧
      Always fileStep FileSystem.WellNamed .new sampleEvents :=
  ⟨by decide, wellNamed_always sampleEvents (meets_of_check (by decide +kernel))⟩

/-- Creating `/a/.` twice in the empty root gives the root two children named
`.`: each time it is `/a` that does not exist. -/
theorem mkdir_dot_twice :
    ∃ fs, exec fileStep .new [.mkdir (.tmpfs 0) ['/', 'a', '/', '.'],
        .mkdir (.tmpfs 0) ['/', 'a', '/', '.']] = some fs ∧
      fs.childNames 0 = [dot, dot] ∧ ¬ fs.WellNamed := by
  refine ⟨_, rfl, by decide, fun h => ?_⟩
  exact absurd (h 0).1 (by decide)

end GzOS.Vfs
