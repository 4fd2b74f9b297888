import Mathlib.Data.List.DropRight
import Mathlib.Tactic

/-!
# The path class

`Path` keeps a string and splits it at the separator. `sanitize` drops empty
segments and `.`, resolves `..` against the segments before it, and joins what
is left. Strings are lists of characters.
-/
namespace GzOS.Paths
open List

abbrev Segment := List Char

def separator : Char := '/'
def dot : Segment := ['.']
def dotDot : Segment := ['.', '.']

def isAbsolute (path : List Char) : Bool := path.head? == some separator
def trailingSlash (path : List Char) : Bool := path.getLast? == some separator

def trim (path : List Char) : List Char := path.rdropWhile (· == separator)

/-- An empty piece at the very end is not read. -/
def getlines : List Char → List Segment
  | [] => []
  | c :: cs =>
    if c = separator then [] :: getlines cs
    else match getlines cs with
      | [] => [[c]]
      | piece :: rest => (c :: piece) :: rest

def split (path : List Char) : List Segment :=
  if trailingSlash path then getlines path ++ [[]] else getlines path

def join : List Segment → List Char
  | [] => []
  | [segment] => segment
  | segment :: rest => segment ++ separator :: join rest

def directory (path : List Char) : List Char := trim path ++ [separator]

def prune (relative : Bool) (pruned : List Segment) (segment : Segment) : List Segment :=
  if segment = [] ∨ segment = dot then pruned
  else if segment = dotDot then
    if relative then
      if pruned ≠ [] ∧ pruned.getLast? ≠ some dotDot then pruned.dropLast
      else pruned ++ [segment]
    else pruned.dropLast
  else pruned ++ [segment]

def sanitize (path : List Char) : List Char :=
  let relative := !isAbsolute path
  let pruned := (split path).foldl (prune relative) []
  let wasDirectory := trailingSlash path
  if !relative then
    let p := separator :: join pruned
    if wasDirectory then directory p else p
  else
    let p := join pruned
    if p.length ≠ 0 ∧ wasDirectory then directory p else p

/-- The pieces of an absolute path, without empty ones and `.`, with `..` resolved. -/
def components (path : List Char) : List Segment := (path.splitOn separator).foldl (prune false) []

lemma getlines_trailing (path : List Char) (h : path ≠ []) :
    getlines path ++ (if trailingSlash path then [[]] else []) = path.splitOn separator := by
  induction path with
  | nil => exact absurd rfl h
  | cons c cs ih =>
    rw [splitOn_cons_eq_if_modifyHead]
    cases cs with
    | nil =>
      by_cases hc : c = separator
      · simp [getlines, trailingSlash, hc]
      · simp [getlines, trailingSlash, hc]
    | cons d ds =>
      have ih := ih (by simp)
      have htrail : trailingSlash (c :: d :: ds) = trailingSlash (d :: ds) := by
        simp [trailingSlash]
      rw [htrail, ← ih, getlines]
      by_cases hc : c = separator
      · simp [hc]
      have hne : getlines (d :: ds) ≠ [] := by
        rw [getlines]
        split_ifs
        · simp
        · split <;> simp
      obtain ⟨piece, rest, hg⟩ := exists_cons_of_ne_nil hne
      simp [hc, hg]

variable {path : List Char}

lemma split_eq_splitOn (h : path ≠ []) : split path = path.splitOn separator := by
  rw [← getlines_trailing path h]
  unfold split
  split_ifs <;> simp

lemma join_eq_intercalate (segments : List Segment) :
    join segments = [separator].intercalate segments := by
  induction segments with
  | nil => simp [join]
  | cons s rest ih =>
    cases rest with
    | nil => simp [join]
    | cons t rest => simp [join, ih]

lemma not_mem_splitOn {segment : Segment} (h : segment ∈ path.splitOn separator) :
    separator ∉ segment := by
  induction path generalizing segment with
  | nil =>
    obtain rfl : segment = [] := by simpa using h
    simp
  | cons c cs ih =>
    rw [splitOn_cons_eq_if_modifyHead] at h
    split_ifs at h with hc
    · rcases mem_cons.1 h with rfl | h
      · simp
      · exact ih h
    · obtain ⟨piece, rest, hs⟩ := exists_cons_of_ne_nil (splitOn_ne_nil separator cs)
      rw [hs] at h
      rcases mem_cons.1 h with rfl | h
      · have hp : separator ∉ piece := ih (by simp [hs])
        simp only [mem_cons, not_or]
        exact ⟨fun he => hc (by simp [he]), hp⟩
      · exact ih (by simp [hs, h])

/-- What is kept is not empty, `.` or, in an absolute path, `..`. -/
lemma mem_foldl_prune {segments : List Segment} {pruned : List Segment} {segment : Segment}
    (h : segment ∈ segments.foldl (prune false) pruned) :
    segment ∈ pruned ∨ (segment ∈ segments ∧ segment ≠ [] ∧ segment ≠ dot ∧ segment ≠ dotDot) := by
  induction segments generalizing pruned with
  | nil => exact .inl h
  | cons s rest ih =>
    rcases ih h with hp | ⟨hr, hne⟩
    · simp only [prune, Bool.false_eq_true, if_false] at hp
      split_ifs at hp with h1 h2
      · exact .inl hp
      · exact .inl (mem_of_mem_dropLast hp)
      rcases mem_append.1 hp with hp | hp
      · exact .inl hp
      · obtain rfl : segment = s := by simpa using hp
        rw [not_or] at h1
        exact .inr ⟨mem_cons_self, h1.1, h1.2, h2⟩
    · exact .inr ⟨mem_cons_of_mem _ hr, hne⟩

lemma mem_components {segment : Segment} (h : segment ∈ components path) :
    segment ≠ [] ∧ separator ∉ segment := by
  rcases mem_foldl_prune h with hnil | ⟨hmem, hne, _, _⟩
  · cases hnil
  · exact ⟨hne, not_mem_splitOn hmem⟩

lemma foldl_prune_replicate (relative : Bool) (n : ℕ) (pruned : List Segment) :
    (replicate n ([] : Segment)).foldl (prune relative) pruned = pruned := by
  induction n with
  | zero => rfl
  | succ n ih => simpa [replicate_succ, prune] using ih

lemma splitOn_append_replicate (path : List Char) (n : ℕ) :
    (path ++ replicate n separator).splitOn separator =
      path.splitOn separator ++ replicate n [] := by
  induction n generalizing path with
  | zero => simp
  | succ n ih =>
    have hone : (path ++ [separator]).splitOn separator = path.splitOn separator ++ [[]] := by
      simpa using splitOn_append_cons_self path []
    have hrep : path ++ replicate (n + 1) separator =
        (path ++ [separator]) ++ replicate n separator := by
      simp [replicate_succ]
    rw [hrep, ih, hone, append_assoc]
    rfl

lemma trim_append (path : List Char) : ∃ n, path = trim path ++ replicate n separator := by
  refine ⟨(path.rtakeWhile (· == separator)).length, ?_⟩
  have hrep : path.rtakeWhile (· == separator) =
      replicate (path.rtakeWhile (· == separator)).length separator := by
    refine eq_replicate_iff.2 ⟨rfl, fun c hc => ?_⟩
    simpa using mem_rtakeWhile_imp hc
  rw [← hrep]
  exact rdropWhile_append_rtakeWhile.symm

lemma components_trim (path : List Char) : components (trim path) = components path := by
  obtain ⟨n, hn⟩ := trim_append path
  conv_rhs => rw [hn]
  unfold components
  rw [splitOn_append_replicate, foldl_append, foldl_prune_replicate]

lemma trailingSlash_trim (path : List Char) : trailingSlash (trim path) = false := by
  by_cases hne : trim path = []
  · simp [trailingSlash, hne]
  have hlast := rdropWhile_last_not (· == separator) path hne
  unfold trailingSlash
  rw [getLast?_eq_some_getLast hne, beq_eq_false_iff_ne]
  intro he
  exact hlast (by simpa [trim] using he)

lemma trim_eq_nil_iff (path : List Char) : trim path = [] ↔ ∀ c ∈ path, c = separator := by
  unfold trim
  simp

lemma isAbsolute_trim (habs : isAbsolute path) (hne : trim path ≠ []) :
    isAbsolute (trim path) := by
  obtain ⟨n, hn⟩ := trim_append path
  obtain ⟨c, cs, ht⟩ := exists_cons_of_ne_nil hne
  rw [hn, ht] at habs
  rw [ht]
  simpa [isAbsolute] using habs

lemma sanitize_trim_of_nil (h : trim path = []) : sanitize (trim path) = [] := by
  rw [h]
  rfl

lemma sanitize_trim (habs : isAbsolute path) (hne : trim path ≠ []) :
    sanitize (trim path) = separator :: join (components path) := by
  unfold sanitize
  simp only [isAbsolute_trim habs hne,  trailingSlash_trim, split_eq_splitOn hne]
  rw [← components_trim]
  rfl

lemma split_separator_join {segments : List Segment} (h : ∀ s ∈ segments, separator ∉ s) :
    split (separator :: join segments) = [] :: (if segments = [] then [[]] else segments) := by
  rw [split_eq_splitOn (by simp), splitOn_cons_eq_if_modifyHead, if_pos (by simp)]
  split_ifs with hs
  · simp [hs, join]
  · rw [join_eq_intercalate, splitOn_intercalate separator h hs]

end GzOS.Paths
