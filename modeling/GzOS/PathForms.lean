import GzOS.Paths

/-!
# The text of a sanitized path

A sanitized path is the text of a list of segments that `split` gives back. A path whose
file name is neither empty nor made of dots sanitizes to a text that ends in that file
name, and `up` takes the file name off.
-/
namespace GzOS.Paths
open List

def filename (path : List Char) : Segment := path.rtakeWhile (· != separator)

def append (path segment : List Char) : List Char :=
  (if trailingSlash path then path else path ++ [separator]) ++ segment

def up (path : List Char) : List Char :=
  if path = [] then directory dotDot
  else
    let moved := sanitize (append path dotDot)
    if moved = [] then moved else directory moved

def text (relative : Bool) (segments : List Segment) : List Char :=
  if relative then join segments else separator :: join segments

/-- The lists of segments that a pass of `sanitize` can leave. -/
structure Canonical (relative : Bool) (segments : List Segment) : Prop where
  pieces : ∀ s ∈ segments, s ≠ [] ∧ separator ∉ s
  stable : segments.foldl (prune relative) [] = segments

lemma length_foldl_prune_le (relative : Bool) (segments pruned : List Segment) :
    (segments.foldl (prune relative) pruned).length ≤ pruned.length + segments.length := by
  induction segments generalizing pruned with
  | nil => simp
  | cons s rest ih =>
    have hone : (prune relative pruned s).length ≤ pruned.length + 1 := by
      unfold prune
      split_ifs <;> simp <;> omega
    have hrest := ih (prune relative pruned s)
    simp only [foldl_cons, length_cons]
    omega

variable {relative : Bool} {pruned : List Segment}

lemma prune_eq_concat {init : List Segment} {segment last : Segment}
    (h : prune relative pruned segment = init ++ [last]) (hlen : pruned.length ≤ init.length) :
    pruned = init := by
  have hlong : pruned.length < (prune relative pruned segment).length := by
    rw [h, length_append, length_singleton]
    omega
  have happend : prune relative pruned segment = pruned ++ [segment] := by
    unfold prune at hlong ⊢
    split_ifs at hlong ⊢
    · exact absurd hlong (lt_irrefl _)
    · rw [length_dropLast] at hlong
      omega
    · rfl
    · rw [length_dropLast] at hlong
      omega
    · rfl
  exact (append_inj' (happend.symm.trans h) rfl).1

lemma Canonical.init {init : List Segment} {last : Segment}
    (h : Canonical relative (init ++ [last])) : Canonical relative init where
  pieces s hs := h.pieces s (mem_append_left _ hs)
  stable := by
    have hfold := h.stable
    rw [foldl_append, foldl_cons] at hfold
    refine prune_eq_concat hfold ?_
    simpa using length_foldl_prune_le relative init []

lemma canonical_nil (relative : Bool) : Canonical relative [] :=
  ⟨fun _ hs => absurd hs not_mem_nil, rfl⟩

lemma canonical_prune {segment : Segment}
    (h : Canonical relative pruned) (hs : separator ∉ segment) :
    Canonical relative (prune relative pruned segment) := by
  have hdrop : Canonical relative pruned.dropLast := by
    cases hp : pruned using reverseRecOn with
    | nil => exact canonical_nil relative
    | append_singleton init last _ =>
      rw [dropLast_concat]
      exact (hp ▸ h).init
  have hconcat : segment ≠ [] → prune relative pruned segment = pruned ++ [segment] →
      Canonical relative (pruned ++ [segment]) := by
    intro hne he
    constructor
    · intro s hmem
      rcases mem_append.1 hmem with hmem | hmem
      · exact h.pieces s hmem
      · obtain rfl : s = segment := by simpa using hmem
        exact ⟨hne, hs⟩
    · rw [foldl_append, h.stable, foldl_cons, foldl_nil, he]
  unfold prune at hconcat ⊢
  split_ifs at hconcat ⊢ with hskip hup
  · exact h
  · exact hdrop
  · exact hconcat (not_or.1 hskip).1 rfl
  · exact hdrop
  · exact hconcat (not_or.1 hskip).1 rfl

lemma canonical_foldl (relative : Bool) {segments : List Segment}
    (h : ∀ s ∈ segments, separator ∉ s) :
    Canonical relative (segments.foldl (prune relative) []) := by
  induction segments using reverseRecOn with
  | nil => exact canonical_nil relative
  | append_singleton init last ih =>
    rw [foldl_append, foldl_cons]
    refine canonical_prune (ih fun s hs => h s (mem_append_left _ hs)) (h last ?_)
    exact mem_append_right _ mem_cons_self

lemma join_concat (init : List Segment) (last : Segment) :
    join (init ++ [last]) = if init = [] then last else join init ++ separator :: last := by
  induction init with
  | nil => rfl
  | cons s rest ih =>
    cases rest with
    | nil => rfl
    | cons t rest =>
      have hrest : join (s :: t :: rest ++ [last]) = s ++ separator :: join (t :: rest ++ [last]) :=
        rfl
      rw [hrest, ih]
      simp [join]

section Text

variable {relative : Bool} {segments : List Segment}

lemma Canonical.not_separator (h : Canonical relative segments) :
    ∀ s ∈ segments, separator ∉ s := fun s hs => (h.pieces s hs).2

lemma isAbsolute_text (h : Canonical relative segments) (hne : segments ≠ []) :
    isAbsolute (text relative segments) = !relative := by
  cases relative with
  | false => simp [text, isAbsolute]
  | true =>
    obtain ⟨s, rest, rfl⟩ := exists_cons_of_ne_nil hne
    obtain ⟨hs, hsep⟩ := h.pieces s mem_cons_self
    obtain ⟨c, cs, rfl⟩ := exists_cons_of_ne_nil hs
    have hc : c ≠ separator := fun he => hsep (he ▸ mem_cons_self)
    cases rest <;> simp [text, join, isAbsolute, hc]

lemma text_ne_nil (h : Canonical relative segments) (hne : segments ≠ []) :
    text relative segments ≠ [] := by
  cases relative with
  | false => simp [text]
  | true =>
    obtain ⟨s, rest, rfl⟩ := exists_cons_of_ne_nil hne
    have hs := (h.pieces s mem_cons_self).1
    cases rest <;> simp [text, join, hs]

variable {path : List Char}

lemma trailingSlash_append {last : List Char} (hne : last ≠ []) (hsep : separator ∉ last) :
    trailingSlash (path ++ last) = false := by
  unfold trailingSlash
  rw [getLast?_append_of_ne_nil _ hne, getLast?_eq_some_getLast hne, beq_eq_false_iff_ne]
  intro he
  have hlast : last.getLast hne = separator := by simpa using he
  exact hsep (hlast ▸ getLast_mem hne)

lemma trailingSlash_text (h : Canonical relative segments) (hne : segments ≠ []) :
    trailingSlash (text relative segments) = false := by
  cases hs : segments using reverseRecOn with
  | nil => exact absurd hs hne
  | append_singleton init last _ =>
    obtain ⟨hl, hsep⟩ := h.pieces last (by simp [hs])
    have htext : ∃ path, text relative (init ++ [last]) = path ++ last := by
      unfold text
      rw [join_concat]
      split_ifs
      · exact ⟨[], rfl⟩
      · exact ⟨join init ++ [separator], by simp⟩
      · exact ⟨[separator], rfl⟩
      · exact ⟨separator :: (join init ++ [separator]), by simp⟩
    obtain ⟨path, hpath⟩ := htext
    rw [hpath]
    exact trailingSlash_append hl hsep

lemma trim_eq_self (h : trailingSlash path = false) : trim path = path := by
  unfold trim
  rw [rdropWhile_eq_self_iff]
  intro hne hlast
  unfold trailingSlash at h
  rw [getLast?_eq_some_getLast hne, beq_eq_false_iff_ne] at h
  exact h (by simpa using hlast)

lemma split_text (h : Canonical relative segments) (hne : segments ≠ []) :
    split (text relative segments) = if relative then segments else [] :: segments := by
  cases relative with
  | false => simp [text, split_separator_join h.not_separator, hne]
  | true =>
    rw [split_eq_splitOn (text_ne_nil h hne)]
    simp [text, join_eq_intercalate, splitOn_intercalate separator h.not_separator hne]

lemma foldl_split_text (h : Canonical relative segments) (hne : segments ≠ []) :
    (split (text relative segments)).foldl (prune relative) [] = segments := by
  rw [split_text h hne]
  split_ifs
  · exact h.stable
  · exact h.stable

lemma sanitize_eq_text (h : trailingSlash path = false) :
    sanitize path = text (!isAbsolute path) ((split path).foldl (prune (!isAbsolute path)) []) := by
  unfold sanitize text
  cases isAbsolute path <;> simp [h]

lemma sanitize_text (h : Canonical relative segments) (hne : segments ≠ []) :
    sanitize (trim (text relative segments)) = text relative segments := by
  have hslash := trailingSlash_text h hne
  rw [trim_eq_self hslash, sanitize_eq_text hslash, isAbsolute_text h hne, Bool.not_not,
    foldl_split_text h hne]

end Text

/-! Taking the file name off. -/

lemma not_mem_filename (path : List Char) : separator ∉ filename path := by
  intro h
  simpa using mem_rtakeWhile_imp h

lemma splitOn_filename (path : List Char) :
    ∃ init, path.splitOn separator = init ++ [filename path] := by
  have hsplit : path.rdropWhile (· != separator) ++ filename path = path :=
    rdropWhile_append_rtakeWhile
  have hname := splitOn_eq_singleton (not_mem_filename path)
  cases hd : path.rdropWhile (· != separator) using reverseRecOn with
  | nil =>
    rw [hd, nil_append] at hsplit
    exact ⟨[], by rw [← hsplit] at hname ⊢; simpa [hsplit] using hname⟩
  | append_singleton front c _ =>
    have hne : path.rdropWhile (· != separator) ≠ [] := by simp [hd]
    have hlast := rdropWhile_last_not (· != separator) path hne
    have hc : c = separator := by simpa [hd] using hlast
    refine ⟨front.splitOn separator, ?_⟩
    rw [← hname, ← splitOn_append_cons_self, ← hc]
    conv_lhs => rw [← hsplit, hd]
    simp

/-- Not the empty name and not a name that `sanitize` resolves. -/
def ProperName (name : Segment) : Prop := name ≠ [] ∧ name ≠ dot ∧ name ≠ dotDot

instance (name : Segment) : Decidable (ProperName name) := inferInstanceAs (Decidable (_ ∧ _))

lemma prune_properName (relative : Bool) (pruned : List Segment) {name : Segment}
    (h : ProperName name) : prune relative pruned name = pruned ++ [name] := by
  simp [prune, h.1, h.2.1, h.2.2]

lemma trim_of_filename {path : List Char} (h : filename path ≠ []) : trim path = path := by
  refine trim_eq_self ?_
  have hsplit : path.rdropWhile (· != separator) ++ filename path = path :=
    rdropWhile_append_rtakeWhile
  rw [← hsplit]
  exact trailingSlash_append h (not_mem_filename path)

lemma sanitize_of_filename {path : List Char} (h : ProperName (filename path)) :
    ∃ init, Canonical (!isAbsolute path) (init ++ [filename path]) ∧
      sanitize (trim path) = text (!isAbsolute path) (init ++ [filename path]) := by
  obtain ⟨pieces, hpieces⟩ := splitOn_filename path
  have hne : path ≠ [] := by
    rintro rfl
    exact h.1 rfl
  have hslash : trailingSlash path = false := by
    rw [← trim_of_filename h.1]
    exact trailingSlash_trim path
  have hfold : (split path).foldl (prune (!isAbsolute path)) [] =
      pieces.foldl (prune (!isAbsolute path)) [] ++ [filename path] := by
    rw [split_eq_splitOn hne, hpieces, foldl_append, foldl_cons, foldl_nil, prune_properName _ _ h]
  refine ⟨pieces.foldl (prune (!isAbsolute path)) [], ?_, ?_⟩
  · rw [← hfold, split_eq_splitOn hne]
    exact canonical_foldl _ fun s hs => not_mem_splitOn hs
  · rw [trim_of_filename h.1, sanitize_eq_text hslash, hfold]

lemma prune_dotDot (relative : Bool) (init : List Segment) {name : Segment}
    (h : name ≠ dotDot) : prune relative (init ++ [name]) dotDot = init := by
  have hskip : ¬ (dotDot = [] ∨ dotDot = dot) := by decide
  unfold prune
  rw [if_neg hskip, if_pos rfl, getLast?_concat, dropLast_concat]
  cases relative
  · rfl
  · rw [if_pos rfl, if_pos ⟨by simp, fun he => h (Option.some.inj he)⟩]

lemma up_text_prune {relative : Bool} {segments : List Segment}
    (h : Canonical relative segments) (hne : segments ≠ []) :
    up (text relative segments) = if prune relative segments dotDot = [] then text relative []
      else directory (text relative (prune relative segments dotDot)) := by
  have hdots : separator ∉ dotDot := by decide
  have happend : append (text relative segments) dotDot =
      text relative segments ++ separator :: dotDot := by
    simp [append, trailingSlash_text h hne]
  have hslash : trailingSlash (text relative segments ++ separator :: dotDot) = false := by
    rw [append_cons]
    exact trailingSlash_append (by decide) hdots
  have habs : isAbsolute (text relative segments ++ separator :: dotDot) = !relative := by
    rw [← isAbsolute_text h hne]
    obtain ⟨c, cs, hc⟩ := exists_cons_of_ne_nil (text_ne_nil h hne)
    simp [hc, isAbsolute]
  have hsplit : split (text relative segments ++ separator :: dotDot) =
      split (text relative segments) ++ [dotDot] := by
    rw [split_eq_splitOn (by simp), split_eq_splitOn (text_ne_nil h hne),
      splitOn_append_cons_self, splitOn_eq_singleton hdots]
  have hmoved : sanitize (append (text relative segments) dotDot) =
      text relative (prune relative segments dotDot) := by
    rw [happend, sanitize_eq_text hslash, habs, Bool.not_not, hsplit, foldl_append,
      foldl_split_text h hne, foldl_cons, foldl_nil]
  unfold up
  rw [if_neg (text_ne_nil h hne), hmoved]
  by_cases hinit : prune relative segments dotDot = []
  · rw [hinit]
    cases relative
    · rfl
    · rfl
  · rw [if_neg hinit]
    exact if_neg (text_ne_nil (canonical_prune h hdots) hinit)

/-! The segments of a path. -/

/-- The segments that a lookup of the path goes through. -/
def segmentsOf (path : List Char) : List Segment :=
  let segments := split (sanitize (trim path))
  if segments.head? = some [] then segments.tail else segments

/-- A name that a path may ask for. -/
def Nameable (name : Segment) : Prop := ProperName name ∧ separator ∉ name

instance (name : Segment) : Decidable (Nameable name) := inferInstanceAs (Decidable (_ ∧ _))

section Segments

variable {relative : Bool} {segments init : List Segment} {last name : Segment}

lemma segmentsOf_of_text {path : List Char} (h : Canonical relative segments) (hne : segments ≠ [])
    (htext : sanitize (trim path) = text relative segments) : segmentsOf path = segments := by
  obtain ⟨first, rest, rfl⟩ := exists_cons_of_ne_nil hne
  have hfirst := (h.pieces first mem_cons_self).1
  unfold segmentsOf
  rw [htext, split_text h hne]
  cases relative <;> simp [hfirst]

lemma segmentsOf_text (h : Canonical relative segments) (hne : segments ≠ []) :
    segmentsOf (text relative segments) = segments :=
  segmentsOf_of_text h hne (sanitize_text h hne)

/-- A path leads nowhere, to the root under its empty name, or along canonical segments. -/
lemma segmentsOf_cases (path : List Char) :
    segmentsOf path = [] ∨ (segmentsOf path = [[]] ∧ isAbsolute path = true) ∨
      (segmentsOf path ≠ [] ∧ Canonical (!isAbsolute path) (segmentsOf path) ∧
        sanitize (trim path) = text (!isAbsolute path) (segmentsOf path)) := by
  have hcanon : Canonical (!isAbsolute (trim path))
      ((split (trim path)).foldl (prune (!isAbsolute (trim path))) []) := by
    refine canonical_foldl _ fun s hs => ?_
    by_cases hnil : trim path = []
    · rw [hnil] at hs
      exact absurd hs not_mem_nil
    · rw [split_eq_splitOn hnil] at hs
      exact not_mem_splitOn hs
  have htext := sanitize_eq_text (trailingSlash_trim path)
  obtain ⟨n, hn⟩ := trim_append path
  have hsame : trim path ≠ [] → isAbsolute (trim path) = isAbsolute path := fun hne => by
    obtain ⟨c, cs, hc⟩ := exists_cons_of_ne_nil hne
    conv_rhs => rw [hn]
    rw [hc]
    rfl
  generalize (split (trim path)).foldl (prune (!isAbsolute (trim path))) [] = segments
    at hcanon htext
  by_cases hs : segments = []
  · rw [hs] at htext
    cases habs : isAbsolute (trim path) with
    | false =>
      rw [habs] at htext
      exact .inl (by rw [segmentsOf, htext]; rfl)
    | true =>
      rw [habs] at htext
      have hne : trim path ≠ [] := fun h => by simp [h, isAbsolute] at habs
      exact .inr (.inl ⟨by rw [segmentsOf, htext]; rfl, hsame hne ▸ habs⟩)
  · have hne : trim path ≠ [] := fun h => text_ne_nil hcanon hs (by rw [← htext, h]; rfl)
    rw [hsame hne] at hcanon htext
    rw [segmentsOf_of_text hcanon hs htext]
    exact .inr (.inr ⟨hs, hcanon, htext⟩)

lemma Canonical.last_ne_dot (h : Canonical relative (init ++ [last])) : last ≠ dot := by
  have hstable := h.stable
  rw [foldl_append, h.init.stable, foldl_cons] at hstable
  exact fun hd => by simp [prune, hd] at hstable

lemma Canonical.nameable (h : Canonical relative segments) (hs : name ∈ segments) :
    name = dotDot ∨ Nameable name := by
  induction segments using reverseRecOn with
  | nil => cases hs
  | append_singleton init last ih =>
    rcases mem_append.1 hs with hs | hs
    · exact ih h.init hs
    · obtain rfl := mem_singleton.1 hs
      obtain ⟨hne, hsep⟩ := h.pieces name (by simp)
      exact or_iff_not_imp_left.2 fun hdots => ⟨⟨hne, h.last_ne_dot, hdots⟩, hsep⟩

lemma Canonical.concat (h : Canonical relative segments) (hname : Nameable name) :
    Canonical relative (segments ++ [name]) :=
  prune_properName relative segments hname.1 ▸ canonical_prune h hname.2

lemma canonical_of_nameable (relative : Bool) (h : ∀ s ∈ segments, Nameable s) :
    Canonical relative segments := by
  induction segments using reverseRecOn with
  | nil => exact canonical_nil relative
  | append_singleton init last ih =>
    exact (ih fun s hs => h s (mem_append_left _ hs)).concat (h last (by simp))

end Segments

end GzOS.Paths
