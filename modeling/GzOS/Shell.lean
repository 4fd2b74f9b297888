import GzOS.CommandLine
import GzOS.Runs

/-!
# The line of the shell

`eval_line` sizes its argument vector by counting spaces and then fills it with the tokens
of the line. The main loop edits the line in a buffer of 128 bytes and keeps the last ten.
A write outside an array, a missing terminator and a null pointer are `none`.
-/
namespace GzOS.Shell
open List Cmdline Runs

/-! ## Tokens -/

/-- `count_spaces`: each round moves on the index or the start of the line. -/
def countSpaces (line : List Char) (spaces : ℕ) : ℕ :=
  match _h : (line)[spaces]? with
  | none => spaces
  | some c => if c = ' ' then countSpaces line (spaces + 1) else countSpaces line.tail spaces
termination_by line.length - spaces
decreasing_by
  all_goals have hlt := (List.getElem?_eq_some_iff.1 _h).1
  · omega
  · rw [length_tail]
    omega

/-- The loop over `strsep`, which stores into `argc` places. -/
def storeTokens (argc : ℕ) (argv : List (List Char)) (line : List Char) :
    Option (List (List Char)) :=
  if argv.length < argc then
    match _h : line.dropWhile (· ≠ ' ') with
    | [] => some (argv ++ [line])
    | _ :: rest => storeTokens argc (argv ++ [line.takeWhile (· ≠ ' ')]) rest
  else none
termination_by line.length
decreasing_by
  have hle := (dropWhile_sublist (· ≠ ' ') (l := line)).length_le
  rw [_h, length_cons] at hle
  exact hle

lemma countSpaces_eq (line : List Char) (spaces : ℕ) :
    countSpaces line spaces = spaces + (line.drop spaces).count ' ' := by
  fun_induction countSpaces line spaces with
  | case1 line spaces h => simp [drop_eq_nil_iff.2 (List.getElem?_eq_none_iff.1 h)]
  | case2 line spaces h ih =>
    obtain ⟨hlt, hget⟩ := List.getElem?_eq_some_iff.1 h
    rw [ih, drop_eq_getElem_cons hlt, hget, count_cons_self]
    omega
  | case3 line spaces c h hc ih =>
    obtain ⟨hlt, hget⟩ := List.getElem?_eq_some_iff.1 h
    rw [ih, drop_eq_getElem_cons hlt, hget, count_cons_of_ne hc, drop_tail]

variable {line : List Char}

lemma storeTokens_eq {argc : ℕ} {argv : List (List Char)}
    (h : argc = argv.length + line.count ' ' + 1) :
    storeTokens argc argv line = some (argv ++ line.splitOn ' ') ∧
      (line.splitOn ' ').length = line.count ' ' + 1 := by
  fun_induction storeTokens argc argv line with
  | case1 argv line hroom hnone =>
    have hspace := no_space hnone
    rw [splitOn_eq_singleton hspace, count_eq_zero.2 hspace]
    exact ⟨rfl, rfl⟩
  | case2 argv line hroom c rest hsome ih =>
    obtain ⟨token, htok, hspace, rfl⟩ := first_space hsome
    rw [count_append, count_eq_zero.2 hspace, count_cons_self] at h ⊢
    obtain ⟨hstore, hlen⟩ := ih (by rw [length_append, length_singleton]; omega)
    rw [hstore, splitOn_append_cons_self_of_not_mem hspace, htok, length_cons, hlen]
    simp
  | case3 argv line hfull => omega

/-- **The tokens of a line fill the argument vector exactly**, and joined by spaces they are
the line again. -/
theorem tokens_fit (line : List Char) : countSpaces line 0 = line.count ' ' ∧
    ∃ argv, storeTokens (countSpaces line 0 + 1) [] line = some argv ∧
      argv.length = countSpaces line 0 + 1 ∧ [' '].intercalate argv = line := by
  have hcount : countSpaces line 0 = line.count ' ' := by simp [countSpaces_eq]
  have hargc : line.count ' ' + 1 = ([] : List (List Char)).length + line.count ' ' + 1 := by simp
  obtain ⟨hstore, hlen⟩ := storeTokens_eq hargc
  rw [hcount]
  exact ⟨rfl, _, by simpa using hstore, hlen, intercalate_splitOn ' '⟩

/-! ## The editor -/

/-- Where the next character goes: into the line, behind an escape, or behind its `[`. -/
inductive Mode
  | plain
  | escape
  | arrow
  deriving DecidableEq, Repr

/-- `line` has the bytes of `current_line`; `entered` has the lines read so far. -/
structure Editor where
  line : List Char
  index : ℕ := 0
  history : List (Option (List Char)) := replicate 10 none
  historyIndex : ℕ := 0
  mode : Mode := .plain
  quit : Bool := false
  entered : List (List Char) := []
  deriving Repr

def put (line : List Char) (i : ℕ) (c : Char) : Option (List Char) :=
  if i < line.length then some (line.set i c) else none

/-- A newline behind some text: `code` is what `eval_line` returns. -/
def enter (s : Editor) (code : ℤ) : Option Editor :=
  ((put s.line s.index nul).bind stringIn).map fun text => { s with
    line := replicate 128 nul
    index := 0
    history := s.history.set s.historyIndex (some text)
    historyIndex := (s.historyIndex + 1) % 10
    quit := code = 1
    entered := s.entered ++ [text] }

/-- Arrow up prints the newest line and copies it. -/
def arrowUp (s : Editor) : Option Editor :=
  if s.historyIndex = 0 then some s
  else (s.history[s.historyIndex - 1]?).join.bind fun text =>
    let line := strncpy s.line text 128
    (stringIn line).map fun shown => { s with line := line, index := shown.length }

/-- An input character; the ones behind an escape are rounds of their own. -/
def step (s : Editor) (input : Char × ℤ) : Option Editor :=
  if s.quit then some s
  else if s.mode = .escape then some { s with mode := .arrow }
  else if s.mode = .arrow then
    if input.1 = 'A' then arrowUp { s with mode := .plain } else some { s with mode := .plain }
  else if input.1 = '\n' then if s.index = 0 then some s else enter s input.2
  else if input.1 = '\x7f' then
    (put s.line s.index nul).map fun line => { s with line := line, index := s.index - 1 }
  else if input.1 = '\x1b' then some { s with mode := .escape }
  else (put s.line s.index input.1).map fun line =>
    { s with line := line, index := if s.index + 1 ≥ 128 then 0 else s.index + 1 }

/-- The slots below `history_index` have lines entered before, shorter than the buffer. -/
structure Kept (s : Editor) : Prop where
  length : s.line.length = 128
  index : s.index < 128
  slots : s.history.length = 10
  position : s.historyIndex < 10
  history : ∀ i < s.historyIndex, ∃ text ∈ s.entered, s.history[i]? = some (some text) ∧
    text.length < 128

variable {s : Editor}

lemma put_of_lt {i : ℕ} (h : i < line.length) (c : Char) :
    put line i c = some (line.set i c) := if_pos h

lemma stringIn_of_mem (h : nul ∈ line) :
    ∃ text, stringIn line = some text ∧ text.length < line.length := by
  refine ⟨_, if_pos h, lt_of_le_of_ne ( takeWhile_prefix _).length_le fun heq => ?_⟩
  have hall := takeWhile_eq_self_iff.1 (( takeWhile_prefix _).eq_of_length heq) nul h
  simp at hall

lemma Kept.enter (h : Kept s) (code : ℤ) : ∃ s', Shell.enter s code = some s' ∧ Kept s' := by
  have hlt : s.index < s.line.length := h.length ▸ h.index
  obtain ⟨text, htext, hshort⟩ := stringIn_of_mem (mem_set hlt nul)
  rw [length_set, h.length] at hshort
  rw [Shell.enter, put_of_lt hlt, Option.bind_some, htext]
  refine ⟨_, rfl, length_replicate, Nat.zero_lt_succ _, by simp [h.slots], Nat.mod_lt _ (by decide),
    fun i hi => ?_⟩
  have hle : i ≤ s.historyIndex := Nat.lt_succ_iff.1 (hi.trans_le (Nat.mod_le _ _))
  rcases hle.lt_or_eq with hold | rfl
  · obtain ⟨old, hmem, hget, hold'⟩ := h.history i hold
    exact ⟨old, mem_append_left _ hmem, by rwa [getElem?_set_ne hold.ne'], hold'⟩
  · exact ⟨text, by simp, getElem?_set_self (h.slots ▸ h.position), hshort⟩

lemma Kept.arrowUp (h : Kept s) : ∃ s', Shell.arrowUp s = some s' ∧ Kept s' := by
  rw [Shell.arrowUp]
  split_ifs with hzero
  · exact ⟨s, rfl, h⟩
  obtain ⟨text, hmem, hget, hshort⟩ := h.history (s.historyIndex - 1) (by omega)
  have hcopy : (strncpy s.line text 128).length = 128 := by
    simp only [strncpy, length_append, length_take, length_replicate, length_drop, h.length]
    omega
  have hnul : nul ∈ strncpy s.line text 128 :=
    mem_append_left _ (mem_append_right _ (mem_replicate.2 ⟨by omega, rfl⟩))
  obtain ⟨shown, hshown, hlt⟩ := stringIn_of_mem hnul
  simp only [hget, Option.join_some, Option.bind_some, hshown]
  exact ⟨_, rfl, hcopy, hcopy ▸ hlt, h.slots, h.position, h.history⟩

lemma Kept.step (h : Kept s) (input : Char × ℤ) :
    ∃ s', Shell.step s input = some s' ∧ Kept s' := by
  have hput := put_of_lt (h.length ▸ h.index)
  have hmode : ∀ mode, Kept { s with mode := mode } := fun _ =>
    ⟨h.length, h.index, h.slots, h.position, h.history⟩
  have hedit : ∀ c i, i < 128 → Kept { s with line := s.line.set s.index c, index := i } :=
    fun c i hi => ⟨by simp [h.length], hi, h.slots, h.position, h.history⟩
  rw [Shell.step]
  split_ifs with _ _ _ _ _ _ _ _ hroom
  · exact ⟨_, rfl, h⟩
  · exact ⟨_, rfl, hmode _⟩
  · exact (hmode _).arrowUp
  · exact ⟨_, rfl, hmode _⟩
  · exact ⟨_, rfl, h⟩
  · exact h.enter input.2
  · exact ⟨_, by rw [hput]; rfl, hedit _ _ (by have := h.index; omega)⟩
  · exact ⟨_, rfl, hmode _⟩
  · exact ⟨_, by rw [hput]; rfl, hedit _ 0 (by decide)⟩
  · exact ⟨_, by rw [hput]; rfl, hedit _ _ (by omega)⟩

/-- **The editor stays inside its buffer** and finds a line entered before in the slot it
shows, whatever is typed, whatever the commands return and whatever was in the buffer. -/
theorem editor_safe (memory : List Char) (inputs : List (Char × ℤ)) (h : memory.length = 128) :
    ∃ s, exec step { line := memory } inputs = some s ∧ s.line.length = 128 ∧ s.index < 128 ∧
      (s.historyIndex ≠ 0 →
        ∃ text ∈ s.entered, s.history[s.historyIndex - 1]? = some (some text)) := by
  have hboot : Kept { line := memory } :=
    ⟨h, Nat.zero_lt_succ _, rfl, Nat.zero_lt_succ _, fun i hi => absurd hi (Nat.not_lt_zero i)⟩
  have hstep : ∀ s input, Kept s → True → ∃ s', step s input = some s' ∧ Kept s' :=
    fun _ input hs _ => hs.step input
  have hall : Meets step (fun _ _ => True) { line := memory } inputs := fun _ _ _ _ _ => trivial
  obtain ⟨s, hs⟩ := exec_of_meets hstep hboot hall
  have hkept := (always_of_progress hstep hboot hall).last hs
  refine ⟨s, hs, hkept.length, hkept.index, fun hne => ?_⟩
  obtain ⟨text, hmem, hget, -⟩ := hkept.history (s.historyIndex - 1) (by omega)
  exact ⟨text, hmem, hget⟩

/-- Two lines are typed, then the second is fetched back and a character deleted. -/
theorem editor_safe_recall : ∃ s, exec step { line := replicate 128 'x' }
      ("ls\npwd\n\x1b[A\x7f".toList.map (·, 0)) = some s ∧
    s.line.length = 128 ∧ s.index < 128 ∧ (s.historyIndex ≠ 0 →
      ∃ text ∈ s.entered, s.history[s.historyIndex - 1]? = some (some text)) :=
  editor_safe _ _ length_replicate

end GzOS.Shell
