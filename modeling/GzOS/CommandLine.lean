import GzOS.CTypes

/-!
# The kernel command line

Parsing overwrites the spaces of the boot loader's string in place and counts the tokens;
a lookup walks the result by the length of one token after another. For a token with an
`=` the lookup compares only as many characters as the key has, so a longer name that
starts with the key is found as well (`cmdline_get_iff`).
-/

namespace GzOS.Cmdline
open List

/-- `cmdline_parse_arguments` from `pos` on: the characters as they are left, with
the terminator of the string, and the number of tokens counted. -/
def cmdlineParseArguments (pos : List Char) : List Char × ℕ :=
  match _h : pos.dropWhile (· ≠ ' ') with
  -- an empty token at the end of the line is not counted
  | [] => (pos ++ [nul], if pos.length = 0 then 0 else 1)
  | _ :: rest =>
    let r := cmdlineParseArguments rest
    (pos.takeWhile (· ≠ ' ') ++ nul :: r.1, r.2 + 1)
termination_by pos.length
decreasing_by
  have hle := (dropWhile_sublist (· ≠ ' ') (l := pos)).length_le
  rw [_h, length_cons] at hle
  exact hle

/-- `cmdline_get` with `n` tokens left, token `i` at `pos`. The pointer it returns is given
by the token it points into and the text found there. -/
def cmdlineGet (key : List Char) : ℕ → ℕ → List Char → Option (ℕ × List Char)
  | 0, _, _ => none
  | n + 1, i, pos =>
    let token := pos.takeWhile (· ≠ nul)
    let next := cmdlineGet key n (i + 1) (pos.drop (token.length + 1))
    if '=' ∈ token then
      -- `memcmp` over the length of the key
      if key <+: pos then some (i, (token.dropWhile (· ≠ '=')).tail) else next
    else if token = key then some (i, token) else next

/-- The part of a token before its first `=`, all of it when it has none. -/
def name (token : List Char) : List Char := token.takeWhile (· ≠ '=')

/-- The text after the first `=` of a token, the token itself when it has none. -/
def text (token : List Char) : List Char :=
  if '=' ∈ token then (token.dropWhile (· ≠ '=')).tail else token

/-- What the lookup is for: the text of the first token named `key`. -/
def lookup (key line : List Char) : Option (ℕ × List Char) :=
  ((line.splitOn ' ').zipIdx.find? (name ·.1 = key)).map fun t => (t.2, text t.1)

/-- What the lookup takes for a token named `key`. -/
def Accepts (key token : List Char) : Prop :=
  if '=' ∈ token then key <+: token else token = key

instance (key token : List Char) : Decidable (Accepts key token) :=
  inferInstanceAs (Decidable (ite _ _ _))

variable {key line token : List Char}

lemma accepts_of_name (h : name token = key) : Accepts key token := by
  rw [Accepts]
  split
  · exact h ▸ takeWhile_prefix _
  next hsep =>
  rw [← h, name, takeWhile_eq_self_iff.2]
  intro c hc
  exact decide_eq_true fun heq => hsep (heq ▸ hc)

/-- A key without terminator cannot reach beyond the token it is compared with. -/
lemma prefix_token (hkey : nul ∉ key) (rest : List Char) :
    key <+: token ++ nul :: rest ↔ key <+: token := by
  refine ⟨fun h => ?_, fun h => h.trans (prefix_append _ _)⟩
  refine prefix_of_prefix_length_le h (prefix_append _ _) (not_lt.1 fun hlt => hkey ?_)
  have hpre : token ++ [nul] <+: key := prefix_of_prefix_length_le (by simp) h (by simpa)
  exact hpre.subset (by simp)

/-- One round of the lookup. -/
lemma get_token (hkey : nul ∉ key) (htok : nul ∉ token) (n i : ℕ) (rest : List Char) :
    cmdlineGet key (n + 1) i (token ++ nul :: rest) =
      if Accepts key token then some (i, text token) else cmdlineGet key n (i + 1) rest := by
  have htake : (token ++ nul :: rest).takeWhile (· ≠ nul) = token := by
    rw [takeWhile_append_of_pos]
    · simp
    · intro c hc
      exact decide_eq_true fun heq => htok (heq ▸ hc)
  have hdrop : (token ++ nul :: rest).drop (token.length + 1) = rest := by simp
  rw [cmdlineGet, htake, hdrop]
  simp only [prefix_token hkey, Accepts, text]
  split <;> rfl

lemma no_space (h : line.dropWhile (· ≠ ' ') = []) : ' ' ∉ line := fun hmem => by
  simpa using dropWhile_eq_nil_iff.1 h _ hmem

lemma first_space {c : Char} {rest : List Char} (h : line.dropWhile (· ≠ ' ') = c :: rest) :
    ∃ token, line.takeWhile (· ≠ ' ') = token ∧ ' ' ∉ token ∧ line = token ++ ' ' :: rest := by
  have hhead := head_dropWhile_not (· ≠ ' ') (l := line) (by rw [h]; simp)
  obtain rfl : c = ' ' := by
    simpa only [h, head_cons, decide_eq_false_iff_not, not_not] using hhead
  refine ⟨_, rfl, fun hmem => by simpa using mem_takeWhile_imp hmem, ?_⟩
  rw [← h, takeWhile_append_dropWhile]

/-- A lookup in the parsed line searches the tokens of the line. The empty token that the
parsing does not count is not found either, the key not being empty. -/
lemma get_parse (hkey : nul ∉ key) (hne : key ≠ []) (hline : nul ∉ line) (i : ℕ) :
    cmdlineGet key (cmdlineParseArguments line).2 i (cmdlineParseArguments line).1 =
      (((line.splitOn ' ').zipIdx i).find? (Accepts key ·.1)).map fun t => (t.2, text t.1) := by
  fun_induction cmdlineParseArguments line generalizing i with
  | case1 pos h =>
    rw [splitOn_eq_singleton (no_space h), zipIdx_singleton]
    split
    · next h0 => simp [length_eq_zero_iff.1 h0, cmdlineGet, Accepts, hne.symm]
    · rw [get_token hkey hline, cmdlineGet]
      by_cases hacc : Accepts key pos <;> simp [hacc]
  | case2 pos c rest h r ih =>
    obtain ⟨token, htok, hspace, rfl⟩ := first_space h
    rw [mem_append, mem_cons, not_or, not_or] at hline
    rw [htok, get_token hkey hline.1, ih hline.2.2, splitOn_append_cons_self_of_not_mem hspace,
      zipIdx_cons]
    by_cases hacc : Accepts key token <;> simp [hacc]

/-- The two tests find the same token exactly when none is accepted in front of the first
one named by the key. -/
lemma find_eq_iff {tokens : List (List Char)} (i : ℕ) :
    ((tokens.zipIdx i).find? (Accepts key ·.1)).map (fun t => (t.2, text t.1)) =
        ((tokens.zipIdx i).find? (name ·.1 = key)).map (fun t => (t.2, text t.1)) ↔
      ∀ token ∈ tokens.takeWhile (name · ≠ key), ¬ Accepts key token := by
  induction tokens generalizing i with
  | nil => simp
  | cons t tokens ih =>
    rw [zipIdx_cons]
    by_cases hname : name t = key
    · simp [hname, accepts_of_name hname]
    by_cases hacc : Accepts key t
    · -- the index found by the exact test is a later one
      have hlater : ∀ a b, (a, b) ∈ tokens.zipIdx (i + 1) → b ≠ i := fun a b hmem =>
        Nat.ne_of_gt (le_snd_of_mem_zipIdx hmem)
      simp only [hname, hacc, find?_cons, decide_true, decide_false, Option.map_some]
      refine iff_of_false (fun heq => ?_) fun h => h t (by simp [hname]) hacc
      obtain ⟨u, hu, hfst⟩ := Option.map_eq_some_iff.1 heq.symm
      exact hlater u.1 u.2 (mem_of_find?_eq_some hu) (Prod.mk.inj hfst).1
    · simpa [hname, hacc] using ih (i + 1)

/-- **The lookup in the command line is exact** if and only if no token with an `=` that
only starts with the key stands in front of the first one named by the key. -/
theorem cmdline_get_iff (hkey : nul ∉ key) (hne : key ≠ []) (hline : nul ∉ line) :
    cmdlineGet key (cmdlineParseArguments line).2 0 (cmdlineParseArguments line).1 =
        lookup key line ↔
      ∀ token ∈ (line.splitOn ' ').takeWhile (name · ≠ key), ¬ Accepts key token := by
  rw [get_parse hkey hne hline, lookup, find_eq_iff]

/-- The two arguments of the initial ramdisk do not disturb each other. -/
theorem cmdline_get_ramdisk :
    let r := cmdlineParseArguments "rd_start=5 rd_size=7".toList
    cmdlineGet "rd_size".toList r.2 0 r.1 = lookup "rd_size".toList "rd_start=5 rd_size=7".toList :=
  (cmdline_get_iff (by decide) (by decide) (by decide)).2 (by decide)

/-- A longer name in front of the one asked for is taken for it. -/
theorem cmdline_get_longer_name :
    let r := cmdlineParseArguments "rd_sizes=5 rd_size=7".toList
    cmdlineGet "rd_size".toList r.2 0 r.1 = some (0, ['5']) ∧
      lookup "rd_size".toList "rd_sizes=5 rd_size=7".toList = some (1, ['7']) := by
  refine ⟨?_, by decide⟩
  rw [get_parse (by decide) (by decide) (by decide)]
  decide

end GzOS.Cmdline
