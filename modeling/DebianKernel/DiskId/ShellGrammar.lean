import DebianKernel.DiskId.ShellScan

/-!
# How the shell reads an assignment

The part of the shell grammar that `shellvars_next` is about: the text of one variable
assignment with no command word. A word has unquoted, single-quoted, double-quoted and
backslash-escaped characters; a dollar sign or a backtick is an expansion and is not
read here; a comment starts only where a word could start. Nothing else may stand behind the
word: neither a `;` or `&` that ends the command nor a redirection is read here.

This is what the scanner is for. It is not taken from the postinst.

Results: `shellAssignment_eq_some`, the assignment behind the blanks at the start, and
the steps of `shellWord`.
-/

namespace DebianKernel.DiskId

open Text ShellVarsLemmas ShellScanLemmas

/-! ## Words -/

/-- A blank of the shell. -/
def isBlank (c : Char) : Bool := c = ' ' ∨ c = '\t'

/-- The first character of a control or redirection operator. -/
def isOperator (c : Char) : Bool :=
  c = ';' ∨ c = '&' ∨ c = '|' ∨ c = '<' ∨ c = '>' ∨ c = '(' ∨ c = ')'

/-- Behind a word there are only blanks, a comment and the newline at the end. -/
def shellEnd : Text → Bool
  | [] => true
  | c :: t =>
    if c = '\n' then t = []
    else if c = '#' then (t.dropWhile (· ≠ '\n')).length ≤ 1
    else if c = '\\' then
      match t with
      | [] => false
      | d :: t => d = '\n' && shellEnd t
    else isBlank c && shellEnd t

/-- The rest of a word, after quote removal, when nothing but `shellEnd` follows it. -/
def shellWord : Quoting → Text → Option Text
  | .none, [] => some []
  | .single, [] => none
  | .double, [] => none
  | .none, c :: t =>
    if c = '\\' then
      match t with
      | [] => none
      | d :: t => if d = '\n' then shellWord .none t else (shellWord .none t).map (d :: ·)
    else if c = '\'' then shellWord .single t
    else if c = '"' then shellWord .double t
    else if c = '$' ∨ c = '`' then none
    else if c = '\n' ∨ isBlank c ∨ isOperator c then
      if shellEnd (c :: t) then some [] else none
    else (shellWord .none t).map (c :: ·)
  | .single, c :: t => if c = '\'' then shellWord .none t else (shellWord .single t).map (c :: ·)
  | .double, c :: t =>
    if c = '\\' then
      match t with
      | [] => none
      | d :: t =>
        -- a backslash is literal before all other characters
        if d = '\n' then shellWord .double t
        else if d = '$' ∨ d = '`' ∨ d = '"' ∨ d = '\\' then (shellWord .double t).map (d :: ·)
        else (shellWord .double t).map (['\\', d] ++ ·)
    else if c = '"' then shellWord .none t
    else if c = '$' ∨ c = '`' then none
    else (shellWord .double t).map (c :: ·)

/-- The name and the value of a text that is one assignment, with no terminator and no
redirection behind the word. -/
def shellAssignment (t : Text) : Option (Text × Text) :=
  match t.dropWhile isBlank with
  | [] => none
  | c :: s =>
    if isNameStart c then
      match s.dropWhile isNameChar with
      | '=' :: w => (shellWord .none w).map fun value => (c :: s.takeWhile isNameChar, value)
      | _ => none
    else none

namespace ShellGrammarLemmas

theorem isSpace_of_isBlank {c : Char} (h : isBlank c = true) : isSpace c = true := by
  simp only [isBlank, decide_eq_true_eq] at h
  rcases h with rfl | rfl <;> decide

theorem isBlank_of_isNameStart {c : Char} (h : isNameStart c = true) : isBlank c = false := by
  by_contra hb
  rw [Bool.not_eq_false] at hb
  exact absurd (isSpace_of_isBlank hb) (by rw [isSpace_of_isNameStart h]; decide)

theorem shellAssignment_blank {c : Char} (h : isBlank c = true) (t : Text) :
    shellAssignment (c :: t) = shellAssignment t := by
  unfold shellAssignment
  rw [List.dropWhile_cons_of_pos h]

theorem shellAssignment_name {name : Text} (hname : IsName name) (w : Text) :
    shellAssignment (name ++ '=' :: w) = (shellWord .none w).map fun value => (name, value) := by
  obtain ⟨c, s, rfl, hstart, hs⟩ := hname
  obtain ⟨htake, hdrop⟩ := takeWhile_append_of_neg hs (c := '=') (by decide) w
  unfold shellAssignment
  rw [List.cons_append, List.dropWhile_cons_of_neg (by rw [isBlank_of_isNameStart hstart]; decide)]
  simp only [hstart, if_true, hdrop, htake]

/-- The assignment of a text that the scanner sees as one. -/
theorem shellAssignment_eq_some {p name w value : Text} (hp : ∀ c ∈ p, isSpace c = true)
    (hname : IsName name) :
    shellAssignment (p ++ name ++ '=' :: w) = some (name, value) ↔
      (∀ c ∈ p, isBlank c = true) ∧ shellWord .none w = some value := by
  induction p with
  | nil =>
    rw [List.nil_append, shellAssignment_name hname]
    simp
  | cons c p ih =>
    rw [List.forall_mem_cons] at hp ⊢
    cases hc : isBlank c with
    | true =>
      rw [List.cons_append, List.cons_append, shellAssignment_blank hc, ih hp.2]
      simp
    | false =>
      have hstart : isNameStart c = false := by
        by_contra hs
        rw [Bool.not_eq_false] at hs
        rw [isSpace_of_isNameStart hs] at hp
        exact absurd hp.1 (by decide)
      unfold shellAssignment
      rw [List.cons_append, List.cons_append, List.dropWhile_cons_of_neg (by rw [hc]; decide)]
      simp [hstart]

/-! ### Steps of `shellWord` -/

theorem shellWord_escape_none (d : Char) (t : Text) :
    shellWord .none ('\\' :: d :: t) =
      if d = '\n' then shellWord .none t else (shellWord .none t).map (d :: ·) := rfl

theorem shellWord_escape_double (d : Char) (t : Text) :
    shellWord .double ('\\' :: d :: t) =
      if d = '\n' then shellWord .double t
      else if d = '$' ∨ d = '`' ∨ d = '"' ∨ d = '\\' then (shellWord .double t).map (d :: ·)
      else (shellWord .double t).map (['\\', d] ++ ·) := rfl

theorem shellWord_single (c : Char) (t : Text) :
    shellWord .single (c :: t) =
      if c = '\'' then shellWord .none t else (shellWord .single t).map (c :: ·) := by
  rw [shellWord]

theorem shellWord_double {c : Char} (hb : c ≠ '\\') (t : Text) :
    shellWord .double (c :: t) =
      if c = '"' then shellWord .none t
      else if c = '$' ∨ c = '`' then none
      else (shellWord .double t).map (c :: ·) := by
  conv => lhs; unfold shellWord
  rw [if_neg hb]

theorem shellWord_none {c : Char} (hb : c ≠ '\\') (t : Text) :
    shellWord .none (c :: t) =
      if c = '\'' then shellWord .single t
      else if c = '"' then shellWord .double t
      else if c = '$' ∨ c = '`' then none
      else if c = '\n' ∨ isBlank c ∨ isOperator c then
        if shellEnd (c :: t) then some [] else none
      else (shellWord .none t).map (c :: ·) := by
  conv => lhs; unfold shellWord
  rw [if_neg hb]

end ShellGrammarLemmas

end DebianKernel.DiskId
