import DebianKernel.Lib.Lines

/-!
# Reading shell variable assignments

`shellvars_next` and `shellvars_quote` of the `linux-base` postinst. The scanner
reads a file of shell variable settings one statement at a time. It goes from one
special character to the next and keeps a stack of contexts (quotes, backticks,
brackets); a newline in the neutral context ends the statement.

A file handle is the list of the lines that are left. In a byte string `\s` is an
ASCII blank and `\w` an ASCII letter, digit or underscore.

Results:
1. `scanLoop_fuel`: the bound on the inner loop is never reached.
2. `shellvarsNext_alone`, `shellvarsNext_swap`: a statement does not depend on the
   lines after it.
3. `flatMap_statements`, `statements_replace_rest`: the statements of a file are the
   file, and are read again when the rest of the file changes.
-/

namespace DebianKernel.DiskId

open Text

/-! ## Special characters -/

/-- The second group of the scanner's regular expression. -/
inductive Special
  /-- One of the characters of the class, `[#` to `\s]`. -/
  | char (c : Char)
  /-- A backslash and the character after it. -/
  | escape (c : Char)
  | dollar
  /-- `$` and an open bracket. -/
  | dollarBracket (c : Char)
  deriving DecidableEq, Repr

def Special.text : Special → Text
  | .char c => [c]
  | .escape c => ['\\', c]
  | .dollar => ['$']
  | .dollarBracket c => ['$', c]

/-- The class of characters that are special by themselves. -/
def isSpecialChar (c : Char) : Bool :=
  c = '#' ∨ c = '`' ∨ c = '\'' ∨ c = '"' ∨ c = '(' ∨ c = ')' ∨ c = '{' ∨ c = '}' ∨ isSpace c

/-- The special text at the start, and what follows it. -/
def special : Text → Option (Special × Text)
  | [] => none
  | [c] =>
    if isSpecialChar c then some (.char c, []) else if c = '$' then some (.dollar, []) else none
  | c :: d :: t =>
    if isSpecialChar c then some (.char c, d :: t)
    else if c = '\\' then some (.escape d, t)
    else if c = '$' then
      if d = '(' ∨ d = '{' then some (.dollarBracket d, t) else some (.dollar, d :: t)
    else none

/-- The match of the inner loop: the text before the first special, the special
and the rest of the line. -/
def nextSpecial : Text → Option (Text × Special × Text)
  | [] => none
  | c :: t =>
    match special (c :: t) with
    | some (sp, rest) => some ([], sp, rest)
    | none => (nextSpecial t).map fun m => (c :: m.1, m.2)

/-! ## The scanner -/

/-- What can be on `@context` above the empty string at its bottom. -/
inductive Context
  | squote | dquote | backtick | paren | brace
  deriving DecidableEq, Repr

structure ScanState where
  /-- `@context` without its bottom, the top first. -/
  context : List Context
  inValue : Bool
  name : Option Text
  value : Option Text
  unhandled : Bool
  deriving DecidableEq, Repr

namespace ScanState

def initial : ScanState :=
  { context := [], inValue := false, name := none, value := none, unhandled := false }

/-- `$value .= $text`. -/
def append (st : ScanState) (text : Text) : ScanState :=
  { st with value := some (st.value.getD [] ++ text) }

/-- `$value .= $text if $in_value`. -/
def appendIn (st : ScanState) (text : Text) : ScanState :=
  if st.inValue then st.append text else st

def push (st : ScanState) (c : Context) : ScanState := { st with context := c :: st.context }

def pop (st : ScanState) : ScanState := { st with context := st.context.tail }

/-- The context is a quoted string. -/
def inQuotes (st : ScanState) : Bool :=
  st.context.head? = some .squote ∨ st.context.head? = some .dquote

end ScanState

/-- What the inner loop does after a special: go on behind it, skip a comment, or
leave the loop over the lines. -/
inductive Flow
  | next | comment | lastLine
  deriving DecidableEq, Repr

/-- The block for the neutral context: a blank ends the value, and anything else
after the value means that this is a command. -/
def endValue (st : ScanState) (sp : Special) : ScanState :=
  match sp with
  | .char c =>
    if isSpace c then { st with inValue := false }
    else if st.name.isSome && !st.inValue then { st with unhandled := true } else st
  | _ => if st.name.isSome && !st.inValue then { st with unhandled := true } else st

/-- The chain of conditions on a special outside single quotes and not an escape. -/
def handlePlain (st : ScanState) (sp : Special) : ScanState × Flow :=
  -- in backtick substitution
  if st.context.head? = some .backtick then
    (if sp = .char '`' then st.pop else st, .next)
  -- comment
  else if !st.inQuotes && sp = .char '#' then (st, .comment)
  -- start of backtick substitution
  else if sp = .char '`' then ({ st.push .backtick with unhandled := true }, .next)
  -- start of single/double-quoted string
  else if sp = .char '\'' ∧ !st.inQuotes then (st.push .squote, .next)
  else if sp = .char '"' ∧ !st.inQuotes then (st.push .dquote, .next)
  -- end of double-quoted string
  else if sp = .char '"' ∧ st.context.head? = some .dquote then (st.pop, .next)
  -- open bracket
  else if sp = .char '(' ∨ sp = .dollarBracket '(' then
    ({ st.push .paren with unhandled := true }, .next)
  else if sp = .dollarBracket '{' then ({ st.push .brace with unhandled := true }, .next)
  -- close bracket
  else if sp = .char ')' ∧ st.context.head? = some .paren then (st.pop, .next)
  else if sp = .char '}' ∧ st.context.head? = some .brace then (st.pop, .next)
  -- variable substitution
  else if sp = .dollar then ({ st with unhandled := true }, .next)
  else (st.appendIn sp.text, .next)

/-- The chain of conditions on a special, from the single-quoted string on. -/
def handleSpecial (st : ScanState) (sp : Special) : ScanState × Flow :=
  -- in single-quoted string only the terminating single-quote is special
  if st.context.head? = some .squote then
    if sp = .char '\'' then (st.pop, .next) else (st.append sp.text, .next)
  else
    match sp with
    | .escape c => (if c ≠ '\n' then st.appendIn [c] else st, .next)
    | sp => handlePlain st sp

/-- The body of the inner loop, for the text `pre` and the special after it. -/
def handle (st : ScanState) (pre : Text) (sp : Special) : ScanState × Flow :=
  let st := st.appendIn pre
  if st.context = [] ∧ sp = .char '\n' then ({ st with inValue := false }, .lastLine)
  else handleSpecial (if st.context = [] then endValue st sp else st) sp

/-- The rounds of the inner loop. True when it leaves the outer loop. -/
def scanLoop : Nat → ScanState → Text → ScanState × Bool
  | 0, st, _ => (st, false)
  | fuel + 1, st, line =>
    match nextSpecial line with
    | none => (st, false)
    | some (pre, sp, rest) =>
      match handle st pre sp with
      | (st, .next) => scanLoop fuel st rest
      -- ignore rest of the physical line, except the new-line
      | (st, .comment) => scanLoop fuel st (rest.dropWhile (· ≠ '\n'))
      | (st, .lastLine) => (st, true)

/-- The inner loop on the rest of a line. Every round takes a special. -/
def scanLine (st : ScanState) (line : Text) : ScanState × Bool := scanLoop line.length st line

def isNameStart (c : Char) : Bool :=
  ('A' ≤ c ∧ c ≤ 'Z') ∨ ('a' ≤ c ∧ c ≤ 'z') ∨ c = '_'

def isNameChar (c : Char) : Bool := isNameStart c ∨ ('0' ≤ c ∧ c ≤ '9')

/-- The match of `^\s*([A-Za-z_][A-Za-z0-9_]*)=`: the name and the rest. -/
def matchName (line : Text) : Option (Text × Text) :=
  match line.dropWhile isSpace with
  | [] => none
  | c :: t =>
    if isNameStart c then
      match t.dropWhile isNameChar with
      | '=' :: rest => some (c :: t.takeWhile isNameChar, rest)
      | _ => none
    else none

/-- The variable assignment at the start of the first line of a statement. -/
def startValue (st : ScanState) (line : Text) : ScanState × Text :=
  match matchName line with
  | some (name, rest) => ({ st with name := some name, value := some [], inValue := true }, rest)
  | none => (st, line)

/-- One line: the assignment when the flag `$first` is set, then the inner loop. -/
def nextLine (first : Bool) (st : ScanState) (line : Text) : ScanState × Bool :=
  let (st, rest) := if first then startValue st line else (st, line)
  scanLine st rest

/-- The loop over the lines. Returns the state, the text read and the lines left. -/
def nextLines : Bool → ScanState → Text → List Text → ScanState × Text × List Text
  | _, st, text, [] => (st, text, [])
  | first, st, text, line :: file =>
    match nextLine first st line with
    | (st, true) => (st, text ++ line, file)
    | (st, false) => nextLines false st (text ++ line) file

/-- What `shellvars_next` returns: the text of a statement and, unless there was
something it cannot handle, the name and the value. -/
structure Statement where
  text : Text
  name : Option Text
  value : Option Text
  deriving DecidableEq, Repr

/-- The name and the value are left out when there was a substitution or a command. -/
def ScanState.statement (st : ScanState) (text : Text) : Statement :=
  if st.unhandled then ⟨text, none, none⟩ else ⟨text, st.name, st.value⟩

/-- `shellvars_next`. `none` at the end of the file. -/
def shellvarsNext (file : List Text) : Option (Statement × List Text) :=
  match nextLines true .initial [] file with
  | (st, text, file) => if text = [] then none else some (st.statement text, file)

/-- The statements that successive calls of `shellvars_next` return. Each call
reads a line at least, so `file.length` calls reach the end. -/
def shellvarsLoop : Nat → List Text → List Statement
  | 0, _ => []
  | fuel + 1, file =>
    match shellvarsNext file with
    | none => []
    | some (stmt, file) => stmt :: shellvarsLoop fuel file

def statements (file : Text) : List Statement :=
  shellvarsLoop (lines file).length (lines file)

/-- `shellvars_quote`. In the replacement part `'\''` of the substitution the
backslash is taken away, so each single quote becomes three. -/
def shellvarsQuote (value : Text) : Text :=
  ['\''] ++ value.flatMap (fun c => if c = '\'' then ['\'', '\'', '\''] else [c]) ++ ['\'']

namespace ShellVarsLemmas

/-! ### Specials -/

theorem special_text {t rest : Text} {sp : Special} (h : special t = some (sp, rest)) :
    t = sp.text ++ rest := by
  unfold special at h
  split at h
  · cases h
  · split at h
    · cases h; rfl
    · split at h
      · next hc => cases h; rw [hc]; rfl
      · cases h
  · split at h
    · cases h; rfl
    · split at h
      · next hc => cases h; rw [hc]; rfl
      · split at h
        · next hc =>
          split at h <;> cases h <;> rw [hc] <;> rfl
        · cases h

theorem nextSpecial_text {t pre rest : Text} {sp : Special}
    (h : nextSpecial t = some (pre, sp, rest)) : t = pre ++ sp.text ++ rest := by
  induction t generalizing pre with
  | nil => cases h
  | cons c t ih =>
    rw [nextSpecial] at h
    cases hsp : special (c :: t) with
    | some m =>
      rw [hsp] at h
      cases h
      exact special_text hsp
    | none =>
      rw [hsp] at h
      obtain ⟨⟨pre', m⟩, hm, heq⟩ := Option.map_eq_some_iff.mp h
      cases heq
      rw [ih hm]
      rfl

theorem special_text_ne_nil (sp : Special) : sp.text ≠ [] := by
  cases sp <;> exact List.cons_ne_nil _ _

theorem nextSpecial_length {t pre rest : Text} {sp : Special}
    (h : nextSpecial t = some (pre, sp, rest)) : rest.length < t.length := by
  have hpos := List.length_pos_iff.mpr (special_text_ne_nil sp)
  rw [nextSpecial_text h, List.length_append, List.length_append]
  omega

theorem nextSpecial_of_special {t rest : Text} {sp : Special} (h : special t = some (sp, rest)) :
    nextSpecial t = some ([], sp, rest) := by
  cases t with
  | nil => cases h
  | cons c t => rw [nextSpecial, h]

theorem nextSpecial_char {c : Char} {t : Text} (h : special (c :: t) = none) :
    nextSpecial (c :: t) = (nextSpecial t).map fun m => (c :: m.1, m.2) := by
  rw [nextSpecial, h]

/-! ### Fuel -/

theorem dropWhile_length_le (p : Char → Bool) (t : Text) : (t.dropWhile p).length ≤ t.length :=
  (List.dropWhile_suffix p).length_le

/-- The length of the line bounds the number of rounds. -/
theorem scanLoop_fuel {st : ScanState} {line : Text} {n m : Nat} (hn : line.length ≤ n)
    (hm : line.length ≤ m) : scanLoop n st line = scanLoop m st line := by
  induction n generalizing st line m with
  | zero =>
    obtain rfl := List.length_eq_zero_iff.mp (Nat.le_zero.mp hn)
    cases m <;> rfl
  | succ n ih =>
    cases m with
    | zero =>
      obtain rfl := List.length_eq_zero_iff.mp (Nat.le_zero.mp hm)
      rfl
    | succ m =>
      rw [scanLoop, scanLoop]
      cases hs : nextSpecial line with
      | none => rfl
      | some found =>
        obtain ⟨pre, sp, rest⟩ := found
        have hlt := nextSpecial_length hs
        have hdrop := dropWhile_length_le (· ≠ '\n') rest
        simp only
        split
        · exact ih (by omega) (by omega)
        · exact ih (by omega) (by omega)
        · rfl

theorem scanLine_none {st : ScanState} {line : Text} (h : nextSpecial line = none) :
    scanLine st line = (st, false) := by
  unfold scanLine
  cases line.length with
  | zero => rfl
  | succ n => rw [scanLoop, h]

/-- One round of the inner loop. -/
theorem scanLine_special {st : ScanState} {line pre rest : Text} {sp : Special}
    (h : nextSpecial line = some (pre, sp, rest)) :
    scanLine st line = match handle st pre sp with
      | (st, .next) => scanLine st rest
      | (st, .comment) => scanLine st (rest.dropWhile (· ≠ '\n'))
      | (st, .lastLine) => (st, true) := by
  have hlt := nextSpecial_length h
  have hdrop := dropWhile_length_le (· ≠ '\n') rest
  rw [scanLine, scanLoop_fuel (m := rest.length + line.length + 1) (Nat.le_refl _) (by omega),
    scanLoop, h]
  simp only
  split
  · exact scanLoop_fuel (by omega) (by omega)
  · exact scanLoop_fuel (by omega) (by omega)
  · rfl

/-! ### Lines -/

/-- A statement takes lines from the front of the file. -/
theorem nextLines_used {first : Bool} {st st' : ScanState} {text text' : Text}
    {file rest : List Text} (h : nextLines first st text file = (st', text', rest)) :
    ∃ used, file = used ++ rest ∧ text' = text ++ used.flatten ∧
      nextLines first st text used = (st', text', []) := by
  induction file generalizing first st text with
  | nil =>
    cases h
    exact ⟨[], rfl, (List.append_nil _).symm, rfl⟩
  | cons line file ih =>
    rw [nextLines] at h
    cases hs : nextLine first st line with
    | mk st₁ last =>
      rw [hs] at h
      cases last with
      | true =>
        cases h
        refine ⟨[line], rfl, by rw [List.flatten_singleton], ?_⟩
        rw [nextLines, hs]
      | false =>
        obtain ⟨used, rfl, rfl, hused⟩ := ih h
        refine ⟨line :: used, rfl, by rw [List.flatten_cons, List.append_assoc], ?_⟩
        rw [nextLines, hs]
        exact hused

/-- A file with lines loses one at least. -/
theorem nextLines_length {first : Bool} {st st' : ScanState} {text text' line : Text}
    {file rest : List Text} (h : nextLines first st text (line :: file) = (st', text', rest)) :
    rest.length ≤ file.length := by
  rw [nextLines] at h
  cases hs : nextLine first st line with
  | mk st₁ last =>
    rw [hs] at h
    cases last with
    | true =>
      cases h
      exact Nat.le_refl _
    | false =>
      obtain ⟨used, rfl, -, -⟩ := nextLines_used h
      rw [List.length_append]
      exact Nat.le_add_left _ _

/-- When lines are left, other lines can stand in their place. -/
theorem nextLines_swap {first : Bool} {st st' : ScanState} {text text' : Text}
    {used rest : List Text} (h : nextLines first st text (used ++ rest) = (st', text', rest))
    (hne : rest ≠ []) (more : List Text) :
    nextLines first st text (used ++ more) = (st', text', more) := by
  induction used generalizing first st text with
  | nil =>
    cases rest with
    | nil => exact absurd rfl hne
    | cons line rest => exact absurd (nextLines_length h) (Nat.not_succ_le_self _)
  | cons line used ih =>
    rw [List.cons_append, nextLines] at h ⊢
    cases hs : nextLine first st line with
    | mk st₁ last =>
      rw [hs] at h
      cases last with
      | true =>
        simp only [Prod.mk.injEq] at h ⊢
        obtain ⟨rfl, rfl, hused⟩ := h
        obtain rfl := List.self_eq_append_left.mp hused.symm
        exact ⟨rfl, rfl, rfl⟩
      | false => exact ih h

@[simp] theorem statement_text (st : ScanState) (text : Text) :
    (st.statement text).text = text := by
  unfold ScanState.statement
  split <;> rfl

theorem shellvarsNext_eq_some {file rest : List Text} {stmt : Statement}
    (h : shellvarsNext file = some (stmt, rest)) :
    ∃ st, nextLines true .initial [] file = (st, stmt.text, rest) ∧ stmt.text ≠ [] ∧
      stmt = st.statement stmt.text := by
  rw [shellvarsNext] at h
  cases hn : nextLines true .initial [] file with
  | mk st m =>
    obtain ⟨text, left⟩ := m
    rw [hn] at h
    simp only at h
    split at h
    · cases h
    · next hne =>
      cases h
      rw [statement_text]
      exact ⟨st, rfl, hne, rfl⟩

theorem shellvarsNext_of_nextLines {file rest : List Text} {st : ScanState} {text : Text}
    (h : nextLines true .initial [] file = (st, text, rest)) (hne : text ≠ []) :
    shellvarsNext file = some (st.statement text, rest) := by
  rw [shellvarsNext, h]
  exact if_neg hne

/-- The lines that a statement takes. It is the same statement without the rest. -/
theorem shellvarsNext_used {file rest : List Text} {stmt : Statement}
    (h : shellvarsNext file = some (stmt, rest)) :
    ∃ used, file = used ++ rest ∧ stmt.text = used.flatten ∧
      shellvarsNext used = some (stmt, []) := by
  obtain ⟨st, hn, hne, hstmt⟩ := shellvarsNext_eq_some h
  obtain ⟨used, hfile, htext, hused⟩ := nextLines_used hn
  refine ⟨used, hfile, by rw [htext, List.nil_append], ?_⟩
  rw [shellvarsNext_of_nextLines hused hne, ← hstmt]

/-- The lines after a statement do not matter, when there are any. -/
theorem shellvarsNext_swap {used rest : List Text} {stmt : Statement}
    (h : shellvarsNext (used ++ rest) = some (stmt, rest)) (hne : rest ≠ []) (more : List Text) :
    shellvarsNext (used ++ more) = some (stmt, more) := by
  obtain ⟨st, hn, htext, hstmt⟩ := shellvarsNext_eq_some h
  rw [shellvarsNext_of_nextLines (nextLines_swap hn hne more) htext, ← hstmt]

/-- The text of a statement, read alone, is that statement. -/
theorem shellvarsNext_alone {file : Text} {rest : List Text} {stmt : Statement}
    (h : shellvarsNext (lines file) = some (stmt, rest)) :
    shellvarsNext (lines stmt.text) = some (stmt, []) := by
  obtain ⟨used, hfile, htext, hused⟩ := shellvarsNext_used h
  rwa [htext, lines_flatten_prefix hfile]

/-! ### All statements -/

/-- A call of `shellvars_next` on a text that is not empty takes a statement from its
front. -/
theorem shellvarsNext_cut {t : Text} (h : t ≠ []) :
    ∃ stmt t', shellvarsNext (lines t) = some (stmt, lines t') ∧ t = stmt.text ++ t' ∧
      stmt.text ≠ [] := by
  cases hn : nextLines true .initial [] (lines t) with
  | mk st m =>
    obtain ⟨text, rest⟩ := m
    obtain ⟨used, hused, htext, -⟩ := nextLines_used hn
    have ht : t = text ++ rest.flatten := by
      rw [htext, List.nil_append, ← List.flatten_append, ← hused, flatten_lines]
    have hne : text ≠ [] := by
      rintro rfl
      rw [List.nil_append] at ht
      have hrest := lines_flatten_suffix hused
      rw [← ht] at hrest
      cases hl : lines t with
      | nil => exact absurd hl (lines_ne_nil h)
      | cons line file =>
        rw [hl] at hn hrest
        have hlen := nextLines_length hn
        rw [← hrest, List.length_cons] at hlen
        exact absurd hlen (Nat.not_succ_le_self _)
    refine ⟨st.statement text, rest.flatten, ?_, by rw [statement_text]; exact ht,
      by rw [statement_text]; exact hne⟩
    rw [lines_flatten_suffix hused]
    exact shellvarsNext_of_nextLines hn hne

/-- Every call reads a line, so the number of lines bounds the number of calls. -/
theorem shellvarsLoop_fuel {file : List Text} {n m : Nat} (hn : file.length ≤ n)
    (hm : file.length ≤ m) : shellvarsLoop n file = shellvarsLoop m file := by
  induction n generalizing file m with
  | zero =>
    obtain rfl := List.length_eq_zero_iff.mp (Nat.le_zero.mp hn)
    cases m <;> rfl
  | succ n ih =>
    cases m with
    | zero =>
      obtain rfl := List.length_eq_zero_iff.mp (Nat.le_zero.mp hm)
      rfl
    | succ m =>
      rw [shellvarsLoop, shellvarsLoop]
      cases hs : shellvarsNext file with
      | none => rfl
      | some found =>
        obtain ⟨stmt, rest⟩ := found
        cases file with
        | nil => cases hs
        | cons line file =>
          obtain ⟨st, hst, -, -⟩ := shellvarsNext_eq_some hs
          have hlen := nextLines_length hst
          rw [List.length_cons] at hn hm
          exact congrArg (stmt :: ·) (ih (by omega) (by omega))

theorem statements_cons {t t' : Text} {stmt : Statement}
    (h : shellvarsNext (lines t) = some (stmt, lines t')) :
    statements t = stmt :: statements t' := by
  have hfuel : (lines t).length ≤ (lines t').length + (lines t).length + 1 := by omega
  unfold statements
  rw [shellvarsLoop_fuel (Nat.le_refl _) hfuel, shellvarsLoop, h]
  exact congrArg (stmt :: ·) (shellvarsLoop_fuel (by omega) (Nat.le_refl _))

/-- The statements of a text are the text. -/
theorem flatMap_statements (t : Text) : (statements t).flatMap Statement.text = t := by
  by_cases h : t = []
  · rw [h]
    rfl
  · obtain ⟨stmt, t', hnext, ht, hne⟩ := shellvarsNext_cut h
    have hlen : t'.length < t.length := by
      have hpos := List.length_pos_iff.mpr hne
      rw [ht, List.length_append]
      omega
    rw [statements_cons hnext, List.flatMap_cons, flatMap_statements t', ← ht]
termination_by t.length

/-- A statement in front of a text is read again when the text behind it changes, if one
is empty only when the other is. -/
theorem statements_replace_rest {t t' u : Text} {stmt : Statement}
    (h : shellvarsNext (lines t) = some (stmt, lines t')) (ht : t = stmt.text ++ t')
    (hterm : Terminated t) (hu : t' = [] → u = []) :
    statements (stmt.text ++ u) = stmt :: statements u := by
  by_cases hnil : t' = []
  · rw [hu hnil]
    subst hnil
    rw [List.append_nil] at ht
    rw [List.append_nil, ← ht]
    exact statements_cons h
  · -- the statement ends before the end of the file, so with its last line
    obtain ⟨used, hused, htext, -⟩ := shellvarsNext_used h
    have hlines : ∀ l ∈ used, IsLine l := fun l hl =>
      isLine_of_mem_lines hterm (by rw [hused]; exact List.mem_append_left _ hl)
    have hstmt : Terminated stmt.text := htext ▸ terminated_flatten hlines
    rw [hused] at h
    have hswap := shellvarsNext_swap h (lines_ne_nil hnil) (lines u)
    refine statements_cons ?_
    rw [lines_append hstmt, htext, lines_flatten hlines]
    exact hswap

theorem shellvarsNext_terminated {t t' : Text} {stmt : Statement}
    (h : shellvarsNext (lines t) = some (stmt, lines t')) (hterm : Terminated t) :
    Terminated stmt.text ∧ Terminated t' := by
  obtain ⟨used, hused, htext, -⟩ := shellvarsNext_used h
  have hlines : ∀ l ∈ used ++ lines t', IsLine l := fun l hl =>
    isLine_of_mem_lines hterm (by rw [hused]; exact hl)
  refine ⟨htext ▸ terminated_flatten fun l hl => hlines l (List.mem_append_left _ hl), ?_⟩
  have hrest := terminated_flatten fun l hl => hlines l (List.mem_append_right _ hl)
  rwa [flatten_lines] at hrest

end ShellVarsLemmas

end DebianKernel.DiskId
