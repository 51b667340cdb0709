import DebianKernel.DiskId.Kernel
import DebianKernel.Lib.Lines

/-!
# lilo.conf

`lilo_tokenize` matches one regular expression again and again on each line. What the
expression does not match at all ends the loop on that line, and a continued token
keeps its text in `$text` until the next line adds to it.

Results:
1. `lines_inQuote`: `$in_quote` is never set.
2. `step_written`, `foldl_written`: what a match, and a run of matches, does to the text
   that is kept.
3. `lilo_lossless_iff`: the tokens hold the whole file, and the updates with an empty map
   write it back, if and only if the file is `Lossless`.
-/

namespace DebianKernel.DiskId

open Text

/-! ## The matches -/

/-- What the groups of the expression matched: an equals sign, a quoted text, a word, or
nothing behind the blanks and the comment. The flag tells that a backslash at the end of
the line continues the token. -/
inductive LiloItem
  | equals
  | quoted (body : Text) (continued : Bool)
  | word (body : Text) (continued : Bool)
  | blank
  deriving DecidableEq

/-- A match: `$&` and the groups. -/
structure LiloMatch where
  text : Text
  item : LiloItem
  deriving DecidableEq

/-- The match of `(?:[^\s\#="\\] | \\[^\r\n])*` and the text behind it. -/
def wordSpan : Text → Text × Text
  | [] => ([], [])
  | '\\' :: c :: t =>
    if c = '\r' ∨ c = '\n' then ([], '\\' :: c :: t)
    else ('\\' :: c :: (wordSpan t).1, (wordSpan t).2)
  | c :: t =>
    if isSpace c ∨ c = '#' ∨ c = '=' ∨ c = '"' ∨ c = '\\' then ([], c :: t)
    else (c :: (wordSpan t).1, (wordSpan t).2)

/-- The match of `\\\r?\n` and the text behind it. -/
def lineBreak : Text → Option (Text × Text)
  | '\\' :: '\n' :: t => some (['\\', '\n'], t)
  | '\\' :: '\r' :: '\n' :: t => some (['\\', '\r', '\n'], t)
  | _ => none

/-- The text in front of `\\\r?\n` at the end of a line. -/
def quoteBreak (t : Text) : Option Text :=
  match t.reverse with
  | '\n' :: '\\' :: body => some body.reverse
  | '\n' :: '\r' :: '\\' :: body => some body.reverse
  | _ => none

/-- The groups behind the blanks: the match and the text behind it. In a quoted text the
first alternative of `[^"] | \\[\\"n]` matches a backslash too, so the text ends at the first
quote, or else at the end of the line. -/
def liloGroups (t : Text) : LiloMatch × Text :=
  match t with
  | '#' :: r => (⟨'#' :: r, .blank⟩, [])
  | '=' :: r => (⟨['='], .equals⟩, r)
  | '"' :: r =>
    if '"' ∈ r then
      let body := r.takeWhile (· ≠ '"')
      (⟨'"' :: body ++ ['"'], .quoted body false⟩, (r.dropWhile (· ≠ '"')).tail)
    else match quoteBreak r with
      | some body => (⟨'"' :: r, .quoted body true⟩, [])
      | none => (⟨[], .blank⟩, t)
  | _ =>
    let (body, r) := wordSpan t
    if body = [] then (⟨[], .blank⟩, t)
    else match lineBreak r with
      | some (brk, rest) => (⟨body ++ brk, .word body true⟩, rest)
      | none => (⟨body, .word body false⟩, r)

/-- The match of the expression at the start of the text, and the text behind it. -/
def liloMatch (t : Text) : LiloMatch × Text :=
  let (m, rest) := liloGroups (t.dropWhile isSpace)
  (⟨t.takeWhile isSpace ++ m.text, m.item⟩, rest)

/-- The matches on a line, up to the first empty one, and the text behind them. The number
of matches is bounded by the length of the line. -/
def liloMatchesFrom : Nat → Text → List LiloMatch × Text
  | 0, t => ([], t)
  | bound + 1, t =>
    if (liloMatch t).1.text = [] then ([], t)
    else
      let (ms, rest) := liloMatchesFrom bound (liloMatch t).2
      ((liloMatch t).1 :: ms, rest)

/-- The matches of the loop on a line. -/
def liloMatches (line : Text) : List LiloMatch := (liloMatchesFrom line.length line).1

/-- The text of a line at which the loop stops. -/
def liloRest (line : Text) : Text := (liloMatchesFrom line.length line).2

/-! ## The tokens -/

/-- A pair `[$text, $token]`. -/
structure LiloToken where
  text : Text
  value : Option Text
  deriving DecidableEq

/-- The variables of `lilo_tokenize`. -/
structure LiloState where
  tokens : List LiloToken
  text : Text
  token : Option Text
  inQuote : Bool

/-- `$text =~ /(?:^|[^\\])\$/`. The flag tells that the character before the text is a
backslash. -/
def hasExpansion : Bool → Text → Bool
  | _, [] => false
  | escaped, c :: t => (c = '$' && !escaped) || hasExpansion (c = '\\') t

/-- `s/\\(.)/…/g`, with the image of the second character. -/
def unescape (image : Char → Char) : Text → Text
  | '\\' :: c :: t =>
    if c = '\n' then '\\' :: c :: unescape image t else image c :: unescape image t
  | c :: t => c :: unescape image t
  | [] => []

namespace LiloState

def init : LiloState := ⟨[], [], none, false⟩

/-- The value that is pushed with the text. -/
def value (s : LiloState) : Option Text :=
  if hasExpansion false s.text then none
  else s.token.map (unescape fun c => if s.inQuote ∧ c = 'n' then '\n' else c)

/-- The end of a token. -/
def push (s : LiloState) : LiloState := ⟨s.tokens ++ [⟨s.text, s.value⟩], [], none, false⟩

/-- The branch of a quoted text, up to `$cont`. -/
def quote (s : LiloState) (text body : Text) : LiloState :=
  if s.inQuote then
    { s with text := s.text ++ text.drop 1, token := some (s.token.getD [] ++ " " ++ body) }
  else { s with text := text, token := some body }

/-- The body of the loop over the matches. -/
def step (s : LiloState) (m : LiloMatch) : LiloState :=
  match m.item with
  | .equals => push { s with text := m.text, token := some ['='] }
  | .quoted body continued =>
    if continued then s.quote m.text body else push (s.quote m.text body)
  | .word body continued =>
    let s := { s with text := s.text ++ m.text, token := some (s.token.getD [] ++ body) }
    if continued then s else push s
  | .blank =>
    let s := { s with text := s.text ++ m.text }
    if m.text = [] then s else push s

/-- The body of the loop over the lines. -/
def readLine (s : LiloState) (line : Text) : LiloState :=
  if s.inQuote then
    let blanks := line.takeWhile fun c => c = ' ' ∨ c = '\t'
    (liloMatches ('"' :: line.drop blanks.length)).foldl step { s with text := s.text ++ blanks }
  else (liloMatches line).foldl step s

end LiloState

/-- `lilo_tokenize`. -/
def liloTokenize (file : Text) : List LiloToken :=
  ((lines file).foldl LiloState.readLine .init).tokens

/-! ## The updates -/

/-- `/^name$/`, where the dollar sign allows for a newline. -/
def wholeMatch (name t : Text) : Bool := t = name ∨ t = name ++ ['\n']

/-- `$in_generic` after an item. -/
def liloGeneric (generic : Bool) (name value : Text) : Bool :=
  if name = "image" then wholeMatch "/vmlinuz" value || wholeMatch "/vmlinuz.old" value
  else generic

/-- `$new_value` for an item. The outer option is `none` when `id_to_path` dies. -/
def liloNewValue (map : DeviceMap) (generic : Bool) (name value : Text) : Option (Option Text) :=
  if name = "image" ∨ !generic then some none
  else if name = "boot" then
    match map value with
    | some id => if id = [] ∨ id = "0" then some (some id) else (idToPath id).map some
    | none => some none
  else if name = "root" then some (map value)
  else if wholeMatch "addappend" name || wholeMatch "append" name || wholeMatch "literal" name then
    some (kernelUpdate value map)
  else some none

/-- `s/\\/\\\\/g`. -/
def doubleBackslashes (t : Text) : Text := t.flatMap fun c => if c = '\\' then ['\\', '\\'] else [c]

/-- The function that `_lilo_update` gets: name, old and new value to the text. -/
abbrev LiloReplace := Text → Text → Text → Option Text

/-- The text that is printed for an item `name=value`. -/
def liloItemText (replace : LiloReplace) (old name value : Text) : Option Text → Text
  | none => old
  | some new =>
    let new := doubleBackslashes new
    (replace name value new).getD
      ("\n# " ++ name ++ " = " ++ value ++ "\n" ++ name ++ " = \"" ++ new ++ "\"\n")

/-- The loop of `_lilo_update` over the tokens. -/
def liloUpdateLoop (map : DeviceMap) (replace : LiloReplace) : Bool → List LiloToken → Option Text
  | generic, t₁ :: t₂ :: t₃ :: rest =>
    if t₂.value = some ['='] then
      match t₁.value, t₃.value with
      | some name, some value => do
        let new ← liloNewValue map generic name value
        let written ← liloUpdateLoop map replace (liloGeneric generic name value) rest
        pure (liloItemText replace (t₁.text ++ (t₂.text ++ t₃.text)) name value new ++ written)
      | _, _ => (liloUpdateLoop map replace generic rest).map (t₁.text ++ (t₂.text ++ t₃.text) ++ ·)
    else (liloUpdateLoop map replace generic (t₂ :: t₃ :: rest)).map (t₁.text ++ ·)
  | generic, t₁ :: rest => (liloUpdateLoop map replace generic rest).map (t₁.text ++ ·)
  | _, [] => some []

/-- `_lilo_update`. -/
def liloUpdateWith (replace : LiloReplace) (old : Text) (map : DeviceMap) : Option Text :=
  liloUpdateLoop map replace true (liloTokenize old)

/-- `lilo_update`. -/
def liloUpdate (old : Text) (map : DeviceMap) : Option Text :=
  liloUpdateWith (fun _ _ _ => none) old map

/-- `elilo_update`. -/
def eliloUpdate (old : Text) (map : DeviceMap) : Option Text :=
  liloUpdateWith
    (fun name value new =>
      if name = "boot" then some ("# boot=" ++ value ++ "\nboot=" ++ new ++ ['\n']) else none)
    old map

/-! ## What is lost -/

namespace LiloItem

/-- The token goes on in the next line. -/
def continued : LiloItem → Bool
  | quoted _ continued => continued
  | word _ continued => continued
  | _ => false

/-- The text is added to the text in front of it, and does not replace it. -/
def addsText : LiloItem → Bool
  | word _ _ => true
  | blank => true
  | _ => false

end LiloItem

/-- Whatever follows a continued match adds to it, and the last match is not continued.
The flag tells that a continued match stands in front. -/
def Joined : Bool → List LiloMatch → Prop
  | pending, [] => pending = false
  | pending, m :: ms => (pending = true → m.item.addsText = true) ∧ Joined m.item.continued ms

/-- Each line is matched to its end, and all continued matches are joined. -/
def Lossless (file : Text) : Prop :=
  (∀ line ∈ lines file, liloRest line = []) ∧ Joined false ((lines file).flatMap liloMatches)

namespace LiloLemmas

/-! ### Matches -/

theorem wordSpan_append (t : Text) : (wordSpan t).1 ++ (wordSpan t).2 = t := by
  fun_induction wordSpan t with
  | case1 => rfl
  | case2 => rfl
  | case3 c t h ih => exact congrArg (fun r => '\\' :: c :: r) ih
  | case4 => rfl
  | case5 c t _ h ih => exact congrArg (c :: ·) ih

theorem lineBreak_eq_some {t brk rest : Text} (h : lineBreak t = some (brk, rest)) :
    t = brk ++ rest := by
  unfold lineBreak at h
  split at h <;> cases h <;> rfl

theorem liloGroups_append (t : Text) : (liloGroups t).1.text ++ (liloGroups t).2 = t := by
  unfold liloGroups
  split
  · exact List.append_nil _
  · rfl
  · next r =>
    split
    · next hquote =>
      have hdrop : '"' :: (r.dropWhile (· ≠ '"')).tail = r.dropWhile (· ≠ '"') := by
        have hne : r.dropWhile (· ≠ '"') ≠ [] := by
          intro hnil
          exact absurd (List.dropWhile_eq_nil_iff.mp hnil _ hquote) (by decide)
        have hhead := List.head_dropWhile_not (· ≠ '"') hne
        rw [decide_eq_false_iff_not, not_not] at hhead
        exact (List.cons_eq_cons.mpr ⟨hhead.symm, rfl⟩).trans (List.cons_head_tail hne)
      show '"' :: r.takeWhile (· ≠ '"') ++ ['"'] ++ (r.dropWhile (· ≠ '"')).tail = '"' :: r
      rw [List.append_assoc, List.singleton_append, hdrop, List.cons_append,
        List.takeWhile_append_dropWhile]
    · split
      · exact List.append_nil _
      · rfl
  · dsimp only
    split
    · rfl
    · split
      · next hbrk =>
        show _ ++ _ ++ _ = _
        rw [List.append_assoc, ← lineBreak_eq_some hbrk, wordSpan_append]
      · exact wordSpan_append t

theorem liloMatch_append (t : Text) : (liloMatch t).1.text ++ (liloMatch t).2 = t := by
  show t.takeWhile isSpace ++ (liloGroups _).1.text ++ (liloGroups _).2 = t
  rw [List.append_assoc, liloGroups_append, List.takeWhile_append_dropWhile]

theorem length_liloMatch (t : Text) :
    (liloMatch t).1.text.length + (liloMatch t).2.length = t.length := by
  rw [← List.length_append, liloMatch_append]

theorem liloMatchesFrom_append (bound : Nat) (t : Text) :
    (liloMatchesFrom bound t).1.flatMap (·.text) ++ (liloMatchesFrom bound t).2 = t := by
  induction bound generalizing t with
  | zero => rfl
  | succ bound ih =>
    rw [liloMatchesFrom]
    split
    · rfl
    · show (liloMatch t).1.text ++ (liloMatchesFrom bound (liloMatch t).2).1.flatMap (·.text) ++
        (liloMatchesFrom bound (liloMatch t).2).2 = t
      rw [List.append_assoc, ih, liloMatch_append]

theorem liloMatches_append (line : Text) :
    (liloMatches line).flatMap (·.text) ++ liloRest line = line :=
  liloMatchesFrom_append line.length line

theorem text_ne_nil {line : Text} {m : LiloMatch} (h : m ∈ liloMatches line) : m.text ≠ [] := by
  have hfrom : ∀ (bound : Nat) (t : Text), m ∈ (liloMatchesFrom bound t).1 → m.text ≠ [] := by
    intro bound
    induction bound with
    | zero => intro t h; cases h
    | succ bound ih =>
      intro t h
      rw [liloMatchesFrom] at h
      split at h
      · cases h
      · next hne =>
        rcases List.mem_cons.mp h with rfl | h
        · exact hne
        · exact ih _ h
  exact hfrom _ _ h

/-! ### One match -/

open LiloState

/-- The text of the tokens. -/
def tokenTexts (s : LiloState) : Text := s.tokens.flatMap (·.text)

theorem tokenTexts_push (s : LiloState) : tokenTexts s.push = tokenTexts s ++ s.text := by
  show (s.tokens ++ [_]).flatMap _ = _
  rw [List.flatMap_append, List.flatMap_singleton]
  rfl

/-- What a match does: `$in_quote` stays as it is, a continued match stays in `$text`,
and what is kept is the old text and the match, or the match in place of `$text`. -/
theorem step_written {s : LiloState} (hs : s.inQuote = false) {m : LiloMatch} (hm : m.text ≠ []) :
    (s.step m).inQuote = false ∧ ((s.step m).text = [] ↔ m.item.continued = false) ∧
      tokenTexts (s.step m) ++ (s.step m).text =
        if m.item.addsText then tokenTexts s ++ s.text ++ m.text else tokenTexts s ++ m.text := by
  obtain ⟨text, item⟩ := m
  have hpush (s : LiloState) : tokenTexts s.push ++ s.push.text = tokenTexts s ++ s.text := by
    rw [tokenTexts_push]
    exact List.append_nil _
  cases item with
  | equals => exact ⟨rfl, ⟨fun _ => rfl, fun _ => rfl⟩, hpush _⟩
  | quoted body continued =>
    have hquote : s.quote text body = { s with text := text, token := some body } := by
      rw [quote, hs]
      rfl
    cases continued with
    | true =>
      show (s.quote text body).inQuote = false ∧ ((s.quote text body).text = [] ↔ _) ∧
        tokenTexts (s.quote text body) ++ (s.quote text body).text = _
      rw [hquote]
      exact ⟨hs, ⟨fun h => absurd h hm, fun h => by cases h⟩, rfl⟩
    | false =>
      show (s.quote text body).push.inQuote = false ∧ ((s.quote text body).push.text = [] ↔ _) ∧
        tokenTexts (s.quote text body).push ++ (s.quote text body).push.text = _
      rw [hpush, hquote]
      exact ⟨rfl, ⟨fun _ => rfl, fun _ => rfl⟩, rfl⟩
  | word body continued =>
    cases continued with
    | true =>
      exact ⟨hs, ⟨fun h => absurd (List.append_eq_nil_iff.mp h).2 hm, fun h => by cases h⟩,
        (List.append_assoc _ _ _).symm⟩
    | false =>
      exact ⟨rfl, ⟨fun _ => rfl, fun _ => rfl⟩, (hpush _).trans (List.append_assoc _ _ _).symm⟩
  | blank =>
    have hstep : s.step ⟨text, .blank⟩ = push { s with text := s.text ++ text } := if_neg hm
    rw [hstep]
    exact ⟨rfl, ⟨fun _ => rfl, fun _ => rfl⟩, (hpush _).trans (List.append_assoc _ _ _).symm⟩

/-! ### A run of matches -/

theorem foldl_written {ms : List LiloMatch} (hms : ∀ m ∈ ms, m.text ≠ []) {s : LiloState}
    (hs : s.inQuote = false) (pending : Bool) (hpending : s.text = [] ↔ pending = false) :
    (Joined pending ms →
      tokenTexts (ms.foldl step s) = tokenTexts s ++ s.text ++ ms.flatMap (·.text)) ∧
    (¬ Joined pending ms → (tokenTexts (ms.foldl step s)).length <
      (tokenTexts s ++ s.text ++ ms.flatMap (·.text)).length) := by
  induction ms generalizing s pending with
  | nil =>
    constructor
    · intro h
      rw [hpending.mpr h]
      simp
    · intro h
      have hpos := List.length_pos_iff.mpr fun hnil => h (hpending.mp hnil)
      simpa using hpos
  | cons m ms ih =>
    obtain ⟨hs', hpending', hwritten⟩ := step_written hs (hms m List.mem_cons_self)
    obtain ⟨hjoined, hlost⟩ :=
      ih (fun m' hm' => hms m' (List.mem_cons_of_mem _ hm')) hs' _ hpending'
    have hle : (tokenTexts (ms.foldl step (s.step m))).length ≤
        (tokenTexts (s.step m) ++ (s.step m).text ++ ms.flatMap (·.text)).length := by
      by_cases hj : Joined m.item.continued ms
      · exact (congrArg List.length (hjoined hj)).le
      · exact (hlost hj).le
    rw [List.foldl_cons, List.flatMap_cons, ← List.append_assoc]
    by_cases hadds : pending = true → m.item.addsText = true
    · -- nothing stands in `$text`, or the match adds to it
      have hkept : tokenTexts (s.step m) ++ (s.step m).text = tokenTexts s ++ s.text ++ m.text := by
        rw [hwritten]
        split
        · rfl
        · next hno =>
          have hnil : s.text = [] := hpending.mpr (Bool.eq_false_iff.mpr fun h => hno (hadds h))
          rw [hnil, List.append_nil]
      rw [← hkept]
      exact ⟨fun h => hjoined h.2, fun h => hlost fun hj => h ⟨hadds, hj⟩⟩
    · -- the match replaces what stands in `$text`
      refine ⟨fun h => absurd h.1 hadds, fun _ => hle.trans_lt ?_⟩
      obtain ⟨hp, hno⟩ := Classical.not_imp.mp hadds
      have hpos : 0 < s.text.length := by
        refine List.length_pos_iff.mpr ?_
        intro hnil
        rw [hpending.mp hnil] at hp
        cases hp
      rw [hwritten, if_neg hno]
      simp only [List.length_append]
      omega

/-! ### All lines -/

/-- `$in_quote` is never set, so the lines are read as they are. -/
theorem lines_inQuote (ls : List Text) {s : LiloState} (hs : s.inQuote = false) :
    ls.foldl readLine s = (ls.flatMap liloMatches).foldl step s ∧
      (ls.foldl readLine s).inQuote = false := by
  have hline (line : Text) {s : LiloState} (hs : s.inQuote = false) :
      ((liloMatches line).foldl step s).inQuote = false := by
    have hms : ∀ m ∈ liloMatches line, m.text ≠ [] := fun m hm => text_ne_nil hm
    generalize liloMatches line = ms at hms
    induction ms generalizing s with
    | nil => exact hs
    | cons m ms ih =>
      exact ih (step_written hs (hms m List.mem_cons_self)).1
        fun m' hm' => hms m' (List.mem_cons_of_mem _ hm')
  induction ls generalizing s with
  | nil => exact ⟨rfl, hs⟩
  | cons line ls ih =>
    have hread : s.readLine line = (liloMatches line).foldl step s := by
      rw [readLine, if_neg (by rw [hs]; decide)]
    rw [List.foldl_cons, hread, List.flatMap_cons, List.foldl_append]
    exact ih (hline line hs)

/-- The matches hold the lines, as far as these are matched. -/
theorem texts_iff (ls : List Text) :
    ((∀ line ∈ ls, liloRest line = []) →
      (ls.flatMap liloMatches).flatMap (·.text) = ls.flatten) ∧
    (¬ (∀ line ∈ ls, liloRest line = []) →
      ((ls.flatMap liloMatches).flatMap (·.text)).length < ls.flatten.length) ∧
    ((ls.flatMap liloMatches).flatMap (·.text)).length ≤ ls.flatten.length := by
  induction ls with
  | nil => exact ⟨fun _ => rfl, fun h => absurd (fun line hline => by cases hline) h, le_rfl⟩
  | cons line ls ih =>
    obtain ⟨hall, hlost, hle⟩ := ih
    have hline := liloMatches_append line
    have hlen := congrArg List.length hline
    rw [List.length_append] at hlen
    simp only [List.flatMap_cons, List.flatMap_append, List.flatten_cons, List.length_append]
    refine ⟨?_, ?_, by omega⟩
    · intro h
      rw [h line List.mem_cons_self, List.append_nil] at hline
      rw [hline, hall fun l hl => h l (List.mem_cons_of_mem _ hl)]
    · intro h
      by_cases hrest : liloRest line = []
      · have hls := hlost fun h' => h fun l hl => by
          rcases List.mem_cons.mp hl with rfl | hl
          · exact hrest
          · exact h' l hl
        omega
      · have hpos := List.length_pos_iff.mpr hrest
        omega

/-! ### All tokens -/

/-- The tokens hold the whole file if and only if nothing is lost. -/
theorem texts_eq_file_iff (file : Text) :
    (liloTokenize file).flatMap (·.text) = file ↔ Lossless file := by
  have hfold := (lines_inQuote (lines file) (s := .init) rfl).1
  have hms : ∀ m ∈ (lines file).flatMap liloMatches, m.text ≠ [] := by
    intro m hm
    obtain ⟨line, -, hm⟩ := List.mem_flatMap.mp hm
    exact text_ne_nil hm
  obtain ⟨hjoined, hlost⟩ := foldl_written (s := .init) hms rfl false ⟨fun _ => rfl, fun _ => rfl⟩
  obtain ⟨hall, hshort, hle⟩ := texts_iff (lines file)
  rw [flatten_lines] at hall hshort hle
  have htokens : (liloTokenize file).flatMap (·.text) =
      tokenTexts (((lines file).flatMap liloMatches).foldl LiloState.step .init) := by
    rw [liloTokenize, hfold]
    rfl
  rw [htokens]
  constructor
  · intro heq
    have hj : Joined false ((lines file).flatMap liloMatches) := by
      by_contra hno
      have hlt := hlost hno
      rw [heq] at hlt
      exact absurd hle (Nat.not_le.mpr hlt)
    refine ⟨?_, hj⟩
    by_contra hno
    have hlt := hshort hno
    rw [hjoined hj] at heq
    exact absurd (congrArg List.length heq) hlt.ne
  · rintro ⟨hrest, hj⟩
    rw [hjoined hj]
    exact hall hrest

/-! ### The updates -/

theorem liloNewValue_empty (generic : Bool) (name value : Text) :
    liloNewValue (fun _ => none) generic name value = some none := by
  have hkernel : kernelUpdate value (fun _ => none) = none := by
    unfold kernelUpdate
    split <;> rfl
  unfold liloNewValue
  rw [hkernel]
  repeat' split
  all_goals first | rfl | contradiction

/-- With an empty map, each token is written back. -/
theorem liloUpdateLoop_empty (replace : LiloReplace) (generic : Bool) (tokens : List LiloToken) :
    liloUpdateLoop (fun _ => none) replace generic tokens = some (tokens.flatMap (·.text)) := by
  fun_induction liloUpdateLoop (fun _ => none) replace generic tokens with
  | case1 generic t₁ t₂ t₃ rest heq name value hname hvalue ih =>
    rw [liloNewValue_empty, ih]
    simp [liloItemText]
  | case2 generic t₁ t₂ t₃ rest heq hno ih =>
    rw [ih]
    simp
  | case3 generic t₁ t₂ t₃ rest hne ih =>
    rw [ih]
    rfl
  | case4 generic t₁ rest hshort ih =>
    rw [ih]
    rfl
  | case5 => rfl

end LiloLemmas

open LiloLemmas

/-- The tokens hold the whole file if and only if the file is `Lossless`, and so do the
outputs of the updates with an empty map. -/
theorem lilo_lossless_iff (file : Text) :
    ((liloTokenize file).flatMap (·.text) = file ↔ Lossless file) ∧
      (liloUpdate file (fun _ => none) = some file ↔ Lossless file) ∧
      (eliloUpdate file (fun _ => none) = some file ↔ Lossless file) := by
  have hupdate (replace : LiloReplace) : liloUpdateWith replace file (fun _ => none) = some file ↔
      (liloTokenize file).flatMap (·.text) = file := by
    rw [liloUpdateWith, liloUpdateLoop_empty, Option.some.injEq]
  have hlossless := texts_eq_file_iff file
  exact ⟨hlossless, (hupdate _).trans hlossless, (hupdate _).trans hlossless⟩

/-- A quoted text that is continued on the next line. -/
theorem lilo_loses_quote :
    (liloTokenize "append=\"a \\\nb\"\n").flatMap (·.text) = "append=\"a \\\nb" ∧
      liloUpdate "append=\"a \\\nb\"\n" (fun _ => none) = some "append=\"a \\\nb" := by
  decide

end DebianKernel.DiskId
