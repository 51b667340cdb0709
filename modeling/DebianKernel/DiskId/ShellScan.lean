import DebianKernel.DiskId.ShellVars

/-!
# The scanner on a whole text

The line structure does not matter to the scanner: apart from the search for the
variable name, it reads a text as one piece (`scan`). On the text behind `NAME=`
only three contexts keep the assignment readable, and `scanValue` says what the
scanner then takes as the value.

Results:
1. `nextLines_scan`: reading line by line is `scan`.
2. `whole_scan`: `scan` on a value is `scanValue`.
3. `shellvarsNext_alone_iff`: when a text is one statement with a name and a value.
-/

namespace DebianKernel.DiskId

open Text ShellVarsLemmas

/-! ## The scanner without line structure -/

/-- The inner loop on the whole rest of a text. Returns the text behind the newline
that ends the statement. -/
def scanText : Nat → ScanState → Text → ScanState × Text
  | 0, st, _ => (st, [])
  | fuel + 1, st, t =>
    match nextSpecial t with
    | none => (st, [])
    | some (pre, sp, rest) =>
      match handle st pre sp with
      | (st, .next) => scanText fuel st rest
      | (st, .comment) => scanText fuel st (rest.dropWhile (· ≠ '\n'))
      | (st, .lastLine) => (st, rest)

/-- `scanText` with enough fuel. -/
def scan (st : ScanState) (t : Text) : ScanState × Text := scanText t.length st t

namespace ShellScanLemmas

theorem scanText_fuel {st : ScanState} {t : Text} {n m : Nat} (hn : t.length ≤ n)
    (hm : t.length ≤ m) : scanText n st t = scanText m st t := by
  induction n generalizing st t m with
  | zero =>
    obtain rfl := List.length_eq_zero_iff.mp (Nat.le_zero.mp hn)
    cases m <;> rfl
  | succ n ih =>
    cases m with
    | zero =>
      obtain rfl := List.length_eq_zero_iff.mp (Nat.le_zero.mp hm)
      rfl
    | succ m =>
      rw [scanText, scanText]
      cases hs : nextSpecial t with
      | none => rfl
      | some found =>
        obtain ⟨pre, sp, rest⟩ := found
        have hlt := nextSpecial_length hs
        have hdrop := dropWhile_length_le (· ≠ '\n') rest
        simp only
        split
        · exact ih (by omega) (by omega)
        · exact ih (by omega) (by omega)
        · rfl

theorem scan_none {st : ScanState} {t : Text} (h : nextSpecial t = none) :
    scan st t = (st, []) := by
  unfold scan
  cases ht : t.length with
  | zero => rfl
  | succ n => rw [scanText, h]

/-- One round of the scanner on a text. -/
theorem scan_special {st : ScanState} {t pre rest : Text} {sp : Special}
    (h : nextSpecial t = some (pre, sp, rest)) :
    scan st t = match handle st pre sp with
      | (st, .next) => scan st rest
      | (st, .comment) => scan st (rest.dropWhile (· ≠ '\n'))
      | (st, .lastLine) => (st, rest) := by
  have hlt := nextSpecial_length h
  have hdrop := dropWhile_length_le (· ≠ '\n') rest
  rw [scan, ← scanText_fuel (n := rest.length + t.length + 1) (by omega) (by omega), scanText, h]
  simp only
  split
  · exact scanText_fuel (by omega) (by omega)
  · exact scanText_fuel (by omega) (by omega)
  · rfl

/-! ### Lines -/

theorem special_append {l : Text} (hl : IsLine l) (t : Text) :
    special (l ++ t) = (special l).map fun m => (m.1, m.2 ++ t) := by
  obtain ⟨body, _, rfl⟩ := hl
  cases body with
  | nil => cases t <;> rfl
  | cons c body =>
    obtain ⟨d, t', hd⟩ : ∃ d t', body ++ ['\n'] = d :: t' := by
      cases body <;> exact ⟨_, _, rfl⟩
    rw [List.cons_append, hd, List.cons_append, List.cons_append]
    simp only [special]
    split_ifs <;> rfl

/-- What is left of a complete line behind a special is nothing or a complete line. -/
theorem isLine_suffix {l p r : Text} (hl : IsLine l) (h : l = p ++ r) (hr : r ≠ []) : IsLine r := by
  obtain ⟨body, hbody, rfl⟩ := hl
  obtain ⟨r', c, rfl⟩ := (List.eq_nil_or_concat r).resolve_left hr
  rw [List.concat_eq_append, ← List.append_assoc] at h
  obtain ⟨hb, hc⟩ := List.append_inj' h rfl
  refine ⟨r', fun hmem => hbody ?_, by rw [List.concat_eq_append, hc]⟩
  rw [hb]
  exact List.mem_append_right _ hmem

theorem nextSpecial_line {l : Text} (hl : IsLine l) :
    ∃ pre sp r, nextSpecial l = some (pre, sp, r) ∧
      ∀ t, nextSpecial (l ++ t) = some (pre, sp, r ++ t) := by
  obtain ⟨body, hbody, rfl⟩ := hl
  induction body with
  | nil => exact ⟨[], .char '\n', [], rfl, fun t => by cases t <;> rfl⟩
  | cons c body ih =>
    have hline : IsLine (c :: body ++ ['\n']) := ⟨c :: body, hbody, rfl⟩
    have happ := special_append hline
    cases hsp : special (c :: (body ++ ['\n'])) with
    | some m =>
      refine ⟨[], m.1, m.2, nextSpecial_of_special hsp, fun t => nextSpecial_of_special ?_⟩
      rw [happ t, List.cons_append, hsp]
      rfl
    | none =>
      rw [List.mem_cons, not_or] at hbody
      obtain ⟨pre, sp, r, hr, hrt⟩ := ih hbody.2
      refine ⟨c :: pre, sp, r, ?_, ?_⟩
      · rw [List.cons_append, nextSpecial_char hsp, hr]
        rfl
      · intro t
        have hspt : special (c :: (body ++ ['\n'] ++ t)) = none := by
          rw [← List.cons_append, ← List.cons_append, happ t, List.cons_append, hsp]
          rfl
        show nextSpecial (c :: (body ++ ['\n'] ++ t)) = _
        rw [nextSpecial_char hspt, hrt t]
        rfl

/-! ### Reading line by line -/

theorem dropWhile_line {r : Text} (hr : IsLine r) (t : Text) :
    (r ++ t).dropWhile (· ≠ '\n') = r.dropWhile (· ≠ '\n') ++ t ∧
      IsLine (r.dropWhile (· ≠ '\n')) := by
  obtain ⟨body, hbody, rfl⟩ := hr
  induction body with
  | nil => exact ⟨rfl, [], List.not_mem_nil, rfl⟩
  | cons c body ih =>
    rw [List.mem_cons, not_or] at hbody
    have hdrop (s : Text) : (c :: s).dropWhile (· ≠ '\n') = s.dropWhile (· ≠ '\n') :=
      List.dropWhile_cons_of_pos (decide_eq_true (Ne.symm hbody.1))
    rw [List.cons_append, List.cons_append, hdrop, hdrop]
    exact ih hbody.2

theorem handlePlain_flow (st : ScanState) (sp : Special) :
    (handlePlain st sp).2 = .next ∨ (handlePlain st sp).2 = .comment ∧ sp = .char '#' := by
  let Goes (r : ScanState × Flow) : Prop := r.2 = .next ∨ r.2 = .comment ∧ sp = .char '#'
  have hnext (st' : ScanState) : Goes (st', .next) := .inl rfl
  show Goes (handlePlain st sp)
  unfold handlePlain
  refine iteInduction (motive := Goes) (fun _ => hnext _) fun _ => ?_
  refine iteInduction (motive := Goes) (fun h => ?_) fun _ => ?_
  · exact .inr ⟨rfl, of_decide_eq_true (Bool.and_eq_true_iff.mp h).2⟩
  · iterate 9 refine iteInduction (motive := Goes) (fun _ => hnext _) fun _ => ?_
    exact hnext _

theorem handleSpecial_flow (st : ScanState) (sp : Special) :
    (handleSpecial st sp).2 = .next ∨ (handleSpecial st sp).2 = .comment ∧ sp = .char '#' := by
  unfold handleSpecial
  split
  · split <;> exact .inl rfl
  · split
    · exact .inl rfl
    · exact handlePlain_flow st _

theorem handle_lastLine {st st' : ScanState} {pre : Text} {sp : Special}
    (h : handle st pre sp = (st', .lastLine)) : sp = .char '\n' := by
  unfold handle at h
  simp only at h
  split at h
  · next hc => exact hc.2
  · rcases handleSpecial_flow (if (st.appendIn pre).context = [] then
      endValue (st.appendIn pre) sp else st.appendIn pre) sp with hf | ⟨hf, -⟩
    · rw [h] at hf
      cases hf
    · rw [h] at hf
      cases hf

theorem handle_comment {st st' : ScanState} {pre : Text} {sp : Special}
    (h : handle st pre sp = (st', .comment)) : sp = .char '#' := by
  unfold handle at h
  simp only at h
  split at h
  · cases h
  · rcases handleSpecial_flow (if (st.appendIn pre).context = [] then
      endValue (st.appendIn pre) sp else st.appendIn pre) sp with hf | ⟨-, hsp⟩
    · rw [h] at hf
      cases hf
    · exact hsp

/-- The inner loop on a complete line, or on what is left of one, is a part of
`scan`. -/
theorem scan_line (st : ScanState) {r : Text} (hr : r ≠ [] → IsLine r) (t : Text) :
    scan st (r ++ t) = match scanLine st r with
      | (st, true) => (st, t)
      | (st, false) => scan st t := by
  generalize hn : r.length = n
  induction n using Nat.strong_induction_on generalizing st r with
  | _ n ih =>
    rcases eq_or_ne r [] with rfl | hr'
    · rfl
    have hline := hr hr'
    obtain ⟨pre, sp, rest, hsp, hspt⟩ := nextSpecial_line hline
    have hlen := nextSpecial_length hsp
    have htext := nextSpecial_text hsp
    have hrest : rest ≠ [] → IsLine rest := isLine_suffix hline htext
    rw [scan_special (hspt t), scanLine_special hsp]
    cases hh : handle st pre sp with
    | mk st' flow =>
      cases flow with
      | next => exact ih rest.length (by omega) st' hrest rfl
      | comment =>
        have hne : rest ≠ [] := by
          rintro rfl
          rw [handle_comment hh, List.append_nil] at htext
          obtain ⟨body, -, hbody⟩ := hline
          rw [hbody] at htext
          exact absurd (List.append_inj' htext rfl).2 (by decide)
        obtain ⟨hdrop, hdropLine⟩ := dropWhile_line (hrest hne) t
        have hle := dropWhile_length_le (· ≠ '\n') rest
        show scan st' ((rest ++ t).dropWhile (· ≠ '\n')) = _
        rw [hdrop]
        exact ih _ (by omega) st' (fun _ => hdropLine) rfl
      | lastLine =>
        -- the newline is the last character of the line
        obtain ⟨body, hbody, heq⟩ := hline
        have hnil : rest = [] := by
          by_contra hne
          obtain ⟨rest', d, rfl⟩ := (List.eq_nil_or_concat rest).resolve_left hne
          rw [heq, handle_lastLine hh, List.concat_eq_append, ← List.append_assoc] at htext
          refine hbody ?_
          rw [(List.append_inj' htext rfl).1]
          simp [Special.text]
        rw [hnil]
        rfl

/-- The inner loop on the last line, when it has no newline. -/
theorem scan_lastLine (st : ScanState) {r : Text} (hr : '\n' ∉ r) :
    scan st r = ((scanLine st r).1, []) ∧ (scanLine st r).2 = false := by
  generalize hn : r.length = n
  induction n using Nat.strong_induction_on generalizing st r with
  | _ n ih =>
    cases hsp : nextSpecial r with
    | none =>
      rw [scan_none hsp, scanLine_none hsp]
      exact ⟨rfl, rfl⟩
    | some found =>
      obtain ⟨pre, sp, rest⟩ := found
      have hlen := nextSpecial_length hsp
      have htext := nextSpecial_text hsp
      have hrest : '\n' ∉ rest := fun hmem => hr (htext ▸ List.mem_append_right _ hmem)
      rw [scan_special hsp, scanLine_special hsp]
      cases hh : handle st pre sp with
      | mk st' flow =>
        cases flow with
        | next => exact ih rest.length (by omega) st' hrest rfl
        | comment =>
          have hle := dropWhile_length_le (· ≠ '\n') rest
          exact ih _ (by omega) st' (fun hmem => hrest ((List.dropWhile_suffix _).mem hmem)) rfl
        | lastLine =>
          refine absurd ?_ hr
          rw [htext, handle_lastLine hh]
          simp [Special.text]

/-- Behind the first line of a statement, reading line by line is `scan`. -/
theorem nextLines_scan (st : ScanState) (acc t : Text) :
    ∃ text, nextLines false st acc (lines t) = ((scan st t).1, text, lines (scan st t).2) := by
  rcases lines_cases t with rfl | ⟨hno, hne, hlines⟩ | ⟨body, rest, hbody, rfl, hlines⟩
  · exact ⟨acc, rfl⟩
  · obtain ⟨hscan, hlast⟩ := scan_lastLine st hno
    refine ⟨acc ++ t, ?_⟩
    rw [hlines, hscan, nextLines, show nextLine false st t = ((scanLine st t).1, false) from
      Prod.ext rfl hlast]
    rfl
  · have hline : IsLine (body ++ ['\n']) := ⟨body, hbody, rfl⟩
    have hscan := scan_line st (fun _ => hline) rest
    rw [List.append_assoc] at hscan
    rw [hlines, nextLines, show body ++ '\n' :: rest = body ++ (['\n'] ++ rest) from rfl, hscan,
      show nextLine false st (body ++ ['\n']) = scanLine st (body ++ ['\n']) from rfl]
    cases scanLine st (body ++ ['\n']) with
    | mk st' last =>
      cases last with
      | true => exact ⟨_, rfl⟩
      | false => exact nextLines_scan st' _ rest
termination_by t.length
decreasing_by simp only [*, List.length_append, List.length_cons]; omega

end ShellScanLemmas

/-! ## Values -/

/-- The contexts in which an assignment stays readable. -/
inductive Quoting
  | none | single | double
  deriving DecidableEq, Repr

/-- The state in the value of the assignment of `name`, of which `value` is read. -/
def valueState (q : Quoting) (name value : Text) : ScanState :=
  { context := match q with | .none => [] | .single => [.squote] | .double => [.dquote]
    inValue := true
    name := some name
    value := some value
    unhandled := false }

/-- The text behind the blank that ends a value keeps the assignment readable: it has
blanks and ordinary characters, and its newline is the last character. -/
def afterValue : Text → Bool
  | [] => true
  | c :: t =>
    if nextSpecial (c :: t) = none then true
    else if c = '\n' then t = []
    else (isSpace c || (special (c :: t)).isNone) && afterValue t

/-- The rest of a text behind a comment character: the line ends the text. -/
def afterComment (t : Text) : Bool := (t.dropWhile (· ≠ '\n')).length ≤ 1

/-- What the scanner takes as the value from a text that is the rest of a statement.
`none` when there is a substitution or a command, or the statement ends before the
text does. -/
def scanValue : Quoting → Text → Option Text
  | _, [] => some []
  | q, c :: t =>
    -- the characters behind the last special are not looked at
    if nextSpecial (c :: t) = none then some []
    else if c = '\\' then
      match t with
      | [] => some []
      | d :: t =>
        if q = .single then (scanValue q t).map (['\\', d] ++ ·)
        else if d = '\n' then scanValue q t
        else (scanValue q t).map (d :: ·)
    else
      match q with
      | .single => if c = '\'' then scanValue .none t else (scanValue .single t).map (c :: ·)
      | .double =>
        if c = '"' then scanValue .none t
        else if c = '$' ∨ c = '`' ∨ c = '(' then none
        else (scanValue .double t).map (c :: ·)
      | .none =>
        if c = '\n' then if t = [] then some [] else none
        else if isSpace c then if afterValue t then some [] else none
        else if c = '#' then if afterComment t then some [] else none
        else if c = '\'' then scanValue .single t
        else if c = '"' then scanValue .double t
        else if c = '$' ∨ c = '`' ∨ c = '(' then none
        else (scanValue .none t).map (c :: ·)

/-- The value that is reported when a scan has used the whole text. -/
def whole (r : ScanState × Text) : Option Text :=
  if r.2 = [] ∧ r.1.unhandled = false then r.1.value else none

namespace ShellScanLemmas

/-! ### What the scanner keeps -/

/-- The name stays, and so does the mark of a statement that is not an assignment. -/
structure Keeps (st st' : ScanState) : Prop where
  name : st'.name = st.name
  unhandled : st.unhandled = true → st'.unhandled = true

theorem Keeps.refl (st : ScanState) : Keeps st st := ⟨rfl, id⟩

theorem Keeps.trans {st₁ st₂ st₃ : ScanState} (h : Keeps st₁ st₂) (h' : Keeps st₂ st₃) :
    Keeps st₁ st₃ := ⟨h'.name.trans h.name, h'.unhandled ∘ h.unhandled⟩

theorem keeps_appendIn (st : ScanState) (text : Text) : Keeps st (st.appendIn text) := by
  unfold ScanState.appendIn
  split <;> exact ⟨rfl, id⟩

theorem keeps_endValue (st : ScanState) (sp : Special) : Keeps st (endValue st sp) := by
  unfold endValue
  split
  · split
    · exact ⟨rfl, id⟩
    · split
      · exact ⟨rfl, fun _ => rfl⟩
      · exact Keeps.refl st
  · split
    · exact ⟨rfl, fun _ => rfl⟩
    · exact Keeps.refl st

theorem keeps_handlePlain (st : ScanState) (sp : Special) : Keeps st (handlePlain st sp).1 := by
  have hpop : Keeps st st.pop := ⟨rfl, id⟩
  have hpush (c : Context) : Keeps st (st.push c) := ⟨rfl, id⟩
  have hsubst (c : Context) : Keeps st { st.push c with unhandled := true } := ⟨rfl, fun _ => rfl⟩
  let Kept (r : ScanState × Flow) : Prop := Keeps st r.1
  show Kept (handlePlain st sp)
  unfold handlePlain
  refine iteInduction (motive := Kept) (fun _ => ?_) fun _ => ?_
  · exact iteInduction (motive := Keeps st) (fun _ => hpop) fun _ => Keeps.refl st
  refine iteInduction (motive := Kept) (fun _ => Keeps.refl st) fun _ => ?_
  refine iteInduction (motive := Kept) (fun _ => hsubst _) fun _ => ?_
  refine iteInduction (motive := Kept) (fun _ => hpush _) fun _ => ?_
  refine iteInduction (motive := Kept) (fun _ => hpush _) fun _ => ?_
  refine iteInduction (motive := Kept) (fun _ => hpop) fun _ => ?_
  refine iteInduction (motive := Kept) (fun _ => hsubst _) fun _ => ?_
  refine iteInduction (motive := Kept) (fun _ => hsubst _) fun _ => ?_
  refine iteInduction (motive := Kept) (fun _ => hpop) fun _ => ?_
  refine iteInduction (motive := Kept) (fun _ => hpop) fun _ => ?_
  refine iteInduction (motive := Kept) (fun _ => ⟨rfl, fun _ => rfl⟩) fun _ => ?_
  exact keeps_appendIn st _

theorem keeps_handleSpecial (st : ScanState) (sp : Special) :
    Keeps st (handleSpecial st sp).1 := by
  unfold handleSpecial
  split
  · split
    · exact ⟨rfl, id⟩
    · exact ⟨rfl, id⟩
  · split
    · next c =>
      show Keeps st (if c ≠ '\n' then st.appendIn [c] else st)
      split
      · exact keeps_appendIn st _
      · exact Keeps.refl st
    · exact keeps_handlePlain st _

theorem keeps_handle (st : ScanState) (pre : Text) (sp : Special) :
    Keeps st (handle st pre sp).1 := by
  unfold handle
  refine (keeps_appendIn st pre).trans ?_
  simp only
  split
  · exact ⟨rfl, id⟩
  · split
    · exact (keeps_endValue _ sp).trans (keeps_handleSpecial _ sp)
    · exact keeps_handleSpecial _ sp

theorem keeps_scan (st : ScanState) (t : Text) : Keeps st (scan st t).1 := by
  generalize hn : t.length = n
  induction n using Nat.strong_induction_on generalizing st t with
  | _ n ih =>
    cases hsp : nextSpecial t with
    | none =>
      rw [scan_none hsp]
      exact Keeps.refl st
    | some found =>
      obtain ⟨pre, sp, rest⟩ := found
      have hlen := nextSpecial_length hsp
      have hle := dropWhile_length_le (· ≠ '\n') rest
      have hk := keeps_handle st pre sp
      rw [scan_special hsp]
      cases hh : handle st pre sp with
      | mk st' flow =>
        rw [hh] at hk
        cases flow with
        | next => exact hk.trans (ih _ (by omega) st' rest rfl)
        | comment => exact hk.trans (ih _ (by omega) st' _ rfl)
        | lastLine => exact hk

theorem whole_scan_unhandled {st : ScanState} (h : st.unhandled = true) (t : Text) :
    whole (scan st t) = none := by
  refine if_neg ?_
  intro hw
  rw [(keeps_scan st t).unhandled h] at hw
  exact absurd hw.2 (by decide)

/-! ### Single steps -/

theorem scan_step {st st' : ScanState} {t rest : Text} {sp : Special}
    (hsp : special t = some (sp, rest)) (hh : handle st [] sp = (st', .next)) :
    scan st t = scan st' rest := by
  rw [scan_special (nextSpecial_of_special hsp), hh]

theorem appendIn_appendIn (st : ScanState) (s t : Text) :
    (st.appendIn s).appendIn t = st.appendIn (s ++ t) := by
  cases hin : st.inValue with
  | true => simp [ScanState.appendIn, ScanState.append, hin]
  | false => simp [ScanState.appendIn, hin]

/-- A character that is not special is read with the next special. -/
theorem scan_char {c : Char} {t : Text} (hsp : special (c :: t) = none)
    (hne : nextSpecial (c :: t) ≠ none) (st : ScanState) :
    scan st (c :: t) = scan (st.appendIn [c]) t := by
  cases ht : nextSpecial t with
  | none =>
    rw [nextSpecial_char hsp, ht] at hne
    exact absurd rfl hne
  | some found =>
    obtain ⟨pre, sp, rest⟩ := found
    have hct : nextSpecial (c :: t) = some (c :: pre, sp, rest) := by
      rw [nextSpecial_char hsp, ht]
      rfl
    have hhandle : handle st (c :: pre) sp = handle (st.appendIn [c]) pre sp := by
      unfold handle
      rw [appendIn_appendIn]
      rfl
    rw [scan_special hct, scan_special ht, hhandle]

@[simp] theorem appendIn_valueState (q : Quoting) (name value text : Text) :
    (valueState q name value).appendIn text = valueState q name (value ++ text) := rfl

theorem special_backslash (d : Char) (t : Text) :
    special ('\\' :: d :: t) = some (.escape d, t) := rfl

theorem special_dollar_nil : special ['$'] = some (.dollar, []) := rfl

theorem special_dollar {d : Char} (hd : ¬(d = '(' ∨ d = '{')) (t : Text) :
    special ('$' :: d :: t) = some (.dollar, d :: t) := by
  simp [special, isSpecialChar, isSpace, hd]

theorem special_dollarBracket {d : Char} (hd : d = '(' ∨ d = '{') (t : Text) :
    special ('$' :: d :: t) = some (.dollarBracket d, t) := by
  simp [special, isSpecialChar, isSpace, hd]

theorem special_of_isSpecialChar {c : Char} (h : isSpecialChar c = true) (t : Text) :
    special (c :: t) = some (.char c, t) := by
  cases t with
  | nil => simp [special, h]
  | cons d t => simp [special, h]

theorem special_eq_none {c : Char} {t : Text} (hc : isSpecialChar c = false) (hb : c ≠ '\\')
    (hd : c ≠ '$') : special (c :: t) = none := by
  cases t <;> simp [special, hc, hb, hd]

/-- A character outside the class is kept with what follows it. -/
theorem scan_keep {c : Char} {t : Text} {st st' : ScanState} (hb : c ≠ '\\') (hd : c ≠ '$')
    (hne : nextSpecial (c :: t) ≠ none) (happ : st.appendIn [c] = st')
    (hh : isSpecialChar c = true → handle st [] (.char c) = (st', .next)) :
    scan st (c :: t) = scan st' t := by
  cases hc : isSpecialChar c with
  | true => exact scan_step (special_of_isSpecialChar hc t) (hh hc)
  | false =>
    rw [scan_char (special_eq_none hc hb hd) hne, happ]

/-! ### Values -/

/-- A special that marks the statement as unreadable. -/
theorem whole_scan_mark {st : ScanState} {t rest : Text} {sp : Special}
    (hsp : special t = some (sp, rest)) (hmark : (handle st [] sp).1.unhandled = true) :
    whole (scan st t) = none := by
  rw [scan_special (nextSpecial_of_special hsp)]
  cases hh : handle st [] sp with
  | mk st' flow =>
    rw [hh] at hmark
    cases flow with
    | next => exact whole_scan_unhandled hmark rest
    | comment => exact whole_scan_unhandled hmark _
    | lastLine => exact if_neg fun hw => by rw [hmark] at hw; exact absurd hw.2 (by decide)

theorem scan_escape (q : Quoting) (name value : Text) (d : Char) (t : Text) :
    scan (valueState q name value) ('\\' :: d :: t) = scan (valueState q name
      (value ++ if q = .single then ['\\', d] else if d = '\n' then [] else [d])) t := by
  refine scan_step (special_backslash d t) ?_
  by_cases hd : d = '\n'
  · subst hd
    cases q <;> simp [handle, handleSpecial, endValue, valueState, ScanState.appendIn,
      ScanState.append, Special.text]
  · cases q <;> simp [handle, handleSpecial, endValue, valueState, ScanState.appendIn,
      ScanState.append, Special.text, hd]

/-- A substitution in a double-quoted or unquoted value. -/
theorem whole_scan_substitution {q : Quoting} (hq : q ≠ .single) (name value : Text) {c : Char}
    (hc : c = '$' ∨ c = '`' ∨ c = '(') (t : Text) :
    whole (scan (valueState q name value) (c :: t)) = none := by
  have hmark (sp : Special) (h : sp = .dollar ∨ sp = .dollarBracket '(' ∨ sp = .dollarBracket '{' ∨
      sp = .char '`' ∨ sp = .char '(') : (handle (valueState q name value) [] sp).1.unhandled := by
    rcases h with rfl | rfl | rfl | rfl | rfl <;> cases q <;> first | exact absurd rfl hq | rfl
  rcases hc with rfl | rfl | rfl
  · cases t with
    | nil => exact whole_scan_mark special_dollar_nil (hmark _ (by simp))
    | cons d t =>
      by_cases hd : d = '(' ∨ d = '{'
      · refine whole_scan_mark (special_dollarBracket hd t) (hmark _ ?_)
        rcases hd with rfl | rfl <;> simp
      · exact whole_scan_mark (special_dollar hd t) (hmark _ (by simp))
  · exact whole_scan_mark (special_of_isSpecialChar (by decide) t) (hmark _ (by simp))
  · exact whole_scan_mark (special_of_isSpecialChar (by decide) t) (hmark _ (by simp))

theorem isSpecialChar_of_isSpace {c : Char} (h : isSpace c = true) : isSpecialChar c = true := by
  simp [isSpecialChar, h]

/-- A blank in the neutral context ends the value. -/
theorem handle_blank {c : Char} (hblank : isSpace c = true) (hc : c ≠ '\n') (st : ScanState)
    (hctx : st.context = []) (hpre : st.appendIn [] = st) :
    handle st [] (.char c) = ({ st with inValue := false }, .next) := by
  have hne : c ≠ '#' ∧ c ≠ '`' ∧ c ≠ '\'' ∧ c ≠ '"' ∧ c ≠ '(' ∧ c ≠ ')' ∧ c ≠ '}' := by
    refine ⟨?_, ?_, ?_, ?_, ?_, ?_, ?_⟩ <;> rintro rfl <;> exact absurd hblank (by decide)
  rw [handle, hpre]
  simp [hctx, hc, handleSpecial, endValue, hblank, handlePlain, hne, ScanState.inQuotes,
    ScanState.appendIn]

/-- Behind the blank that ends the value. -/
theorem whole_scan_afterValue (name value t : Text) :
    whole (scan { valueState .none name value with inValue := false } t) =
      if afterValue t then some value else none := by
  induction t with
  | nil => rfl
  | cons c t ih =>
    rw [afterValue]
    by_cases hnone : nextSpecial (c :: t) = none
    · rw [scan_none hnone, if_pos hnone]
      rfl
    rw [if_neg hnone]
    by_cases hc : c = '\n'
    · subst hc
      rw [if_pos rfl, scan_special (nextSpecial_of_special (special_of_isSpecialChar
        (by decide) t))]
      show whole ({ valueState .none name value with inValue := false }, t) = _
      cases t <;> rfl
    rw [if_neg hc]
    by_cases hblank : isSpace c = true
    · rw [hblank, Bool.true_or, Bool.true_and, ← ih,
        scan_step (special_of_isSpecialChar (isSpecialChar_of_isSpace hblank) t)
          (handle_blank hblank hc _ rfl rfl)]
    · rw [Bool.not_eq_true] at hblank
      cases hsp : special (c :: t) with
      | none =>
        rw [scan_char hsp hnone, Option.isNone_none, Bool.or_true, Bool.true_and]
        exact ih
      | some found =>
        obtain ⟨sp, rest⟩ := found
        rw [hblank, Option.isNone_some, Bool.or_false, Bool.false_and, if_neg (by decide)]
        refine whole_scan_mark hsp ?_
        -- anything but a blank means that this is a command
        have hsp' : ∀ d, sp = .char d → isSpace d = false := by
          rintro d rfl
          have htext := special_text hsp
          rw [List.cons.inj htext |>.1] at hblank
          exact hblank
        have hnl : sp ≠ .char '\n' := fun h => absurd (hsp' _ h) (by decide)
        have hend : (endValue { valueState .none name value with inValue := false } sp).unhandled =
            true := by
          cases sp with
          | char d => simp [endValue, hsp' d rfl, valueState]
          | _ => rfl
        rw [handle, if_neg fun h => hnl h.2]
        exact (keeps_handleSpecial _ sp).unhandled hend

/-- A comment that starts in the value. -/
theorem whole_scan_comment (name value t : Text) :
    whole (scan (valueState .none name value) ('#' :: t)) =
      if afterComment t then some value else none := by
  have hh : handle (valueState .none name value) [] (.char '#') =
      (valueState .none name value, .comment) := by
    simp [handle, handleSpecial, handlePlain, endValue, valueState, ScanState.appendIn,
      ScanState.append, ScanState.inQuotes, isSpace]
  rw [scan_special (nextSpecial_of_special (special_of_isSpecialChar (by decide) t)), hh]
  show whole (scan _ (t.dropWhile (· ≠ '\n'))) = _
  unfold afterComment
  cases hdrop : t.dropWhile (· ≠ '\n') with
  | nil => rfl
  | cons c rest =>
    have hc : c = '\n' := by
      have hne : t.dropWhile (· ≠ '\n') ≠ [] := by rw [hdrop]; exact List.cons_ne_nil _ _
      have hhead := List.head_dropWhile_not (· ≠ '\n') hne
      simpa only [hdrop, List.head_cons, decide_eq_false_iff_not, not_not] using hhead
    subst hc
    rw [scan_special (nextSpecial_of_special (special_of_isSpecialChar (by decide) rest))]
    show whole
      ({ valueState .none name value with value := some (value ++ []), inValue := false }, rest) = _
    rw [List.append_nil]
    cases rest <;> rfl

theorem handle_quote {q : Quoting} (q' : Quoting) {c : Char} (name value : Text)
    (h : (q = .none ∧ c = '\'' ∧ q' = .single) ∨ (q = .none ∧ c = '"' ∧ q' = .double) ∨
      (q = .single ∧ c = '\'' ∧ q' = .none) ∨ (q = .double ∧ c = '"' ∧ q' = .none)) :
    handle (valueState q name value) [] (.char c) = (valueState q' name value, .next) := by
  rcases h with ⟨rfl, rfl, rfl⟩ | ⟨rfl, rfl, rfl⟩ | ⟨rfl, rfl, rfl⟩ | ⟨rfl, rfl, rfl⟩ <;>
    simp [handle, handleSpecial, handlePlain, endValue, valueState, ScanState.appendIn,
      ScanState.append, ScanState.inQuotes, ScanState.push, ScanState.pop, isSpace]

theorem handle_keep_none {c : Char} (name value : Text) (hblank : isSpace c = false)
    (hne : c ≠ '#' ∧ c ≠ '\'' ∧ c ≠ '"' ∧ c ≠ '`' ∧ c ≠ '(') :
    handle (valueState .none name value) [] (.char c) =
      (valueState .none name (value ++ [c]), .next) := by
  have hc : c ≠ '\n' := by
    rintro rfl
    exact absurd hblank (by decide)
  simp [handle, handleSpecial, handlePlain, endValue, valueState, ScanState.appendIn,
    ScanState.append, ScanState.inQuotes, Special.text, hblank, hne, hc]

theorem handle_keep_single {c : Char} (name value : Text) (hne : c ≠ '\'') :
    handle (valueState .single name value) [] (.char c) =
      (valueState .single name (value ++ [c]), .next) := by
  simp [handle, handleSpecial, valueState, ScanState.appendIn, ScanState.append, Special.text, hne]

theorem handle_keep_double {c : Char} (name value : Text) (hne : c ≠ '"' ∧ c ≠ '`' ∧ c ≠ '(') :
    handle (valueState .double name value) [] (.char c) =
      (valueState .double name (value ++ [c]), .next) := by
  simp [handle, handleSpecial, handlePlain, valueState, ScanState.appendIn, ScanState.append,
    ScanState.inQuotes, Special.text, hne]

/-- A dollar sign in single quotes, with the bracket after it as with any character. -/
theorem scan_single_dollar (name value t : Text) :
    scan (valueState .single name value) ('$' :: t) =
      scan (valueState .single name (value ++ ['$'])) t := by
  have hstep (sp : Special) (h : sp ≠ .char '\'') :
      handle (valueState .single name value) [] sp =
        (valueState .single name (value ++ sp.text), .next) := by
    simp [handle, handleSpecial, valueState, ScanState.appendIn, ScanState.append, h]
  cases t with
  | nil => exact scan_step special_dollar_nil (hstep _ (by simp))
  | cons d t =>
    by_cases hd : d = '(' ∨ d = '{'
    · rw [scan_step (special_dollarBracket hd t) (hstep _ (by simp))]
      have hchar : isSpecialChar d = true := by rcases hd with rfl | rfl <;> decide
      have hq : d ≠ '\'' := by rcases hd with rfl | rfl <;> decide
      rw [scan_step (special_of_isSpecialChar hchar t) (handle_keep_single name _ hq),
        List.append_assoc]
      rfl
    · exact scan_step (special_dollar hd t) (hstep _ (by simp))

/-! ### Steps of `scanValue` -/

/-- The scanner gets to every special character. -/
theorem nextSpecial_append_special {c : Char} (hc : isSpecialChar c = true) (s t : Text) :
    nextSpecial (s ++ c :: t) ≠ none := by
  induction s with
  | nil =>
    rw [List.nil_append, nextSpecial_of_special (special_of_isSpecialChar hc t)]
    exact Option.some_ne_none _
  | cons d s ih =>
    rw [List.cons_append]
    cases hsp : special (d :: (s ++ c :: t)) with
    | some m =>
      obtain ⟨sp, rest⟩ := m
      rw [nextSpecial_of_special hsp]
      exact Option.some_ne_none _
    | none =>
      rw [nextSpecial_char hsp, ne_eq, Option.map_eq_none_iff]
      exact ih

theorem nextSpecial_special {c : Char} (hc : isSpecialChar c = true) (t : Text) :
    nextSpecial (c :: t) ≠ none :=
  nextSpecial_append_special hc [] t

theorem scanValue_unread (q : Quoting) {t : Text} (h : nextSpecial t = none) :
    scanValue q t = some [] := by
  cases t with
  | nil => unfold scanValue; rfl
  | cons c t =>
    conv => lhs; unfold scanValue
    rw [if_pos h]

theorem scanValue_escape (q : Quoting) (d : Char) (t : Text) :
    scanValue q ('\\' :: d :: t) =
      if q = .single then (scanValue q t).map (['\\', d] ++ ·)
      else if d = '\n' then scanValue q t
      else (scanValue q t).map (d :: ·) := by
  conv => lhs; unfold scanValue
  rw [if_neg (by rw [nextSpecial_of_special (special_backslash d t)]; simp), if_pos rfl]

theorem scanValue_single {c : Char} {t : Text} (hb : c ≠ '\\') (hne : nextSpecial (c :: t) ≠ none) :
    scanValue .single (c :: t) =
      if c = '\'' then scanValue .none t else (scanValue .single t).map (c :: ·) := by
  conv => lhs; unfold scanValue
  rw [if_neg hne, if_neg hb]

theorem scanValue_double {c : Char} {t : Text} (hb : c ≠ '\\') (hne : nextSpecial (c :: t) ≠ none) :
    scanValue .double (c :: t) =
      if c = '"' then scanValue .none t
      else if c = '$' ∨ c = '`' ∨ c = '(' then none
      else (scanValue .double t).map (c :: ·) := by
  conv => lhs; unfold scanValue
  rw [if_neg hne, if_neg hb]

theorem scanValue_none {c : Char} {t : Text} (hb : c ≠ '\\') (hne : nextSpecial (c :: t) ≠ none) :
    scanValue .none (c :: t) =
      if c = '\n' then if t = [] then some [] else none
      else if isSpace c then if afterValue t then some [] else none
      else if c = '#' then if afterComment t then some [] else none
      else if c = '\'' then scanValue .single t
      else if c = '"' then scanValue .double t
      else if c = '$' ∨ c = '`' ∨ c = '(' then none
      else (scanValue .none t).map (c :: ·) := by
  conv => lhs; unfold scanValue
  rw [if_neg hne, if_neg hb]

/-! ### The scanner on a value -/

/-- The scanner, started in a value, takes from a text what `scanValue` does. -/
def Reads (q : Quoting) (t : Text) : Prop :=
  ∀ name value, whole (scan (valueState q name value) t) = (scanValue q t).map (value ++ ·)

theorem map_append_append (value x : Text) (o : Option Text) :
    o.map (value ++ x ++ ·) = (o.map (x ++ ·)).map (value ++ ·) := by
  rw [Option.map_map]
  congr 1
  funext y
  exact List.append_assoc _ _ _

theorem map_cons_append (value : Text) (c : Char) (o : Option Text) :
    (o.map (c :: ·)).map (value ++ ·) = o.map (value ++ [c] ++ ·) :=
  (map_append_append value [c] o).symm

theorem reads_unread {t : Text} (hnone : nextSpecial t = none) (q : Quoting) : Reads q t := by
  intro name value
  rw [scan_none hnone, scanValue_unread q hnone]
  simp [whole, valueState]

theorem reads_escape {d : Char} {t : Text} (ht : ∀ q, Reads q t) (q : Quoting) :
    Reads q ('\\' :: d :: t) := by
  intro name value
  rw [scan_escape, ht, scanValue_escape]
  split
  · exact map_append_append _ _ _
  · split
    · rw [List.append_nil]
    · exact map_append_append _ _ _

theorem reads_quote {q : Quoting} (q' : Quoting) {c : Char} {t : Text}
    (h : (q = .none ∧ c = '\'' ∧ q' = .single) ∨ (q = .none ∧ c = '"' ∧ q' = .double) ∨
      (q = .single ∧ c = '\'' ∧ q' = .none) ∨ (q = .double ∧ c = '"' ∧ q' = .none))
    (ht : ∀ q, Reads q t) (name value : Text) :
    whole (scan (valueState q name value) (c :: t)) = (scanValue q' t).map (value ++ ·) := by
  have hchar : isSpecialChar c = true := by
    rcases h with ⟨-, rfl, -⟩ | ⟨-, rfl, -⟩ | ⟨-, rfl, -⟩ | ⟨-, rfl, -⟩ <;> decide
  rw [scan_step (special_of_isSpecialChar hchar t) (handle_quote q' name value h), ht]

section Read

variable {c : Char} {t : Text} (hb : c ≠ '\\') (hread : nextSpecial (c :: t) ≠ none)
  (ht : ∀ q, Reads q t)

include hb hread ht

theorem reads_single : Reads .single (c :: t) := by
  intro name value
  rw [scanValue_single hb hread]
  by_cases hq : c = '\''
  · rw [if_pos hq, reads_quote .none (by simp [hq]) ht]
  rw [if_neg hq, map_cons_append, ← ht]
  by_cases hd : c = '$'
  · rw [hd, scan_single_dollar]
  · rw [scan_keep hb hd hread rfl fun _ => handle_keep_single name value hq,
      appendIn_valueState]

theorem reads_double : Reads .double (c :: t) := by
  intro name value
  rw [scanValue_double hb hread]
  by_cases hq : c = '"'
  · rw [if_pos hq, reads_quote .none (by simp [hq]) ht]
  rw [if_neg hq]
  by_cases hsub : c = '$' ∨ c = '`' ∨ c = '('
  · rw [if_pos hsub, whole_scan_substitution (by decide) name value hsub]
    rfl
  · rw [if_neg hsub, map_cons_append, ← ht]
    rw [not_or, not_or] at hsub
    rw [scan_keep hb hsub.1 hread rfl fun _ => handle_keep_double name value ⟨hq, hsub.2⟩,
      appendIn_valueState]

theorem reads_none : Reads .none (c :: t) := by
  intro name value
  rw [scanValue_none hb hread]
  by_cases hnl : c = '\n'
  · subst hnl
    rw [if_pos rfl, scan_special (nextSpecial_of_special (special_of_isSpecialChar
      (by decide) t))]
    show whole ({ valueState .none name (value ++ []) with inValue := false }, t) = _
    cases t <;> rfl
  rw [if_neg hnl]
  by_cases hblank : isSpace c = true
  · rw [if_pos hblank, scan_step (special_of_isSpecialChar (isSpecialChar_of_isSpace hblank) t)
      (handle_blank hblank hnl _ rfl (by rw [appendIn_valueState, List.append_nil])),
      whole_scan_afterValue]
    split <;> simp
  rw [if_neg hblank]
  by_cases hcomment : c = '#'
  · subst hcomment
    rw [if_pos rfl, whole_scan_comment]
    split <;> simp
  rw [if_neg hcomment]
  by_cases hq : c = '\''
  · rw [if_pos hq, reads_quote .single (by simp [hq]) ht]
  rw [if_neg hq]
  by_cases hdq : c = '"'
  · rw [if_pos hdq, reads_quote .double (by simp [hdq]) ht]
  rw [if_neg hdq]
  by_cases hsub : c = '$' ∨ c = '`' ∨ c = '('
  · rw [if_pos hsub, whole_scan_substitution (by decide) name value hsub]
    rfl
  · rw [if_neg hsub, map_cons_append, ← ht]
    rw [not_or, not_or] at hsub
    rw [Bool.not_eq_true] at hblank
    rw [scan_keep hb hsub.1 hread rfl fun _ =>
      handle_keep_none name value hblank ⟨hcomment, hq, hdq, hsub.2⟩, appendIn_valueState]

end Read

/-- On the rest of a statement, from the value on, the scanner is `scanValue`. -/
theorem whole_scan (q : Quoting) (t : Text) : Reads q t := by
  by_cases hread : nextSpecial t = none
  · exact reads_unread hread q
  cases t with
  | nil => exact absurd rfl hread
  | cons c t =>
    by_cases hb : c = '\\'
    · subst hb
      cases t with
      | nil => exact absurd rfl hread
      | cons d t => exact reads_escape (fun q => whole_scan q t) q
    have ht (q : Quoting) : Reads q t := whole_scan q t
    cases q with
    | none => exact reads_none hb hread ht
    | single => exact reads_single hb hread ht
    | double => exact reads_double hb hread ht
termination_by t.length

end ShellScanLemmas

/-! ## Assignments -/

/-- A variable name of the scanner. -/
def IsName (name : Text) : Prop :=
  ∃ c t, name = c :: t ∧ isNameStart c = true ∧ ∀ d ∈ t, isNameChar d = true

/-- The name of the assignment on the first line, and the text behind the `=`. -/
def assignment (t : Text) : Option (Text × Text) :=
  match lines t with
  | [] => none
  | line :: file => (matchName line).map fun m => (m.1, m.2 ++ file.flatten)

namespace ShellScanLemmas

theorem takeWhile_append_of_neg {p : Char → Bool} {s : Text} (hs : ∀ c ∈ s, p c = true)
    {c : Char} (hc : p c = false) (t : Text) :
    (s ++ c :: t).takeWhile p = s ∧ (s ++ c :: t).dropWhile p = c :: t := by
  rw [List.takeWhile_append_of_pos hs, List.dropWhile_append_of_pos hs,
    List.takeWhile_cons_of_neg (by rw [hc]; decide),
    List.dropWhile_cons_of_neg (by rw [hc]; decide), List.append_nil]
  exact ⟨rfl, rfl⟩

theorem isSpace_of_isNameStart {c : Char} (h : isNameStart c = true) : isSpace c = false := by
  by_contra hs
  rw [Bool.not_eq_false] at hs
  simp only [isSpace, decide_eq_true_eq] at hs
  rcases hs with rfl | rfl | rfl | rfl | rfl | rfl <;> exact absurd h (by decide)

theorem matchName_eq_some {line name rest : Text} :
    matchName line = some (name, rest) ↔
      ∃ p, (∀ c ∈ p, isSpace c = true) ∧ IsName name ∧ line = p ++ name ++ '=' :: rest := by
  unfold matchName
  constructor
  · intro h
    have hline := List.takeWhile_append_dropWhile (p := isSpace) (l := line)
    cases hd : line.dropWhile isSpace with
    | nil =>
      rw [hd] at h
      cases h
    | cons c t =>
      rw [hd] at h hline
      simp only at h
      split at h
      · next hstart =>
        have ht := List.takeWhile_append_dropWhile (p := isNameChar) (l := t)
        split at h
        · next r hr =>
          cases h
          rw [hr] at ht
          refine ⟨line.takeWhile isSpace, fun d hmem => List.mem_takeWhile_imp hmem,
            ⟨c, _, rfl, hstart, fun d hmem => List.mem_takeWhile_imp hmem⟩, ?_⟩
          rw [List.append_assoc, List.cons_append, ht, hline]
        · cases h
      · cases h
  · rintro ⟨p, hp, ⟨c, t, rfl, hstart, ht⟩, rfl⟩
    have hdrop := (takeWhile_append_of_neg hp (isSpace_of_isNameStart hstart) (t ++ '=' :: rest)).2
    obtain ⟨htake, hdrop'⟩ := takeWhile_append_of_neg ht (c := '=') (by decide) rest
    rw [List.append_assoc, List.cons_append, hdrop]
    simp only [hstart, if_true, hdrop', htake]

theorem startValue_suffix (st : ScanState) (line : Text) :
    ∃ p, line = p ++ (startValue st line).2 := by
  unfold startValue
  cases hm : matchName line with
  | none => exact ⟨[], rfl⟩
  | some m =>
    obtain ⟨name, rest⟩ := m
    obtain ⟨p, -, -, hline⟩ := matchName_eq_some.mp hm
    exact ⟨p ++ name ++ ['='], by rw [hline, List.append_assoc _ ['=']]; rfl⟩

/-- From the first line on, reading line by line is `scan`. -/
theorem nextLines_start {t line : Text} {file : List Text} (h : lines t = line :: file) :
    ∃ text, nextLines true .initial [] (lines t) =
      ((scan (startValue .initial line).1 ((startValue .initial line).2 ++ file.flatten)).1, text,
        lines (scan (startValue .initial line).1
          ((startValue .initial line).2 ++ file.flatten)).2) := by
  obtain ⟨p, hp⟩ := startValue_suffix .initial line
  rcases lines_cases t with rfl | ⟨hno, hne, hlines⟩ | ⟨body, rest, hbody, rfl, hlines⟩
  · cases h
  · rw [hlines] at h
    cases h
    have hr : '\n' ∉ (startValue .initial t).2 := fun hmem =>
      hno (by rw [hp]; exact List.mem_append_right _ hmem)
    obtain ⟨hscan, hlast⟩ := scan_lastLine (startValue .initial t).1 hr
    refine ⟨t, ?_⟩
    rw [hlines, List.flatten_nil, List.append_nil, hscan, nextLines,
      show nextLine true .initial t = ((scanLine (startValue .initial t).1
        (startValue .initial t).2).1, false) from Prod.ext rfl hlast]
    rfl
  · rw [hlines] at h
    cases h
    have hscan := scan_line (startValue .initial (body ++ ['\n'])).1
      (isLine_suffix ⟨body, hbody, rfl⟩ hp) rest
    rw [hlines, flatten_lines, nextLines, hscan,
      show nextLine true .initial (body ++ ['\n']) = scanLine (startValue .initial _).1
        (startValue .initial _).2 from rfl]
    cases scanLine (startValue .initial (body ++ ['\n'])).1
        (startValue .initial (body ++ ['\n'])).2 with
    | mk st' last =>
      cases last with
      | true => exact ⟨_, rfl⟩
      | false => exact nextLines_scan st' _ rest

theorem statement_eq_some {st : ScanState} {text name value : Text} :
    st.statement text = ⟨text, some name, some value⟩ ↔
      st.unhandled = false ∧ st.name = some name ∧ st.value = some value := by
  unfold ScanState.statement
  cases st.unhandled <;> simp

theorem lines_eq_nil {t : Text} (h : lines t = []) : t = [] := by
  by_contra hne
  exact lines_ne_nil hne h

theorem assignment_cons {t line : Text} {file : List Text} (h : lines t = line :: file) :
    assignment t = (matchName line).map fun m => (m.1, m.2 ++ file.flatten) := by
  rw [assignment, h]

theorem shellvarsNext_whole {t line name value : Text} {file : List Text}
    (h : lines t = line :: file) :
    shellvarsNext (lines t) = some (⟨t, some name, some value⟩, []) ↔
      (scan (startValue .initial line).1 ((startValue .initial line).2 ++ file.flatten)).1.name =
          some name ∧
        whole (scan (startValue .initial line).1 ((startValue .initial line).2 ++ file.flatten)) =
          some value := by
  obtain ⟨text, hnext⟩ := nextLines_start h
  revert hnext
  generalize scan (startValue .initial line).1 ((startValue .initial line).2 ++ file.flatten) = r
  intro hnext
  obtain ⟨st, rest⟩ := r
  unfold whole
  constructor
  · intro hstmt
    obtain ⟨st', hst', -, heq⟩ := shellvarsNext_eq_some hstmt
    rw [hnext] at hst'
    simp only [Prod.mk.injEq] at hst'
    obtain ⟨rfl, -, hrest⟩ := hst'
    obtain ⟨hun, hname, hvalue⟩ := statement_eq_some.mp heq.symm
    exact ⟨hname, (if_pos ⟨lines_eq_nil hrest, hun⟩).trans hvalue⟩
  · rintro ⟨hname, hwhole⟩
    split at hwhole
    · next hc =>
      obtain ⟨hrest, hun⟩ := hc
      simp only at hrest hwhole
      subst hrest
      obtain ⟨used, hused, htext, -⟩ := nextLines_used hnext
      rw [lines_nil, List.append_nil] at hused
      rw [← hused, flatten_lines, List.nil_append] at htext
      have hne : t ≠ [] := by
        rintro rfl
        cases h
      rw [shellvarsNext_of_nextLines hnext (htext ▸ hne), htext,
        statement_eq_some.mpr ⟨hun, hname, hwhole⟩]
      rfl
    · cases hwhole

end ShellScanLemmas

open ShellScanLemmas

/-- When a whole text is one statement that is reported with a name and a value. -/
theorem shellvarsNext_alone_iff {t name value : Text} :
    shellvarsNext (lines t) = some (⟨t, some name, some value⟩, []) ↔
      ∃ w, assignment t = some (name, w) ∧ scanValue .none w = some value := by
  cases hl : lines t with
  | nil =>
    constructor
    · intro h
      cases h
    · rintro ⟨w, hw, _⟩
      rw [assignment, hl] at hw
      cases hw
  | cons line file =>
    rw [← hl, shellvarsNext_whole hl, (keeps_scan _ _).name, assignment_cons hl]
    unfold startValue
    cases matchName line with
    | none =>
      constructor
      · intro h
        cases h.1
      · rintro ⟨w, hw, _⟩
        cases hw
    | some m =>
      obtain ⟨name', rest⟩ := m
      have hwhole := whole_scan .none (rest ++ file.flatten) name' []
      simp only [List.nil_append, Option.map_id'] at hwhole
      show some name' = some name ∧
        whole (scan (valueState .none name' []) (rest ++ file.flatten)) = some value ↔ _
      rw [hwhole]
      refine ⟨fun ⟨hname, hvalue⟩ => ⟨_, ?_, hvalue⟩, fun ⟨w, hw, hvalue⟩ => ?_⟩
      · cases hname
        rfl
      · cases hw
        exact ⟨rfl, hvalue⟩

namespace ShellScanLemmas

/-! ### The first line -/

theorem newline_last {t line p r : Text} {file : List Text} (h : lines t = line :: file)
    (hline : line = p ++ r) (hr : r ≠ []) : '\n' ∉ p := by
  rcases lines_cases t with rfl | ⟨hno, -, hlines⟩ | ⟨body, rest, hbody, rfl, hlines⟩
  · cases h
  · rw [hlines] at h
    cases h
    exact fun hmem => hno (by rw [hline]; exact List.mem_append_left _ hmem)
  · rw [hlines] at h
    cases h
    obtain ⟨r', c, rfl⟩ := (List.eq_nil_or_concat r).resolve_left hr
    rw [List.concat_eq_append, ← List.append_assoc] at hline
    rw [(List.append_inj' hline rfl).1] at hbody
    exact fun hmem => hbody (List.mem_append_left _ hmem)

theorem lines_append_left {s : Text} (hs : '\n' ∉ s) (hne : s ≠ []) (t : Text) :
    lines (s ++ t) = (s ++ (lines t).headD []) :: (lines t).tail := by
  rcases lines_cases t with rfl | ⟨hno, htne, hlines⟩ | ⟨body, rest, hbody, rfl, hlines⟩
  · rw [List.append_nil, lines_body hs hne]
    simp
  · rw [hlines, lines_body (by rw [List.mem_append, not_or]; exact ⟨hs, hno⟩) (by simp [hne])]
    rfl
  · rw [hlines, ← List.append_assoc,
      lines_body_newline (by rw [List.mem_append, not_or]; exact ⟨hs, hbody⟩)]
    simp

theorem newline_of_isName {name : Text} (h : IsName name) : '\n' ∉ name := by
  obtain ⟨c, t, rfl, hc, ht⟩ := h
  rw [List.mem_cons, not_or]
  refine ⟨?_, fun hmem => absurd (ht _ hmem) (by decide)⟩
  rintro rfl
  exact absurd hc (by decide)

theorem assignment_eq_some {t name w : Text} :
    assignment t = some (name, w) ↔
      ∃ p, (∀ c ∈ p, isSpace c = true ∧ c ≠ '\n') ∧ IsName name ∧ t = p ++ name ++ '=' :: w := by
  constructor
  · intro h
    cases hl : lines t with
    | nil =>
      rw [assignment, hl] at h
      cases h
    | cons line file =>
      rw [assignment_cons hl, Option.map_eq_some_iff] at h
      obtain ⟨⟨name', rest⟩, hm, heq⟩ := h
      cases heq
      obtain ⟨p, hp, hname, hline⟩ := matchName_eq_some.mp hm
      refine ⟨p, fun c hc => ⟨hp c hc, ?_⟩, hname, ?_⟩
      · rintro rfl
        rw [List.append_assoc] at hline
        exact newline_last hl hline (by simp) hc
      · rw [← flatten_lines t, hl, List.flatten_cons, hline]
        simp
  · rintro ⟨p, hp, hname, rfl⟩
    have hno : '\n' ∉ p ++ name ++ ['='] := by
      simp only [List.mem_append, not_or]
      exact ⟨⟨fun hmem => (hp _ hmem).2 rfl, newline_of_isName hname⟩, by decide⟩
    have hl := lines_append_left hno (by simp) w
    rw [List.append_assoc _ ['=']] at hl
    show assignment (p ++ name ++ (['='] ++ w)) = _
    rw [assignment_cons hl, matchName_eq_some.mpr ⟨p, fun c hc => (hp c hc).1, hname,
      by rw [List.append_assoc _ ['=']]; rfl⟩]
    have hw : (lines w).headD [] ++ (lines w).tail.flatten = w := by
      have hflat := flatten_lines w
      cases hw : lines w with
      | nil => rwa [hw] at hflat
      | cons l ls => rwa [hw] at hflat
    exact congrArg (fun r => some (name, r)) hw

end ShellScanLemmas

end DebianKernel.DiskId
