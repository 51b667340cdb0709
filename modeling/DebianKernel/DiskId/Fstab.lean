import DebianKernel.DiskId.LineUpdate

/-!
# The file system table

`fstab_next`, `fstab_list` and `fstab_update` of the `linux-base` postinst: the first
field of an entry of `/etc/fstab` is replaced by the id of its device, behind a copy of
the old entry that is turned into a comment.

Results:
1. `rewriteEntry_eq`: the raw line is cut where the parsed copy is cut.
2. `lines_flatMap_pieces`: the lines of a file that is put together from pieces.
3. `fstabUpdate_law`: what `fstab_next` reads in the updated file, and how the old file
   is found in it.
-/

namespace DebianKernel.DiskId

open Text LineUpdateLemmas

/-! ## Definitions -/

/-- `s/\r?\n$//`. -/
def stripEol (text : Text) : Text :=
  match text.reverse with
  | '\n' :: '\r' :: t => t.reverse
  | '\n' :: t => t.reverse
  | _ => text

/-- `split(/[ \t]+/, …)`. An empty field at the end is left out. -/
def splitBlanks (line : Text) : List Text :=
  match line with
  | [] => []
  | c :: t =>
    (c :: t).takeWhile (!isBlankChar ·) ::
      splitBlanks (((c :: t).dropWhile (!isBlankChar ·)).dropWhile isBlankChar)
termination_by line.length
decreasing_by
  have hword := (List.dropWhile_suffix (!isBlankChar ·) (l := t)).length_le
  have hrest := fun l : Text => (List.dropWhile_suffix isBlankChar (l := l)).length_le
  cases hc : isBlankChar c with
  | true => simp [hc, Nat.lt_succ_of_le (hrest t)]
  | false => simp [hc, Nat.lt_succ_of_le (le_trans (hrest _) hword)]

/-- The value of an octal digit. -/
def octal? (c : Char) : Option Nat :=
  if '0' ≤ c ∧ c ≤ '7' then some (c.toNat - '0'.toNat) else none

/-- `s/\\([0-7][0-7][0-7])/chr(oct($1) & 0xff)/eg`. -/
def decodeOctal : Text → Text
  | [] => []
  | c :: t =>
    match c, t with
    | '\\', a :: b :: d :: rest =>
      match octal? a, octal? b, octal? d with
      | some x, some y, some z => Char.ofNat ((64 * x + 8 * y + z) % 256) :: decodeOctal rest
      | _, _, _ => '\\' :: decodeOctal (a :: b :: d :: rest)
    | c, t => c :: decodeOctal t

/-- The fields that `fstab_next` returns behind the text of a line. -/
def fstabNext (text : Text) : List Text :=
  match (stripEol text).dropWhile isBlankChar with
  | [] => []
  | '#' :: _ => []
  | c :: line => (splitBlanks (c :: line)).map decodeOctal

/-- `fstab_list`. -/
def fstabList (file : Text) : List Text := (lines file).filterMap fun text => (fstabNext text).head?

/-- `s/^(\s*\S+)(.*)/# $1$2\n$id$2/`. -/
def rewriteEntry (id text : Text) : Text :=
  let dev := (text.dropWhile isSpace).takeWhile (!isSpace ·)
  let rest := (text.dropWhile isSpace).dropWhile (!isSpace ·)
  if dev = [] then text
  else
    "# " ++ text.takeWhile isSpace ++ dev ++ rest.takeWhile (· ≠ '\n') ++ ['\n'] ++
      id ++ rest.takeWhile (· ≠ '\n') ++ rest.dropWhile (· ≠ '\n')

/-- The id for the device of a line. -/
def fstabId (map : DeviceMap) (text : Text) : Option Text := (fstabNext text).head?.bind map

/-- What `fstab_update` writes for a line. -/
def fstabUpdateLine (map : DeviceMap) (text : Text) : Text :=
  match fstabId map text with
  | some id => rewriteEntry id text
  | none => text

/-- `fstab_update`. -/
def fstabUpdate (old : Text) (map : DeviceMap) : Text :=
  ((lines old).map (fstabUpdateLine map)).flatten

/-! ## What the update does -/

/-- What becomes of one line: it is kept, or it is commented out, with its newline, and a
new line follows it. -/
inductive Piece
  | kept (text : Text)
  | rewritten (old new : Text)

/-- The lines that are written. -/
def Piece.lines : Piece → List Text
  | .kept text => [text]
  | .rewritten old new => ["# " ++ old, new]

/-- The line without the prefix, and without the line that was added. -/
def Piece.undo : Piece → Text
  | .kept text => text
  | .rewritten old _ => old

/-- The piece is the line itself if its device is not in the map. Otherwise the old line is
a comment now, up to a missing final newline, and the fields of the new line are the id of
the device and the further fields of the old line. -/
inductive IsPieceOf (map : DeviceMap) (text : Text) : Piece → Prop
  | kept : fstabId map text = none → IsPieceOf map text (.kept text)
  | rewritten {bdev id old new : Text} {fields : List Text} :
      fstabNext text = bdev :: fields → map bdev = some id →
      (old = text ∨ '\n' ∉ text ∧ old = text ++ ['\n']) →
      fstabNext ("# " ++ old) = [] → fstabNext new = id :: fields →
      IsPieceOf map text (.rewritten old new)

/-! ## Line ends and blanks -/

namespace FstabLemmas

/-- The line end that is taken off a line. -/
inductive Eol : Text → Text → Prop
  | none {line : Text} : line.getLast? ≠ some '\n' → Eol line []
  | newline {line : Text} : line.getLast? ≠ some '\r' → Eol line ['\n']
  | crlf (line : Text) : Eol line ['\r', '\n']

/-- The line end stays one behind a line with the same last character, or with a visible one. -/
theorem Eol.congr {line line' eol : Text} (h : Eol line eol)
    (hlast : ∀ c ∈ line'.getLast?, line.getLast? = some c ∨ isSpace c = false) : Eol line' eol := by
  have hkeep : ∀ c, isSpace c = true → line.getLast? ≠ some c → line'.getLast? ≠ some c := by
    intro c hc hne heq
    rcases hlast c heq with h | h
    · exact hne h
    · rw [hc] at h
      cases h
  cases h with
  | none h => exact .none (hkeep _ rfl h)
  | newline h => exact .newline (hkeep _ rfl h)
  | crlf => exact .crlf line'

theorem stripEol_append {line eol : Text} (h : Eol line eol) : stripEol (line ++ eol) = line := by
  cases h with
  | none h =>
    rw [List.append_nil, stripEol]
    split
    · next heq => simp [← List.head?_reverse, heq] at h
    · next heq => simp [← List.head?_reverse, heq] at h
    · rfl
  | newline h =>
    rw [stripEol, List.reverse_append]
    cases hrev : line.reverse with
    | nil => rw [List.reverse_eq_nil_iff.mp hrev]; rfl
    | cons c t =>
      have hc : c ≠ '\r' := by
        rintro rfl
        simp [← List.head?_reverse, hrev] at h
      rw [← List.reverse_reverse line, hrev]
      show (match '\n' :: c :: t with
        | '\n' :: '\r' :: t => t.reverse
        | '\n' :: t => t.reverse
        | _ => _) = _
      split
      · next heq => exact absurd (List.cons.inj (List.cons.inj heq).2).1 hc
      · next heq => rw [(List.cons.inj heq).2]
      · next hne => exact absurd rfl (hne (c :: t))
  | crlf => simp [stripEol]

theorem exists_eol (text : Text) : ∃ line eol, text = line ++ eol ∧ Eol line eol := by
  cases text using List.reverseRecOn with
  | nil => exact ⟨[], [], rfl, .none (by simp)⟩
  | append_singleton t c =>
    by_cases hc : c = '\n'
    · subst hc
      by_cases ht : t.getLast? = some '\r'
      · obtain ⟨line, rfl⟩ := List.getLast?_eq_some_iff.mp ht
        exact ⟨line, ['\r', '\n'], by simp, .crlf line⟩
      · exact ⟨t, ['\n'], rfl, .newline ht⟩
    · exact ⟨t ++ [c], [], by simp, .none (by simpa using hc)⟩

theorem isSpace_of_isBlankChar {c : Char} (h : isBlankChar c = true) : isSpace c = true := by
  rcases of_decide_eq_true h with rfl | rfl <;> rfl

theorem not_isBlankChar {c : Char} (h : isSpace c = false) : isBlankChar c = false := by
  cases hc : isBlankChar c with
  | false => rfl
  | true => rw [isSpace_of_isBlankChar hc] at h; cases h

/-! ## Decoding -/

theorem decodeOctal_of_no_backslash {t : Text} (h : '\\' ∉ t) : decodeOctal t = t := by
  induction t with
  | nil => rfl
  | cons c t ih =>
    rw [List.mem_cons, not_or] at h
    rw [decodeOctal, ih h.2]
    rintro _ _ _ _ rfl _
    exact h.1 rfl

theorem isSpace_of_octal? {c : Char} {n : Nat} (h : octal? c = some n) : isSpace c = false := by
  rw [octal?] at h
  split at h
  · next hc =>
    cases hs : isSpace c with
    | false => rfl
    | true => rcases of_decide_eq_true hs with rfl | rfl | rfl | rfl | rfl | rfl <;>
        exact absurd hc (by decide)
  · cases h

/-- A blank of the raw field is a blank of the decoded one. -/
theorem mem_decodeOctal {t : Text} {c : Char} (hc : c ∈ t) (hspace : isSpace c = true) :
    c ∈ decodeOctal t := by
  have hne : ∀ {d : Char}, isSpace d = false → c ≠ d := by
    rintro d hd rfl
    rw [hspace] at hd
    cases hd
  induction t using decodeOctal.induct with
  | case1 => cases hc
  | case2 a b d rest x y z hd hb ha ih =>
    rw [decodeOctal, ha, hb, hd]
    refine List.mem_cons_of_mem _ (ih ?_)
    simpa [hne (d := '\\') rfl, hne (isSpace_of_octal? ha), hne (isSpace_of_octal? hb),
      hne (isSpace_of_octal? hd)] using hc
  | case3 a b d rest hnone ih =>
    have hrest : c ∈ a :: b :: d :: rest := (List.mem_cons.mp hc).resolve_left (hne rfl)
    rw [decodeOctal]
    split
    · next hx hy hz => exact (hnone _ _ _ hx hy hz).elim
    · exact List.mem_cons_of_mem _ (ih hrest)
  | case4 d t hno ih =>
    rw [decodeOctal]
    · cases hc with
      | head => exact List.mem_cons_self
      | tail _ hc => exact List.mem_cons_of_mem _ (ih hc)
    · exact hno

/-! ## The fields of a line -/

theorem splitBlanks_cons (c : Char) (t : Text) :
    splitBlanks (c :: t) = (c :: t).takeWhile (!isBlankChar ·) ::
      splitBlanks (((c :: t).dropWhile (!isBlankChar ·)).dropWhile isBlankChar) := by
  rw [splitBlanks]

/-- A word at the start of a line is its first field. -/
theorem splitBlanks_word {dev rest : Text} (hne : dev ≠ []) (hdev : ∀ c ∈ dev, isSpace c = false)
    (hrest : ∀ c ∈ rest.head?, isBlankChar c = true) :
    splitBlanks (dev ++ rest) = dev :: splitBlanks (rest.dropWhile isBlankChar) := by
  have hall : ∀ c ∈ dev, (!isBlankChar c) = true := fun c hc => by
    rw [not_isBlankChar (hdev c hc)]
    rfl
  have htake : (dev ++ rest).takeWhile (!isBlankChar ·) = dev := by
    rw [List.takeWhile_append_of_pos hall]
    cases rest with
    | nil => simp
    | cons c rest => simp [hrest c rfl]
  have hdrop : (dev ++ rest).dropWhile (!isBlankChar ·) = rest := by
    rw [List.dropWhile_append_of_pos hall]
    cases rest with
    | nil => simp
    | cons c rest => simp [hrest c rfl]
  obtain ⟨c, t, rfl⟩ := List.exists_cons_of_ne_nil hne
  rw [List.cons_append] at htake hdrop ⊢
  rw [splitBlanks_cons, htake, hdrop]

theorem fstabNext_append {line eol : Text} (h : Eol line eol) :
    fstabNext (line ++ eol) =
      match line.dropWhile isBlankChar with
      | [] => []
      | '#' :: _ => []
      | c :: line => (splitBlanks (c :: line)).map decodeOctal := by
  rw [fstabNext, stripEol_append h]

/-- A comment has no fields. -/
theorem fstabNext_comment (t : Text) : fstabNext ('#' :: t) = [] := by
  obtain ⟨line, eol, heq, heol⟩ := exists_eol ('#' :: t)
  cases line with
  | nil => cases heol <;> cases heq
  | cons c line =>
    obtain ⟨rfl, -⟩ := List.cons.inj heq
    rw [heq, fstabNext_append heol]
    rfl

/-- The fields of a line that starts with a word. -/
theorem fstabNext_word {dev rest eol : Text} (hne : dev ≠ [])
    (hdev : ∀ c ∈ dev, isSpace c = false) (hhash : dev.head? ≠ some '#')
    (hrest : ∀ c ∈ rest.head?, isBlankChar c = true) (heol : Eol (dev ++ rest) eol) :
    fstabNext (dev ++ rest ++ eol) =
      decodeOctal dev :: (splitBlanks (rest.dropWhile isBlankChar)).map decodeOctal := by
  rw [fstabNext_append heol, ← List.map_cons, ← splitBlanks_word hne hdev hrest]
  obtain ⟨c, t, rfl⟩ := List.exists_cons_of_ne_nil hne
  have hc := not_isBlankChar (hdev c List.mem_cons_self)
  rw [List.cons_append, List.dropWhile_cons_of_neg (by rw [hc]; exact Bool.false_ne_true)]
  split
  · next h => cases h
  · next h => exact absurd (congrArg List.head? h) hhash
  · next h => rw [h]

/-- The line of an entry, cut at the end of its first field. -/
theorem fstabNext_eq_cons {text bdev : Text} {fields : List Text}
    (h : fstabNext text = bdev :: fields) (hbdev : ∀ c ∈ bdev, isSpace c = false) :
    ∃ pre dev rest eol, text = pre ++ (dev ++ rest) ++ eol ∧ (∀ c ∈ pre, isBlankChar c = true) ∧
      dev ≠ [] ∧ (∀ c ∈ dev, isSpace c = false) ∧ (∀ c ∈ rest.head?, isBlankChar c = true) ∧
      Eol (dev ++ rest) eol ∧ bdev = decodeOctal dev ∧
      fields = (splitBlanks (rest.dropWhile isBlankChar)).map decodeOctal := by
  obtain ⟨line, eol, rfl, heol⟩ := exists_eol text
  rw [fstabNext_append heol] at h
  have hline := List.takeWhile_append_dropWhile (p := isBlankChar) (l := line)
  split at h
  · cases h
  · cases h
  · next c t hhash hdrop =>
    rw [splitBlanks_cons, List.map_cons] at h
    obtain ⟨hb, hf⟩ := List.cons.inj h
    have hcut := List.takeWhile_append_dropWhile (p := (!isBlankChar ·)) (l := c :: t)
    have hc : isBlankChar c = false := by
      have := List.head?_dropWhile_not isBlankChar line
      rw [hdrop] at this
      simpa using this
    refine ⟨line.takeWhile isBlankChar, (c :: t).takeWhile (!isBlankChar ·),
      (c :: t).dropWhile (!isBlankChar ·), eol, ?_, fun c hc => List.mem_takeWhile_imp hc,
      ?_, ?_, ?_, ?_, hb.symm, hf.symm⟩
    · rw [hcut, ← hdrop, hline]
    · simp [hc]
    · intro d hd
      cases hs : isSpace d with
      | false => rfl
      | true =>
        rw [← hb] at hbdev
        rw [hbdev d (mem_decodeOctal hd hs)] at hs
        cases hs
    · intro d hd
      have := List.head?_dropWhile_not (!isBlankChar ·) (c :: t)
      rw [Option.mem_def] at hd
      rw [hd] at this
      simpa using this
    · refine heol.congr ?_
      intro d hd
      rw [hcut, Option.mem_def] at hd
      rw [← hline, hdrop, List.getLast?_append, hd]
      exact .inl rfl

/-! ## The two lines of an entry -/

/-- The rewrite cuts the raw line where the parsed copy is cut. -/
theorem rewriteEntry_eq {pre dev two nl id : Text} (hpre : ∀ c ∈ pre, isSpace c = true)
    (hne : dev ≠ []) (hdev : ∀ c ∈ dev, isSpace c = false)
    (htail : ∀ c ∈ (two ++ nl).head?, isSpace c = true) (htwo : '\n' ∉ two)
    (hnl : nl = [] ∨ nl = ['\n']) :
    rewriteEntry id (pre ++ dev ++ (two ++ nl)) =
      ("# " ++ (pre ++ dev ++ two ++ ['\n'])) ++ (id ++ two ++ nl) := by
  have hstop : ∀ c ∈ (dev ++ (two ++ nl)).head?, ¬ isSpace c = true := by
    obtain ⟨d, t, rfl⟩ := List.exists_cons_of_ne_nil hne
    rintro c ⟨⟩
    rw [hdev d List.mem_cons_self]
    exact Bool.false_ne_true
  have hblank : (pre ++ dev ++ (two ++ nl)).takeWhile isSpace = pre ∧
      (pre ++ dev ++ (two ++ nl)).dropWhile isSpace = dev ++ (two ++ nl) := by
    rw [List.append_assoc, List.takeWhile_append_of_pos hpre, List.dropWhile_append_of_pos hpre]
    obtain ⟨d, t, rfl⟩ := List.exists_cons_of_ne_nil hne
    rw [List.cons_append] at hstop ⊢
    have hd := hstop d rfl
    simp [hd]
  obtain ⟨hword, hrest⟩ := takeWhile_word hdev htail
  have hall : ∀ c ∈ two, (c ≠ '\n' : Bool) = true := fun c hc =>
    decide_eq_true fun heq => htwo (heq ▸ hc)
  have hline : (two ++ nl).takeWhile (· ≠ '\n') = two ∧ (two ++ nl).dropWhile (· ≠ '\n') = nl := by
    rw [List.takeWhile_append_of_pos hall, List.dropWhile_append_of_pos hall]
    rcases hnl with rfl | rfl
    · exact ⟨List.append_nil two, rfl⟩
    · exact ⟨List.append_nil two, rfl⟩
  rw [rewriteEntry, hblank.1, hblank.2, hword, hrest, hline.1, hline.2]
  simp [hne]

/-- A newline stands only at the end of a line. -/
theorem newline_of_line {x nl : Text} (h : IsLine (x ++ nl) ∨ '\n' ∉ x ++ nl)
    (hnl : nl = [] ∧ x.getLast? ≠ some '\n' ∨ nl = ['\n']) : '\n' ∉ x := by
  rcases h with ⟨body, hbody, heq⟩ | h
  · rcases hnl with ⟨rfl, hlast⟩ | rfl
    · rw [List.append_nil] at heq
      rw [heq, List.getLast?_concat] at hlast
      exact absurd rfl hlast
    · obtain ⟨rfl, -⟩ := List.append_inj' heq rfl
      exact hbody
  · exact fun hmem => h (List.mem_append_left _ hmem)

/-- The line end as the rewrite sees it: a carriage return belongs to the line. -/
theorem Eol.cut {line eol : Text} (h : Eol line eol) :
    ∃ cr nl, eol = cr ++ nl ∧ (cr = [] ∨ cr = ['\r']) ∧ (nl = [] ∨ nl = ['\n']) ∧
      (nl = [] → cr = [] ∧ line.getLast? ≠ some '\n') := by
  cases h with
  | none h => exact ⟨[], [], rfl, .inl rfl, .inl rfl, fun _ => ⟨rfl, h⟩⟩
  | newline h => exact ⟨[], ['\n'], rfl, .inl rfl, .inr rfl, nofun⟩
  | crlf => exact ⟨['\r'], ['\n'], rfl, .inr rfl, .inr rfl, nofun⟩

end FstabLemmas

open FstabLemmas

/-! ## One line -/

section

variable {map : DeviceMap} (hmap : map.Writable)
  (hkeys : ∀ bdev id, map bdev = some id → ∀ c ∈ bdev, isSpace c = false)
  (hids : ∀ bdev id, map bdev = some id → '\\' ∉ id)

include hmap hkeys hids

/-- A rewritten line: the old line, without its newline, becomes a comment, and the new
line has the same further fields. -/
theorem exists_rewritten {text id : Text} (htext : IsLine text ∨ '\n' ∉ text)
    (hid : fstabId map text = some id) :
    ∃ line nl two bdev fields, text = line ++ nl ∧ '\n' ∉ line ∧ (nl = [] ∨ nl = ['\n']) ∧
      '\n' ∉ id ++ two ∧ fstabNext text = bdev :: fields ∧ map bdev = some id ∧
      fstabUpdateLine map text = ("# " ++ (line ++ ['\n'])) ++ (id ++ two ++ nl) ∧
      fstabNext (id ++ two ++ nl) = id :: fields := by
  obtain ⟨bdev, hbdev, hb⟩ := Option.bind_eq_some_iff.mp hid
  obtain ⟨fields, hfields⟩ := List.head?_eq_some_iff.mp hbdev
  obtain ⟨pre, dev, rest, eol, rfl, hpre, hne, hdev, hrest, heol, -, hf⟩ :=
    fstabNext_eq_cons hfields (hkeys bdev id hb)
  obtain ⟨cr, nl, rfl, hcr, hnl, hend⟩ := heol.cut
  obtain ⟨hisId, hidchars⟩ := hmap bdev id hb
  have hlast : (pre ++ (dev ++ rest)).getLast? = (dev ++ rest).getLast? := by
    rw [List.getLast?_append, List.getLast?_eq_some_getLast (by simp [hne])]
    rfl
  have hcut : pre ++ (dev ++ rest) ++ (cr ++ nl) = pre ++ dev ++ (rest ++ cr) ++ nl := by
    simp only [List.append_assoc]
  have hline : '\n' ∉ pre ++ dev ++ (rest ++ cr) := by
    rw [hcut] at htext
    refine newline_of_line htext (hnl.imp_left ?_)
    rintro rfl
    obtain ⟨rfl, hne⟩ := hend rfl
    rw [List.append_nil, List.append_assoc, hlast]
    exact ⟨rfl, hne⟩
  have htwo : '\n' ∉ rest ++ cr := fun h => hline (List.mem_append_right _ h)
  have htail : ∀ c ∈ (rest ++ cr ++ nl).head?, isSpace c = true := by
    cases rest with
    | nil => rcases hcr with rfl | rfl <;> rcases hnl with rfl | rfl <;> simp [isSpace]
    | cons c rest =>
      rintro c ⟨⟩
      exact isSpace_of_isBlankChar (hrest c rfl)
  refine ⟨pre ++ dev ++ (rest ++ cr), nl, rest ++ cr, bdev, fields, hcut, hline, hnl, ?_, hfields,
    hb, ?_, ?_⟩
  · exact fun h => (List.mem_append.mp h).elim (newline_of_noSpace hidchars) htwo
  · rw [fstabUpdateLine, hid, hcut, List.append_assoc _ _ nl]
    exact rewriteEntry_eq (fun c hc => isSpace_of_isBlankChar (hpre c hc)) hne hdev htail htwo hnl
  · have hnew : id ++ (rest ++ cr) ++ nl = id ++ rest ++ (cr ++ nl) := by
      simp only [List.append_assoc]
    have hhash : id.head? ≠ some '#' := by
      rcases hisId with ⟨_, rfl⟩ | ⟨_, rfl⟩ | ⟨_, rfl⟩ <;> exact fun h => by cases h
    rw [hnew, fstabNext_word (isId_ne_nil hisId) hidchars hhash hrest, hf,
      decodeOctal_of_no_backslash (hids bdev id hb)]
    refine heol.congr ?_
    intro c hc
    cases rest using List.reverseRecOn with
    | nil =>
      rw [List.append_nil] at hc
      exact .inr (hidchars c (List.mem_of_getLast? hc))
    | append_singleton rest d =>
      rw [← List.append_assoc, List.getLast?_concat] at hc ⊢
      exact .inl hc

/-- What becomes of a complete line, and of a last line without a newline. -/
theorem exists_piece {text : Text} (htext : IsLine text ∨ '\n' ∉ text) :
    ∃ piece, IsPieceOf map text piece ∧ fstabUpdateLine map text = piece.lines.flatten ∧
      (IsLine text → (∀ l ∈ piece.lines, IsLine l) ∧ piece.undo = text) ∧
      ('\n' ∉ text → text ≠ [] → lines piece.lines.flatten = piece.lines ∧
        (piece.undo = text ∨ piece.undo = text ++ ['\n'])) := by
  cases hid : fstabId map text with
  | none =>
    refine ⟨.kept text, .kept hid, ?_, ?_, ?_⟩
    · rw [fstabUpdateLine, hid]
      exact (List.append_nil text).symm
    · intro hline
      exact ⟨fun l hl => List.mem_singleton.mp hl ▸ hline, rfl⟩
    · intro hno hne
      refine ⟨?_, .inl rfl⟩
      rw [Piece.lines, List.flatten_singleton, lines_body hno hne]
  | some id =>
    obtain ⟨line, nl, two, bdev, fields, rfl, hline, hnl, hnew, hfields, hb, hwrite, hread⟩ :=
      exists_rewritten hmap hkeys hids htext hid
    have hcomment : IsLine ("# " ++ (line ++ ['\n'])) :=
      IsLine.append (by decide) ⟨line, hline, rfl⟩
    have hpiece : IsPieceOf map (line ++ nl) (.rewritten (line ++ ['\n']) (id ++ two ++ nl)) := by
      refine .rewritten hfields hb ?_ (fstabNext_comment _) hread
      rcases hnl with rfl | rfl
      · rw [List.append_nil]
        exact .inr ⟨hline, rfl⟩
      · exact .inl rfl
    refine ⟨_, hpiece, ?_, ?_, ?_⟩
    · rw [hwrite]
      simp [Piece.lines]
    · rintro ⟨body, -, hbody⟩
      rcases hnl with rfl | rfl
      · rw [List.append_nil] at hbody
        exact absurd (by rw [hbody]; simp) hline
      · refine ⟨?_, rfl⟩
        intro l hl
        rcases List.mem_cons.mp hl with rfl | hl
        · exact hcomment
        · rw [List.mem_singleton.mp hl]
          exact ⟨_, hnew, rfl⟩
    · intro hnone _
      rcases hnl with rfl | rfl
      · have hne : id ++ two ≠ [] := List.append_ne_nil_of_left_ne_nil
          (isId_ne_nil (hmap bdev id hb).1) _
        rw [List.append_nil]
        refine ⟨?_, .inr (by rw [List.append_nil]; rfl)⟩
        rw [Piece.lines, List.flatten_cons, lines_cons_isLine hcomment, List.flatten_singleton,
          lines_body hnew hne]
      · exact absurd (by simp) hnone

end

/-! ## The file -/

/-- The file is put together from one piece for each line. -/
theorem exists_pieces {map : DeviceMap} (hmap : map.Writable)
    (hkeys : ∀ bdev id, map bdev = some id → ∀ c ∈ bdev, isSpace c = false)
    (hids : ∀ bdev id, map bdev = some id → '\\' ∉ id) (file : Text) :
    ∃ pieces, lines (fstabUpdate file map) = pieces.flatMap Piece.lines ∧
      List.Forall₂ (IsPieceOf map) (lines file) pieces ∧
      (pieces.flatMap Piece.undo = file ∨ pieces.flatMap Piece.undo = file ++ ['\n']) := by
  rcases lines_cases file with rfl | ⟨hno, hne, hlines⟩ | ⟨body, rest, hbody, rfl, hlines⟩
  · exact ⟨[], rfl, .nil, .inl rfl⟩
  · obtain ⟨piece, hpiece, hwrite, -, hlast⟩ := exists_piece hmap hkeys hids (.inr hno)
    obtain ⟨hread, hundo⟩ := hlast hno hne
    refine ⟨[piece], ?_, ?_, ?_⟩
    · rw [fstabUpdate, hlines, List.map_singleton, List.flatten_singleton, hwrite, hread,
        List.flatMap_singleton]
    · rw [hlines]
      exact .cons hpiece .nil
    · simpa using hundo
  · have hline : IsLine (body ++ ['\n']) := ⟨body, hbody, rfl⟩
    obtain ⟨piece, hpiece, hwrite, hfull, -⟩ := exists_piece hmap hkeys hids (.inl hline)
    obtain ⟨hcomplete, hundo⟩ := hfull hline
    obtain ⟨pieces, hread, hpieces, hrest⟩ := exists_pieces hmap hkeys hids rest
    refine ⟨piece :: pieces, ?_, ?_, ?_⟩
    · have hcons : fstabUpdate (body ++ '\n' :: rest) map =
          piece.lines.flatten ++ fstabUpdate rest map := by
        rw [fstabUpdate, hlines, List.map_cons, List.flatten_cons, hwrite]
        rfl
      rw [hcons, lines_append (terminated_flatten hcomplete), lines_flatten hcomplete, hread,
        List.flatMap_cons]
    · rw [hlines]
      exact .cons hpiece hpieces
    · rw [List.flatMap_cons, hundo]
      rcases hrest with h | h
      · exact .inl (by simp [h])
      · exact .inr (by simp [h])
termination_by file.length
decreasing_by simp only [*, List.length_append, List.length_cons]; omega

/-- What a reader finds in the lines of a piece. -/
theorem filterMap_piece {map : DeviceMap} {text : Text} {piece : Piece}
    (h : IsPieceOf map text piece) :
    piece.lines.filterMap (fun text => (fstabNext text).head?) =
      (fstabNext text).head?.toList.map map.replace := by
  cases h with
  | kept hid =>
    cases hf : fstabNext text with
    | nil => simp [Piece.lines, hf]
    | cons bdev fields =>
      have hb : map bdev = none := by simpa [fstabId, hf] using hid
      simp [Piece.lines, hf, DeviceMap.replace, hb]
  | rewritten hf hb _ hcomment hnew =>
    rw [Piece.lines, List.filterMap_cons, hcomment, List.filterMap_cons, hnew, hf]
    simp [DeviceMap.replace, hb]

/-- The devices of the updated file are the ones of the old file, each by its id. The
updated file has one piece for each line of the old one, and without what was added to
them the pieces are the old file, up to a missing final newline. -/
theorem fstabUpdate_law {map : DeviceMap} (hmap : map.Writable)
    (hkeys : ∀ bdev id, map bdev = some id → ∀ c ∈ bdev, isSpace c = false)
    (hids : ∀ bdev id, map bdev = some id → '\\' ∉ id) (file : Text) :
    fstabList (fstabUpdate file map) = (fstabList file).map map.replace ∧
      ∃ pieces, lines (fstabUpdate file map) = pieces.flatMap Piece.lines ∧
        List.Forall₂ (IsPieceOf map) (lines file) pieces ∧
        (pieces.flatMap Piece.undo = file ∨ pieces.flatMap Piece.undo = file ++ ['\n']) := by
  obtain ⟨pieces, hread, hpieces, hundo⟩ := exists_pieces hmap hkeys hids file
  refine ⟨?_, pieces, hread, hpieces, hundo⟩
  rw [fstabList, fstabList, hread]
  clear hread hundo
  generalize lines file = texts at hpieces
  induction hpieces with
  | nil => rfl
  | cons hpiece _ ih =>
    rw [List.flatMap_cons, List.filterMap_append, ih, filterMap_piece hpiece]
    rw [List.filterMap_cons]
    split <;> simp [*]

theorem fstab_swap_replaced :
    fstabList (fstabUpdate "/dev/hda2 none swap" swapMap) = ["UUID=0b"] := by
  have hkeys : ∀ bdev id, swapMap bdev = some id → ∀ c ∈ bdev, isSpace c = false := by
    intro bdev id h
    unfold swapMap at h
    split at h
    · next hb =>
      rw [hb]
      exact forall_mem_of_all rfl
    · cases h
  have hids : ∀ bdev id, swapMap bdev = some id → '\\' ∉ id := by
    intro bdev id h
    unfold swapMap at h
    split at h
    · cases h
      decide
    · cases h
  have hread : fstabList "/dev/hda2 none swap" = ["/dev/hda2"] := by
    have hlines : lines "/dev/hda2 none swap" = [("/dev/hda2" ++ " none swap" : Text) ++ []] := by
      decide
    rw [fstabList, hlines, List.filterMap_cons,
      fstabNext_word (by decide) (forall_mem_of_all rfl) (by decide) (forall_mem_of_option rfl)
        (.none (by decide)),
      decodeOctal_of_no_backslash (by decide)]
    rfl
  rw [(fstabUpdate_law writable_swapMap hkeys hids _).1, hread]
  decide

end DebianKernel.DiskId
