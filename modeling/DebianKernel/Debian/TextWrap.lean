import DebianKernel.Lib.Words
import Mathlib.Data.List.Chain

/-!
# Wrapping text

`TextWrapper` of `debian_linux.utils`, a `textwrap.TextWrapper` that breaks words at
em-dashes only, with two blanks behind the end of a sentence. White space, letters and digits are
those of ASCII.

Results:
1. `wrap_broken`: the lines are the text with blanks left out between them. Where no blank was, a
   line ends before or behind an em-dash, or within a word that is longer than the smaller room
   behind the two indents. No line is longer than the width.
2. `visible_wrap`, `wrap_word`: no visible character is lost, and a word is on one line unless it
   has an em-dash or is longer than that room.
3. `wrap_noNewline`, `wrap_head`, `wrap_last`: a line has no newline; visible characters at the
   ends of the text are at the ends of the lines.
-/

namespace DebianKernel.Debian

open Text

/-- A `TextWrapper` with `fix_sentence_endings`. There is room behind both indents. -/
structure TextWrapper where
  width : Nat
  initialIndent : Text
  subsequentIndent : Text
  initial_lt : initialIndent.length < width
  subsequent_lt : subsequentIndent.length < width

namespace TextWrapper

/-! ## Chunks -/

/-- `expandtabs`, from the column `col` on. -/
def expandTabs (col : Nat) : Text → Text
  | [] => []
  | c :: t =>
    if c = '\t' then List.replicate (8 - col % 8) ' ' ++ expandTabs (col + (8 - col % 8)) t
    else c :: expandTabs (if c = '\n' ∨ c = '\r' then 0 else col + 1) t

/-- `_munge_whitespace`. -/
def mungeWhitespace (t : Text) : Text :=
  (expandTabs 0 t).map fun c => if isSpace c then ' ' else c

/-- The class `\w`. -/
def isWordChar (c : Char) : Bool := c.isAlphanum || c = '_'

/-- The characters that `wordsep_re` wants before an em-dash. -/
def isBeforeDash (c : Char) : Bool := isWordChar c || ("!\"'&.,?" : Text).contains c

/-- What `wordsep_re` matches at the start of `t`, behind the character `prev`. -/
def wordsep (prev : Option Char) (t : Text) : Text :=
  if t.head?.any isSpace then t.takeWhile isSpace
  else
    let dashes := t.takeWhile (· = '-')
    if 2 ≤ dashes.length ∧ prev.any isBeforeDash ∧ (t.drop dashes.length).head?.any isWordChar
    then dashes
    else []

/-- `_split`: the separators and what is between them, behind the character `prev`. -/
def splitChunks (prev : Option Char) (t : Text) : List Text :=
  match t with
  | [] => []
  | c :: s =>
    let sep := wordsep prev (c :: s)
    if sep ≠ [] then sep :: splitChunks sep.getLast? (s.drop (sep.length - 1))
    else if s = [] ∨ wordsep (some c) s ≠ [] then [c] :: splitChunks (some c) s
    else (c :: (splitChunks (some c) s).headD []) :: (splitChunks (some c) s).tail
termination_by t.length
decreasing_by all_goals simp only [List.length_cons, List.length_drop]; omega

/-- `sentence_end_re`: a small letter, a stop, and at most one quote, at the end. -/
def isSentenceEnd (chunk : Text) : Bool :=
  let stop := fun c : Char => (".!?" : Text).contains c
  match chunk.reverse with
  | c :: d :: t =>
    (stop c && d.isLower) || (("\"'" : Text).contains c && stop d && t.head?.any Char.isLower)
  | _ => false

/-- `_fix_sentence_endings`. -/
def fixSentenceEndings : List Text → List Text
  | chunk :: next :: chunks =>
    if next = [' '] ∧ isSentenceEnd chunk = true then
      chunk :: [' ', ' '] :: fixSentenceEndings chunks
    else chunk :: fixSentenceEndings (next :: chunks)
  | chunks => chunks

/-! ## Lines -/

/-- `chunk.strip() == ''`. -/
def isBlank (chunk : Text) : Bool := chunk.all isSpace

/-- The chunks that fit on a line of so much room that has `curLen` characters, and the others. -/
def fill (room curLen : Nat) : List Text → List Text × List Text
  | [] => ([], [])
  | c :: cs =>
    if curLen + c.length ≤ room then
      (c :: (fill room (curLen + c.length) cs).1, (fill room (curLen + c.length) cs).2)
    else ([], c :: cs)

/-- `_handle_long_word`, when the next chunk is longer than a line. -/
def handleLongWord (room : Nat) (curLine : List Text) : List Text → List Text × List Text
  | [] => (curLine, [])
  | c :: cs =>
    if room < c.length then
      (curLine ++ [c.take (room - curLine.flatten.length)],
        c.drop (room - curLine.flatten.length) :: cs)
    else (curLine, c :: cs)

def dropBlankFirst : List Text → List Text
  | [] => []
  | c :: cs => if isBlank c then cs else c :: cs

def dropBlankLast (curLine : List Text) : List Text :=
  if curLine.getLast?.any isBlank then curLine.dropLast else curLine

/-- `width` in one turn of the loop: the room behind the indent. -/
def room (wrapper : TextWrapper) (first : Bool) : Nat :=
  wrapper.width - (if first then wrapper.initialIndent else wrapper.subsequentIndent).length

theorem room_pos (wrapper : TextWrapper) (first : Bool) : 0 < wrapper.room first := by
  have hinitial := wrapper.initial_lt
  have hsubsequent := wrapper.subsequent_lt
  cases first with
  | true =>
    show 0 < wrapper.width - wrapper.initialIndent.length
    omega
  | false =>
    show 0 < wrapper.width - wrapper.subsequentIndent.length
    omega

/-- The chunks that come onto a line, and those that are left. -/
def takeLine (room : Nat) (chunks : List Text) : List Text × List Text :=
  let filled := fill room 0 chunks
  let broken := handleLongWord room filled.1 filled.2
  (dropBlankLast broken.1, broken.2)

/-- One turn of the loop of `_wrap_chunks`. Blanks are kept at the start of the `first` line
only. -/
def nextLine (wrapper : TextWrapper) (first : Bool) (chunks : List Text) :
    List Text × List Text :=
  takeLine (wrapper.room first) (if first then chunks else dropBlankFirst chunks)

/-- The characters and chunks that are left, which each line makes fewer. -/
def size (chunks : List Text) : Nat := chunks.flatten.length + chunks.length

theorem size_cons (c : Text) (cs : List Text) : size (c :: cs) = c.length + 1 + size cs := by
  simp only [size, List.flatten_cons, List.length_append, List.length_cons]
  omega

theorem size_fill_le (room n : Nat) (cs : List Text) : size (fill room n cs).2 ≤ size cs := by
  induction cs generalizing n with
  | nil => exact le_rfl
  | cons c cs ih =>
    rw [fill]
    split
    · rw [size_cons]
      exact (ih _).trans (Nat.le_add_left _ _)
    · exact le_rfl

theorem size_handleLongWord_le (room : Nat) (line cs : List Text) :
    size (handleLongWord room line cs).2 ≤ size cs := by
  cases cs with
  | nil => exact le_rfl
  | cons c cs =>
    rw [handleLongWord]
    split
    · rw [size_cons, size_cons, List.length_drop]
      omega
    · exact le_rfl

theorem size_takeLine_lt {room : Nat} (hroom : 0 < room) {cs : List Text} (hcs : cs ≠ []) :
    size (takeLine room cs).2 < size cs := by
  obtain ⟨c, cs, rfl⟩ := List.exists_cons_of_ne_nil hcs
  rw [takeLine, fill]
  split
  · refine (size_handleLongWord_le _ _ _).trans_lt ((size_fill_le _ _ _).trans_lt ?_)
    rw [size_cons]
    omega
  · next hlong =>
    dsimp only
    rw [handleLongWord, if_pos (by omega), size_cons, size_cons, List.length_drop]
    simp only [List.flatten_nil, List.length_nil] at hlong ⊢
    omega

theorem size_dropBlankFirst_le (cs : List Text) : size (dropBlankFirst cs) ≤ size cs := by
  cases cs with
  | nil => exact le_rfl
  | cons c cs =>
    rw [dropBlankFirst]
    split
    · rw [size_cons]
      omega
    · exact le_rfl

theorem size_nextLine_lt (wrapper : TextWrapper) (first : Bool) {chunks : List Text}
    (h : chunks ≠ []) : size (wrapper.nextLine first chunks).2 < size chunks := by
  cases first with
  | true => exact size_takeLine_lt (wrapper.room_pos true) h
  | false =>
    show size (takeLine (wrapper.room false) (dropBlankFirst chunks)).2 < size chunks
    rcases eq_or_ne (dropBlankFirst chunks) [] with hnil | hne
    · rw [hnil]
      obtain ⟨c, cs, rfl⟩ := List.exists_cons_of_ne_nil h
      rw [size_cons]
      exact Nat.lt_of_lt_of_le (Nat.succ_pos c.length) (Nat.le_add_right _ _)
    · exact (size_takeLine_lt (wrapper.room_pos false) hne).trans_le (size_dropBlankFirst_le chunks)

/-- `_wrap_chunks`. -/
def wrapChunks (wrapper : TextWrapper) (first : Bool) (chunks : List Text) : List Text :=
  if h : chunks = [] then []
  else
    let indent := if first then wrapper.initialIndent else wrapper.subsequentIndent
    let line := wrapper.nextLine first chunks
    have : size line.2 < size chunks := wrapper.size_nextLine_lt first h
    if line.1 = [] then wrapChunks wrapper first line.2
    else (indent ++ line.1.flatten) :: wrapChunks wrapper false line.2
termination_by size chunks

/-- The chunks of a text. -/
def chunks (t : Text) : List Text := fixSentenceEndings (splitChunks none (mungeWhitespace t))

/-- `wrap`. -/
def wrap (wrapper : TextWrapper) (t : Text) : List Text := wrapper.wrapChunks true (chunks t)

/-! ## Chunks put together -/

/-- What splitting gives: a chunk is a run of blanks or has none. -/
def IsChunk (c : Text) : Prop := c ≠ [] ∧ ((∀ x ∈ c, isSpace x = true) ∨ ∀ x ∈ c, isSpace x = false)

theorem wordsep_spec {prev : Option Char} {t : Text} (h : wordsep prev t ≠ []) :
    t = wordsep prev t ++ t.drop (wordsep prev t).length ∧ IsChunk (wordsep prev t) := by
  have htake : ∀ p : Char → Bool, t = t.takeWhile p ++ t.drop (t.takeWhile p).length := by
    intro p
    obtain ⟨r, hr⟩ := List.takeWhile_prefix (l := t) p
    have hdrop := congrArg (List.drop (t.takeWhile p).length) hr
    rw [List.drop_left] at hdrop
    rw [← hdrop]
    exact hr.symm
  unfold wordsep at h ⊢
  split
  · next hs =>
    rw [if_pos hs] at h
    exact ⟨htake _, h, .inl fun x hx => List.mem_takeWhile_imp hx⟩
  · next hs =>
    rw [if_neg hs] at h
    dsimp only at h ⊢
    split
    · next hd =>
      rw [if_pos hd] at h
      refine ⟨htake _, h, .inr fun x hx => ?_⟩
      rw [show x = '-' by simpa using List.mem_takeWhile_imp hx]
      rfl
    · next hd =>
      rw [if_neg hd] at h
      exact absurd rfl h

theorem isSpace_of_wordsep_nil {prev : Option Char} {c : Char} {t : Text}
    (h : wordsep prev (c :: t) = []) : isSpace c = false := by
  cases hc : isSpace c with
  | false => rfl
  | true =>
    rw [wordsep, if_pos (by simpa using hc), List.takeWhile_cons_of_pos hc] at h
    cases h

/-- A chunk is a word if no separator is in front of it. -/
theorem IsChunk.of_wordsep {prev : Option Char} {w : Text} {cs : List Text} (hw : IsChunk w)
    (hsep : wordsep prev (w :: cs).flatten = []) : ∀ x ∈ w, isSpace x = false := by
  obtain ⟨hne, hw⟩ := hw
  obtain ⟨e, w, rfl⟩ := List.exists_cons_of_ne_nil hne
  have he : isSpace e = false := isSpace_of_wordsep_nil hsep
  rcases hw with hw | hw
  · rw [hw e List.mem_cons_self] at he
    cases he
  · exact hw

theorem splitChunks_spec (prev : Option Char) (t : Text) :
    (splitChunks prev t).flatten = t ∧ ∀ c ∈ splitChunks prev t, IsChunk c := by
  fun_induction splitChunks prev t with
  | case1 => exact ⟨rfl, nofun⟩
  | case2 prev c s sep hsep ih =>
    obtain ⟨hflat, hchunk⟩ := wordsep_spec hsep
    obtain ⟨ihflat, ihchunk⟩ := ih
    have hdrop : s.drop (sep.length - 1) = (c :: s).drop sep.length := by
      cases hlen : sep.length with
      | zero => exact absurd (List.length_eq_zero_iff.mp hlen) hsep
      | succ n => rfl
    refine ⟨?_, ?_⟩
    · rw [List.flatten_cons, ihflat, hdrop]
      exact hflat.symm
    · intro d hd
      rcases List.mem_cons.mp hd with rfl | hd
      · exact hchunk
      · exact ihchunk d hd
  | case3 prev c s sep hsep hnext ih =>
    have hvis : isSpace c = false := isSpace_of_wordsep_nil (by simpa [sep] using hsep)
    refine ⟨by rw [List.flatten_cons, ih.1]; rfl, ?_⟩
    intro d hd
    rcases List.mem_cons.mp hd with rfl | hd
    · exact ⟨List.cons_ne_nil _ _, .inr fun x hx => by rw [List.mem_singleton.mp hx]; exact hvis⟩
    · exact ih.2 d hd
  | case4 prev c s sep hsep hnext ih =>
    have hvis : isSpace c = false := isSpace_of_wordsep_nil (by simpa [sep] using hsep)
    obtain ⟨ihflat, ihchunk⟩ := ih
    obtain ⟨hne, hnosep⟩ := not_or.mp hnext
    cases hcs : splitChunks (some c) s with
    | nil =>
      rw [hcs] at ihflat
      exact absurd ihflat.symm hne
    | cons w cs =>
      rw [hcs] at ihflat ihchunk
      have hw : ∀ x ∈ w, isSpace x = false :=
        @IsChunk.of_wordsep (some c) w cs (ihchunk w List.mem_cons_self)
          (by rw [ihflat]; simpa using hnosep)
      refine ⟨by rw [← ihflat]; rfl, ?_⟩
      intro d hd
      rcases List.mem_cons.mp hd with rfl | hd
      · exact ⟨List.cons_ne_nil _ _, .inr (List.forall_mem_cons.mpr ⟨hvis, hw⟩)⟩
      · exact ihchunk d (List.mem_cons_of_mem w hd)

/-- Two chunks with a blank or an em-dash between them. -/
def Apart (a b : Text) : Prop :=
  (∀ x ∈ a, isSpace x = true) ∨ (∀ x ∈ b, isSpace x = true) ∨ ("--" : Text) <:+ a ∨
    ("--" : Text) <+: b

/-- A separator is apart from what is before it and behind it. -/
theorem wordsep_apart {prev : Option Char} {t : Text} (h : wordsep prev t ≠ []) (c : Text) :
    Apart c (wordsep prev t) ∧ Apart (wordsep prev t) c := by
  unfold wordsep at h ⊢
  split
  · have hblank : ∀ x ∈ t.takeWhile isSpace, isSpace x = true := fun x hx =>
      List.mem_takeWhile_imp hx
    exact ⟨.inr (.inl hblank), .inl hblank⟩
  · next hspace =>
    rw [if_neg hspace] at h
    dsimp only at h ⊢
    split
    · next hdash =>
      have hall : ∀ x ∈ t.takeWhile (· = '-'), x = '-' := fun x hx => by
        simpa using List.mem_takeWhile_imp hx
      obtain ⟨n, hn⟩ := Nat.exists_eq_add_of_le hdash.1
      have hdashes : t.takeWhile (· = '-') = List.replicate (2 + n) '-' :=
        List.eq_replicate_iff.mpr ⟨hn, hall⟩
      rw [hdashes]
      refine ⟨.inr (.inr (.inr ⟨List.replicate n '-', ?_⟩)),
        .inr (.inr (.inl ⟨List.replicate n '-', ?_⟩))⟩
      · rw [List.replicate_add]
        rfl
      · rw [Nat.add_comm, List.replicate_add]
        rfl
    · next hdash =>
      rw [if_neg hdash] at h
      exact absurd rfl h

theorem splitChunks_apart (prev : Option Char) (t : Text) :
    (splitChunks prev t).IsChain Apart := by
  fun_induction splitChunks prev t with
  | case1 => exact .nil
  | case2 prev c s sep hsep ih =>
    cases hcs : splitChunks sep.getLast? (s.drop (sep.length - 1)) with
    | nil => exact .singleton _
    | cons d cs =>
      rw [hcs] at ih
      exact List.isChain_cons_cons.mpr ⟨(wordsep_apart hsep d).2, ih⟩
  | case3 prev c s sep hsep hnext ih =>
    cases s with
    | nil =>
      rw [splitChunks]
      exact .singleton _
    | cons e s =>
      have hnext : wordsep (some c) (e :: s) ≠ [] := hnext.resolve_left (List.cons_ne_nil e s)
      rw [splitChunks, if_pos hnext] at ih ⊢
      exact List.isChain_cons_cons.mpr ⟨(wordsep_apart hnext [c]).1, ih⟩
  | case4 prev c s sep hsep hnext ih =>
    obtain ⟨hne, hnosep⟩ := not_or.mp hnext
    cases hcs : splitChunks (some c) s with
    | nil => exact .singleton _
    | cons w cs =>
      rw [hcs] at ih
      cases cs with
      | nil => exact .singleton _
      | cons d cs =>
        obtain ⟨hwd, htail⟩ := List.isChain_cons_cons.mp ih
        refine List.isChain_cons_cons.mpr ⟨?_, htail⟩
        -- the first chunk is visible, so that its blank is not what keeps it apart
        have hspec := splitChunks_spec (some c) s
        rw [hcs] at hspec
        have hchunk := hspec.2 w List.mem_cons_self
        have hw : ∀ x ∈ w, isSpace x = false :=
          @IsChunk.of_wordsep (some c) w (d :: cs) hchunk
            (by rw [hspec.1]; simpa using hnosep)
        rcases hwd with hblank | hblank | hdash | hdash
        · obtain ⟨x, hx⟩ := List.exists_mem_of_ne_nil w hchunk.1
          have hvis := hw x hx
          rw [hblank x hx] at hvis
          cases hvis
        · exact .inr (.inl hblank)
        · exact .inr (.inr (.inl (hdash.trans (List.suffix_cons c w))))
        · exact .inr (.inr (.inr hdash))

/-- The chunks end with a word. -/
def EndsVisible (chunks : List Text) : Prop :=
  ∃ cs w, chunks = cs ++ [w] ∧ w ≠ [] ∧ ∀ x ∈ w, isSpace x = false

theorem EndsVisible.cons {chunks : List Text} (h : EndsVisible chunks) (c : Text) :
    EndsVisible (c :: chunks) := by
  obtain ⟨cs, w, rfl, hw⟩ := h
  exact ⟨c :: cs, w, rfl, hw⟩

theorem EndsVisible.tail {c : Text} {chunks : List Text} (h : EndsVisible (c :: chunks))
    (hne : chunks ≠ []) : EndsVisible chunks := by
  obtain ⟨cs, w, heq, hw⟩ := h
  cases cs with
  | nil => exact absurd (List.cons.inj heq).2 hne
  | cons d cs => exact ⟨cs, w, (List.cons.inj heq).2, hw⟩

theorem endsVisible_of_flatten {chunks : List Text} (hchunk : ∀ c ∈ chunks, IsChunk c) {t : Text}
    {x : Char} (hflat : chunks.flatten = t ++ [x]) (hx : isSpace x = false) :
    EndsVisible chunks := by
  cases chunks using List.reverseRecOn with
  | nil => simp at hflat
  | append_singleton cs w =>
    obtain ⟨hne, hw⟩ := hchunk w (by simp)
    refine ⟨cs, w, rfl, hne, ?_⟩
    have hmem : x ∈ w := by
      obtain ⟨v, y, rfl⟩ := (List.eq_nil_or_concat' w).resolve_left hne
      rw [List.flatten_append, List.flatten_singleton, ← List.append_assoc] at hflat
      rw [(List.append_inj' hflat rfl).2]
      simp
    rcases hw with hw | hw
    · rw [hw x hmem] at hx
      cases hx
    · exact hw

/-- A blank behind a sentence becomes two, and other chunks stay. -/
theorem forall₂_fixSentenceEndings (chunks : List Text) :
    List.Forall₂ (fun c d => c = d ∨ c = [' '] ∧ d = [' ', ' ']) chunks
      (fixSentenceEndings chunks) := by
  fun_induction fixSentenceEndings chunks with
  | case1 chunk next chunks h ih => exact .cons (.inl rfl) (.cons (.inr ⟨h.1, rfl⟩) ih)
  | case2 chunk next chunks h ih => exact .cons (.inl rfl) ih
  | case3 chunks h =>
    cases chunks with
    | nil => exact .nil
    | cons c cs =>
      cases cs with
      | nil => exact .cons (.inl rfl) .nil
      | cons d cs => exact absurd rfl (h c d cs)

theorem words_fixSentenceEndings (chunks : List Text) (t : Text) :
    words (t ++ (fixSentenceEndings chunks).flatten) = words (t ++ chunks.flatten) := by
  fun_induction fixSentenceEndings chunks generalizing t with
  | case1 chunk next chunks h ih =>
    obtain ⟨rfl, -⟩ := h
    have hblank : isSpace ' ' = true := rfl
    simp only [List.flatten_cons, List.cons_append, List.nil_append, ← List.append_assoc t]
    rw [words_append_blank hblank, words_append_blank hblank, words_space hblank]
    exact congrArg _ (ih [])
  | case2 chunk next chunks h ih =>
    rw [List.flatten_cons, List.flatten_cons, ← List.append_assoc, ih, List.append_assoc]
  | case3 => rfl

theorem endsVisible_fixSentenceEndings {chunks : List Text} (h : EndsVisible chunks) :
    EndsVisible (fixSentenceEndings chunks) := by
  fun_induction fixSentenceEndings chunks with
  | case1 chunk next chunks hnext ih =>
    obtain ⟨rfl, -⟩ := hnext
    have htail := h.tail (List.cons_ne_nil _ _)
    have hne : chunks ≠ [] := by
      rintro rfl
      obtain ⟨cs, w, heq, -, hw⟩ := htail
      have hmem : w ∈ [([' '] : Text)] := heq ▸ List.mem_append_right cs List.mem_cons_self
      rw [List.mem_singleton.mp hmem] at hw
      cases hw ' ' List.mem_cons_self
    exact ((ih (htail.tail hne)).cons _).cons _
  | case2 chunk next chunks _ ih => exact (ih (h.tail (List.cons_ne_nil _ _))).cons _
  | case3 => exact h

theorem head?_fixSentenceEndings (chunks : List Text) :
    (fixSentenceEndings chunks).head? = chunks.head? := by
  unfold fixSentenceEndings
  split
  · split <;> rfl
  · rfl

theorem mem_flatten_fixSentenceEndings {chunks : List Text} {x : Char}
    (h : x ∈ (fixSentenceEndings chunks).flatten) : x ∈ chunks.flatten := by
  fun_induction fixSentenceEndings chunks with
  | case1 chunk next chunks hnext ih =>
    obtain ⟨rfl, -⟩ := hnext
    simp only [List.flatten_cons, List.mem_append, List.mem_cons, List.not_mem_nil, or_false,
      or_self] at h ⊢
    exact h.imp_right (Or.imp_right ih)
  | case2 chunk next chunks _ ih =>
    rw [List.flatten_cons, List.mem_append] at h ⊢
    exact h.imp_right ih
  | case3 => exact h

/-! ## White space made blanks -/

theorem mungeWhitespace_cons (c : Char) (t : Text) (col : Nat) : ∃ col' blanks,
    (expandTabs col (c :: t)).map (fun c => if isSpace c then ' ' else c) =
      (if isSpace c then ' ' :: List.replicate blanks ' ' else [c]) ++
        (expandTabs col' t).map fun c => if isSpace c then ' ' else c := by
  rw [expandTabs]
  split
  · next hc =>
    subst hc
    refine ⟨col + (8 - col % 8), 8 - col % 8 - 1, ?_⟩
    have hpos : 8 - col % 8 = 8 - col % 8 - 1 + 1 := by omega
    rw [List.map_append, List.map_replicate, hpos, List.replicate_succ]
    rfl
  · refine ⟨if c = '\n' ∨ c = '\r' then 0 else col + 1, 0, ?_⟩
    rw [List.map_cons]
    split <;> rfl

theorem words_mungeWhitespace (t : Text) : words (mungeWhitespace t) = words t := by
  have hall : ∀ (s : Text) (col : Nat),
      words (s ++ (expandTabs col t).map fun c => if isSpace c then ' ' else c) =
        words (s ++ t) := by
    induction t with
    | nil => exact fun _ _ => rfl
    | cons c t ih =>
      intro s col
      obtain ⟨col', blanks, heq⟩ := mungeWhitespace_cons c t col
      rw [heq]
      cases hc : isSpace c with
      | true =>
        rw [if_pos rfl, List.cons_append, words_append_blank rfl, words_append_blank hc,
          words_append_left_of_space fun x hx => by rw [List.eq_of_mem_replicate hx]; rfl]
        exact congrArg _ (ih [] col')
      | false =>
        rw [if_neg Bool.false_ne_true, ← List.append_assoc, ih (s ++ [c]) col', List.append_assoc]
        rfl
  exact hall [] 0

theorem mungeWhitespace_visible {c : Char} (hc : isSpace c = false) (t : Text) :
    (mungeWhitespace (c :: t)).head? = some c := by
  obtain ⟨col', blanks, heq⟩ := mungeWhitespace_cons c t 0
  rw [mungeWhitespace, heq, if_neg (by rw [hc]; exact Bool.false_ne_true)]
  rfl

theorem mungeWhitespace_last {x : Char} (hx : isSpace x = false) (t : Text) :
    ∃ s, mungeWhitespace (t ++ [x]) = s ++ [x] := by
  have hall : ∀ col : Nat, ∃ s,
      (expandTabs col (t ++ [x])).map (fun c => if isSpace c then ' ' else c) = s ++ [x] := by
    induction t with
    | nil =>
      intro col
      obtain ⟨col', blanks, heq⟩ := mungeWhitespace_cons x [] col
      exact ⟨[], by rw [List.nil_append, heq, if_neg (by rw [hx]; exact Bool.false_ne_true)]; rfl⟩
    | cons c t ih =>
      intro col
      obtain ⟨col', blanks, heq⟩ := mungeWhitespace_cons c (t ++ [x]) col
      obtain ⟨s, hs⟩ := ih col'
      rw [List.cons_append, heq, hs, ← List.append_assoc]
      exact ⟨_, rfl⟩
  exact hall 0

theorem newline_not_mem_mungeWhitespace (t : Text) : '\n' ∉ mungeWhitespace t := by
  intro h
  obtain ⟨c, -, hc⟩ := List.mem_map.mp h
  split at hc
  · cases hc
  · next hs =>
    subst hc
    exact hs rfl

/-! ## Where a line may end -/

/-- A text may be broken at a blank, before and behind an em-dash, and in a word that is longer than
so much room. -/
def MayBreak (room : Nat) (s t : Text) : Prop :=
  let u := s.rtakeWhile (!isSpace ·)
  let v := t.takeWhile (!isSpace ·)
  u = [] ∨ v = [] ∨ ("--" : Text) <:+ u ∨ ("--" : Text) <+: v ∨ room < u.length + v.length

theorem rtakeWhile_append_visible (s : Text) {u : Text} (hu : ∀ x ∈ u, isSpace x = false) :
    (s ++ u).rtakeWhile (!isSpace ·) = s.rtakeWhile (!isSpace ·) ++ u := by
  have hrev : ∀ x ∈ u.reverse, (!isSpace x) = true := fun x hx => by
    rw [hu x (List.mem_reverse.mp hx)]
    rfl
  rw [List.rtakeWhile, List.rtakeWhile, List.reverse_append, List.takeWhile_append_of_pos hrev,
    List.reverse_append, List.reverse_reverse]

theorem takeWhile_append_visible {v : Text} (hv : ∀ x ∈ v, isSpace x = false) (t : Text) :
    (v ++ t).takeWhile (!isSpace ·) = v ++ t.takeWhile (!isSpace ·) :=
  List.takeWhile_append_of_pos fun x hx => by rw [hv x hx]; rfl

theorem mayBreak_behind_blank {room : Nat} (s : Text) {a : Text} (ha : a ≠ [])
    (hblank : ∀ x ∈ a, isSpace x = true) (t : Text) : MayBreak room (s ++ a) t := by
  obtain ⟨b, x, rfl⟩ := (List.eq_nil_or_concat' a).resolve_left ha
  refine .inl ?_
  rw [← List.append_assoc, List.rtakeWhile_concat_neg _ _ _ (by rw [hblank x (by simp)]; decide)]

theorem mayBreak_before_blank {room : Nat} (s : Text) {b : Text} (hb : b ≠ [])
    (hblank : ∀ x ∈ b, isSpace x = true) (t : Text) : MayBreak room s (b ++ t) := by
  obtain ⟨x, b, rfl⟩ := List.exists_cons_of_ne_nil hb
  refine .inr (.inl ?_)
  rw [List.cons_append, List.takeWhile_cons_of_neg (by rw [hblank x List.mem_cons_self]; decide)]

/-- A run of visible characters may be cut if it is longer than the room. -/
theorem mayBreak_in_long {room : Nat} (s : Text) {u v : Text} (hu : ∀ x ∈ u, isSpace x = false)
    (hv : ∀ x ∈ v, isSpace x = false) (hlong : room < (u ++ v).length) (t : Text) :
    MayBreak room (s ++ u) (v ++ t) := by
  refine .inr (.inr (.inr (.inr ?_)))
  rw [rtakeWhile_append_visible s hu, takeWhile_append_visible hv, List.length_append,
    List.length_append]
  rw [List.length_append] at hlong
  omega

/-- Chunks, the first behind `s`, each a run of blanks or without one, at whose ends the text may be
broken. -/
structure Breakable (room : Nat) (s : Text) (cs : List Text) : Prop where
  pure : ∀ c ∈ cs, (∀ x ∈ c, isSpace x = true) ∨ ∀ x ∈ c, isSpace x = false
  mayBreak : ∀ xs ys, cs = xs ++ ys → MayBreak room (s ++ xs.flatten) ys.flatten

namespace Breakable

variable {room : Nat} {s : Text} {c : Text} {xs cs : List Text}

theorem start (h : Breakable room s cs) : MayBreak room s cs.flatten := by
  have hstart := h.mayBreak [] cs rfl
  rwa [List.flatten_nil, List.append_nil] at hstart

theorem append (h : Breakable room s (xs ++ cs)) : Breakable room (s ++ xs.flatten) cs := by
  refine ⟨fun c hc => h.pure c (List.mem_append_right xs hc), fun us ys hcs => ?_⟩
  have hbreak := h.mayBreak (xs ++ us) ys (by rw [hcs, List.append_assoc])
  rwa [List.flatten_append, ← List.append_assoc] at hbreak

theorem tail (h : Breakable room s (c :: cs)) : Breakable room (s ++ c) cs := by
  have htail : Breakable room (s ++ [c].flatten) cs := h.append
  rwa [List.flatten_singleton] at htail

/-- A chunk that is longer than the room is cut. -/
theorem cut (h : Breakable room s (c :: cs)) (hlong : room < c.length) (n : Nat) :
    Breakable room (s ++ c.take n) (c.drop n :: cs) := by
  have hpure := h.pure c List.mem_cons_self
  have hsplit : c.take n ++ c.drop n = c := List.take_append_drop n c
  constructor
  · intro d hd
    rcases List.mem_cons.mp hd with rfl | hd
    · exact hpure.imp (fun hb x hx => hb x (List.mem_of_mem_drop hx))
        fun hv x hx => hv x (List.mem_of_mem_drop hx)
    · exact h.pure d (List.mem_cons_of_mem c hd)
  · intro us ys hus
    cases us with
    | nil =>
      obtain rfl : c.drop n :: cs = ys := hus
      rw [List.flatten_nil, List.append_nil, List.flatten_cons]
      rcases hpure with hblank | hvisible
      · rcases eq_or_ne (c.take n) [] with hnil | hne
        · have hstart := h.start
          rw [List.flatten_cons] at hstart
          rw [hnil, List.nil_append] at hsplit
          rwa [hnil, List.append_nil, hsplit]
        · exact mayBreak_behind_blank s hne (fun x hx => hblank x (List.mem_of_mem_take hx)) _
      · exact mayBreak_in_long s (fun x hx => hvisible x (List.mem_of_mem_take hx))
          (fun x hx => hvisible x (List.mem_of_mem_drop hx)) (by rwa [hsplit]) _
    | cons u us =>
      obtain ⟨rfl, rfl⟩ := List.cons.inj hus
      have hbreak := h.mayBreak (c :: us) ys rfl
      rwa [List.flatten_cons, ← hsplit, List.append_assoc, ← List.append_assoc s] at hbreak

end Breakable

/-- The chunks that splitting and fixing the sentences give. -/
theorem breakable_of_apart {room : Nat} {cs : List Text} (hchunk : ∀ c ∈ cs, IsChunk c)
    (hapart : cs.IsChain Apart) : Breakable room [] cs := by
  refine ⟨fun c hc => (hchunk c hc).2, fun xs ys hcs => ?_⟩
  rw [List.nil_append]
  rcases List.eq_nil_or_concat' xs with rfl | ⟨xs, a, rfl⟩
  · exact .inl rfl
  cases ys with
  | nil => exact .inr (.inl rfl)
  | cons b ys =>
    subst hcs
    rw [List.append_assoc] at hapart
    have hab := (List.isChain_append_cons_cons.mp hapart).2.1
    obtain ⟨hane, ha⟩ := hchunk a (by simp)
    obtain ⟨hbne, hb⟩ := hchunk b (by simp)
    rw [List.flatten_append, List.flatten_singleton, List.flatten_cons]
    rcases ha with ha | ha
    · exact mayBreak_behind_blank xs.flatten hane ha _
    rcases hb with hb | hb
    · exact mayBreak_before_blank _ hbne hb ys.flatten
    have hnot : ∀ {d : Text}, d ≠ [] → (∀ x ∈ d, isSpace x = false) →
        ¬ ∀ x ∈ d, isSpace x = true := by
      intro d hd hvisible hblank
      obtain ⟨x, hx⟩ := List.exists_mem_of_ne_nil d hd
      exact Bool.false_ne_true ((hvisible x hx).symm.trans (hblank x hx))
    rcases hab with hblank | hblank | hdash | hdash
    · exact absurd hblank (hnot hane ha)
    · exact absurd hblank (hnot hbne hb)
    · refine .inr (.inr (.inl ?_))
      rw [rtakeWhile_append_visible _ ha]
      exact hdash.trans (List.suffix_append _ a)
    · refine .inr (.inr (.inr (.inl ?_)))
      rw [takeWhile_append_visible hb]
      exact hdash.trans (List.prefix_append b _)

/-- What is said of the ends of a chunk is said of it with a blank more. -/
theorem Apart.fixed {a b c d : Text} (hab : Apart a b) (hac : a = c ∨ a = [' '] ∧ c = [' ', ' '])
    (hbd : b = d ∨ b = [' '] ∧ d = [' ', ' ']) : Apart c d := by
  have hblank : ∀ x ∈ ([' ', ' '] : Text), isSpace x = true := List.all_eq_true.mp rfl
  rcases hac with rfl | ⟨-, rfl⟩
  · rcases hbd with rfl | ⟨-, rfl⟩
    · exact hab
    · exact .inr (.inl hblank)
  · exact .inl hblank

theorem breakable_chunks (room : Nat) (t : Text) : Breakable room [] (chunks t) := by
  have hfixed := forall₂_fixSentenceEndings (splitChunks none (mungeWhitespace t))
  have hchunk := (splitChunks_spec none (mungeWhitespace t)).2
  have hapart := splitChunks_apart none (mungeWhitespace t)
  rw [chunks]
  generalize splitChunks none (mungeWhitespace t) = cs at hfixed hchunk hapart ⊢
  generalize fixSentenceEndings cs = ds at hfixed ⊢
  refine breakable_of_apart ?_ ?_
  · clear hapart
    induction hfixed with
    | nil => exact hchunk
    | cons hcd _ ih =>
      obtain ⟨hc, hcs⟩ := List.forall_mem_cons.mp hchunk
      refine List.forall_mem_cons.mpr ⟨?_, ih hcs⟩
      rcases hcd with rfl | ⟨-, rfl⟩
      · exact hc
      · exact ⟨List.cons_ne_nil _ _, .inl (List.all_eq_true.mp rfl)⟩
  · clear hchunk
    induction hfixed with
    | nil => exact .nil
    | cons hcd hrest ih =>
      cases hrest with
      | nil => exact .singleton _
      | cons hcd' hrest =>
        obtain ⟨hhead, htail⟩ := List.isChain_cons_cons.mp hapart
        exact List.isChain_cons_cons.mpr ⟨hhead.fixed hcd hcd', ih htail⟩

theorem words_chunks (t : Text) : words (chunks t).flatten = words t := by
  rw [chunks, ← List.nil_append (List.flatten _), words_fixSentenceEndings, List.nil_append,
    (splitChunks_spec none _).1, words_mungeWhitespace]

/-! ## Lines put together -/

theorem fill_append (room n : Nat) (cs : List Text) :
    (fill room n cs).1 ++ (fill room n cs).2 = cs := by
  induction cs generalizing n with
  | nil => rfl
  | cons c cs ih =>
    rw [fill]
    split
    · rw [List.cons_append, ih]
    · rfl

theorem fill_length {room n : Nat} (h : n ≤ room) (cs : List Text) :
    n + (fill room n cs).1.flatten.length ≤ room := by
  induction cs generalizing n with
  | nil => exact h
  | cons c cs ih =>
    rw [fill]
    split
    · next hfits =>
      have hrest := ih hfits
      rw [List.flatten_cons, List.length_append]
      omega
    · exact h

/-- What a long word leaves on the line. -/
theorem handleLongWord_spec {room narrow : Nat} (hnarrow : narrow ≤ room) {s : Text}
    {line cs : List Text} (hfits : line.flatten.length ≤ room)
    (h : Breakable narrow (s ++ line.flatten) cs) :
    (handleLongWord room line cs).1.flatten ++ (handleLongWord room line cs).2.flatten =
        line.flatten ++ cs.flatten ∧
      (handleLongWord room line cs).1.flatten.length ≤ room ∧
      Breakable narrow (s ++ (handleLongWord room line cs).1.flatten)
        (handleLongWord room line cs).2 := by
  cases cs with
  | nil => exact ⟨rfl, hfits, h⟩
  | cons c cs =>
    rw [handleLongWord]
    split
    · next hlong =>
      generalize hn : room - line.flatten.length = n
      have hcut := h.cut (hnarrow.trans_lt hlong) n
      have htext : (line ++ [c.take n]).flatten = line.flatten ++ c.take n := by
        rw [List.flatten_append, List.flatten_singleton]
      refine ⟨?_, ?_, ?_⟩
      · rw [htext, List.flatten_cons, List.flatten_cons, List.append_assoc,
          ← List.append_assoc (c.take n), List.take_append_drop]
      · rw [htext, List.length_append, List.length_take]
        omega
      · rw [htext, ← List.append_assoc]
        exact hcut
    · exact ⟨rfl, hfits, h⟩

theorem forall_of_isBlank {c : Text} (h : isBlank c = true) : ∀ x ∈ c, isSpace x = true :=
  List.all_eq_true.mp h

/-- Blanks are left out at the end of a line. -/
theorem dropBlankLast_spec (line : List Text) : ∃ blanks, (∀ x ∈ blanks, isSpace x = true) ∧
    line.flatten = (dropBlankLast line).flatten ++ blanks := by
  rw [dropBlankLast]
  split
  · next h =>
    obtain ⟨c, hc, hblank⟩ := (Option.any_eq_true _ _).mp h
    refine ⟨c, forall_of_isBlank hblank, ?_⟩
    conv_lhs => rw [← List.dropLast_append_getLast? c hc]
    rw [List.flatten_append, List.flatten_singleton]
  · exact ⟨[], fun _ h => absurd h List.not_mem_nil, (List.append_nil _).symm⟩

/-- What a line takes of the chunks. -/
theorem takeLine_spec {room narrow : Nat} (hnarrow : narrow ≤ room) {s : Text} {cs : List Text}
    (h : Breakable narrow s cs) : ∃ blanks, (∀ x ∈ blanks, isSpace x = true) ∧
    cs.flatten = (takeLine room cs).1.flatten ++ (blanks ++ (takeLine room cs).2.flatten) ∧
    (takeLine room cs).1.flatten.length ≤ room ∧
    Breakable narrow (s ++ (takeLine room cs).1.flatten ++ blanks) (takeLine room cs).2 := by
  have happend := fill_append room 0 cs
  have hlength := fill_length (Nat.zero_le room) cs
  rw [Nat.zero_add] at hlength
  rw [← happend] at h
  obtain ⟨htext, hfits, hbreak⟩ := handleLongWord_spec hnarrow hlength h.append
  have hflatten : (fill room 0 cs).1.flatten ++ (fill room 0 cs).2.flatten = cs.flatten := by
    rw [← List.flatten_append, happend]
  rw [hflatten] at htext
  obtain ⟨blanks, hblanks, hline⟩ := dropBlankLast_spec
    (handleLongWord room (fill room 0 cs).1 (fill room 0 cs).2).1
  refine ⟨blanks, hblanks, ?_, ?_, ?_⟩
  · show cs.flatten = (dropBlankLast _).flatten ++ (blanks ++ _)
    rw [← List.append_assoc, ← hline]
    exact htext.symm
  · rw [hline, List.length_append] at hfits
    exact (Nat.le_add_right _ _).trans hfits
  · show Breakable narrow (s ++ (dropBlankLast _).flatten ++ blanks) _
    rw [List.append_assoc, ← hline]
    exact hbreak

theorem dropBlankFirst_spec {room : Nat} {s : Text} {cs : List Text} (h : Breakable room s cs) :
    ∃ blanks, (∀ x ∈ blanks, isSpace x = true) ∧
      cs.flatten = blanks ++ (dropBlankFirst cs).flatten ∧
      Breakable room (s ++ blanks) (dropBlankFirst cs) := by
  have hsame : ∃ blanks, (∀ x ∈ blanks, isSpace x = true) ∧ cs.flatten = blanks ++ cs.flatten ∧
      Breakable room (s ++ blanks) cs :=
    ⟨[], fun _ h => absurd h List.not_mem_nil, rfl, by rwa [List.append_nil]⟩
  cases cs with
  | nil => exact hsame
  | cons c cs =>
    rw [dropBlankFirst]
    split
    · next hblank => exact ⟨c, forall_of_isBlank hblank, rfl, h.tail⟩
    · exact hsame

/-- The smaller room behind the indents. -/
def narrow (wrapper : TextWrapper) : Nat := min (wrapper.room true) (wrapper.room false)

theorem narrow_le (wrapper : TextWrapper) (first : Bool) : wrapper.narrow ≤ wrapper.room first := by
  cases first with
  | true => exact Nat.min_le_left _ _
  | false => exact Nat.min_le_right _ _

/-- What one turn of the loop does. -/
theorem nextLine_spec (wrapper : TextWrapper) (first : Bool) {s : Text} {cs : List Text}
    (h : Breakable wrapper.narrow s cs) : ∃ before behind,
    (∀ x ∈ before, isSpace x = true) ∧ (∀ x ∈ behind, isSpace x = true) ∧
    cs.flatten = before ++ ((wrapper.nextLine first cs).1.flatten ++
      (behind ++ (wrapper.nextLine first cs).2.flatten)) ∧
    (wrapper.nextLine first cs).1.flatten.length ≤ wrapper.room first ∧
    MayBreak wrapper.narrow (s ++ before) ((wrapper.nextLine first cs).1.flatten ++
      (behind ++ (wrapper.nextLine first cs).2.flatten)) ∧
    Breakable wrapper.narrow (s ++ before ++ (wrapper.nextLine first cs).1.flatten ++ behind)
      (wrapper.nextLine first cs).2 := by
  have hfirst : ∃ before, (∀ x ∈ before, isSpace x = true) ∧
      cs.flatten = before ++ (if first then cs else dropBlankFirst cs).flatten ∧
      Breakable wrapper.narrow (s ++ before) (if first then cs else dropBlankFirst cs) := by
    cases first with
    | true => exact ⟨[], fun _ h => absurd h List.not_mem_nil, rfl, by rwa [List.append_nil]⟩
    | false => exact dropBlankFirst_spec h
  obtain ⟨before, hbefore, htext, hbreak⟩ := hfirst
  obtain ⟨behind, hbehind, hline, hfits, hrest⟩ := takeLine_spec (wrapper.narrow_le first) hbreak
  have hstart := hbreak.start
  rw [hline] at htext hstart
  exact ⟨before, behind, hbefore, hbehind, htext, hfits, hstart, hrest⟩

/-- Lines with their indents. -/
def indented (wrapper : TextWrapper) (first : Bool) : List Text → List Text
  | [] => []
  | l :: ls => ((if first then wrapper.initialIndent else wrapper.subsequentIndent) ++ l) ::
      indented wrapper false ls

/-- The lines of chunks: they are broken where they may be, and fit into the width. -/
theorem wrapChunks_spec (wrapper : TextWrapper) (first : Bool) {s : Text} {cs : List Text}
    (h : Breakable wrapper.narrow s cs) : ∃ ls, wrapper.wrapChunks first cs =
      wrapper.indented first ls ∧ Broken (MayBreak wrapper.narrow) s cs.flatten ls ∧
      ∀ l ∈ wrapper.wrapChunks first cs, l.length ≤ wrapper.width := by
  fun_induction wrapChunks wrapper first cs generalizing s
  case case1 =>
    refine ⟨[], rfl, .done fun _ h => ?_, fun _ h => ?_⟩
    · exact absurd h List.not_mem_nil
    · exact absurd h List.not_mem_nil
  case case2 first cs hne line hlt hline ih =>
    obtain ⟨before, behind, hbefore, hbehind, htext, -, -, hrest⟩ := wrapper.nextLine_spec first h
    rw [show (wrapper.nextLine first cs).1 = [] from hline, List.flatten_nil] at htext hrest
    rw [List.append_nil] at hrest
    rw [List.nil_append] at htext
    obtain ⟨ls, hls, hbroken, hwidth⟩ := ih hrest
    rw [htext]
    exact ⟨ls, hls, .skip hbefore (.skip hbehind hbroken), hwidth⟩
  case case3 first cs hne indent line hlt hline ih =>
    obtain ⟨before, behind, hbefore, hbehind, htext, hfits, hstart, hrest⟩ :=
      wrapper.nextLine_spec first h
    obtain ⟨ls, hls, hbroken, hwidth⟩ := ih hrest
    refine ⟨line.1.flatten :: ls, by rw [hls]; rfl, ?_, fun l hl => ?_⟩
    · rw [htext]
      exact .line hbefore hstart (.skip hbehind hbroken)
    · rcases List.mem_cons.mp hl with rfl | hl
      · have hroom : indent.length + wrapper.room first = wrapper.width := by
          have hinitial := wrapper.initial_lt
          have hsubsequent := wrapper.subsequent_lt
          cases first with
          | true => exact Nat.add_sub_of_le hinitial.le
          | false => exact Nat.add_sub_of_le hsubsequent.le
        rw [List.length_append]
        have hline : line.1.flatten.length ≤ wrapper.room first := hfits
        omega
      · exact hwidth l hl

/-- The lines of a text have its words; they end where they may, and fit into the width. -/
theorem wrap_broken (wrapper : TextWrapper) (t : Text) : ∃ text ls, words text = words t ∧
    wrapper.wrap t = wrapper.indented true ls ∧ Broken (MayBreak wrapper.narrow) [] text ls ∧
    ∀ l ∈ wrapper.wrap t, l.length ≤ wrapper.width := by
  obtain ⟨ls, hls, hbroken, hwidth⟩ :=
    wrapper.wrapChunks_spec true (breakable_chunks wrapper.narrow t)
  exact ⟨(chunks t).flatten, ls, words_chunks t, hls, hbroken, hwidth⟩

/-- Behind a blank indent no visible character is lost, and none comes in. -/
theorem visible_wrap {wrapper : TextWrapper}
    (hindent : ∀ x ∈ wrapper.subsequentIndent, isSpace x = true) (t : Text) :
    visible (wrapper.wrap t).flatten =
      (if wrapper.wrap t = [] then [] else visible wrapper.initialIndent) ++ visible t := by
  obtain ⟨ls, hls, hbroken, -⟩ :=
    wrapper.wrapChunks_spec true (breakable_chunks wrapper.narrow t)
  have hlines : visible ls.flatten = visible t := by
    rw [← hbroken.visible_eq, ← flatten_words, words_chunks, flatten_words]
  have hrest : ∀ ls, visible (wrapper.indented false ls).flatten = visible ls.flatten := by
    intro ls
    induction ls with
    | nil => rfl
    | cons l ls ih =>
      rw [indented, List.flatten_cons, List.flatten_cons, visible_append, visible_append,
        visible_append, ih, if_neg Bool.false_ne_true, visible_of_space hindent]
      rfl
  rw [← hlines, wrap, hls]
  cases ls with
  | nil => rfl
  | cons l ls =>
    rw [indented, List.flatten_cons, List.flatten_cons, visible_append, visible_append,
      visible_append, hrest, if_pos rfl, if_neg (List.cons_ne_nil _ _), List.append_assoc]

theorem exists_indented (wrapper : TextWrapper) (first : Bool) {ls : List Text} {l : Text}
    (hl : l ∈ ls) : ∃ indent, indent ++ l ∈ wrapper.indented first ls := by
  induction ls generalizing first with
  | nil => cases hl
  | cons m ls ih =>
    rcases List.mem_cons.mp hl with rfl | hl
    · exact ⟨_, List.mem_cons_self⟩
    · obtain ⟨indent, hmem⟩ := ih false hl
      exact ⟨indent, List.mem_cons_of_mem _ hmem⟩

/-- A word that has no em-dash and fits behind both indents is on one line. -/
theorem wrap_word (wrapper : TextWrapper) {t w : Text} (hw : w ∈ words t)
    (hlength : w.length ≤ wrapper.narrow) (hdash : ¬ ("--" : Text) <:+: w) :
    ∃ l ∈ wrapper.wrap t, w <:+: l := by
  obtain ⟨ls, hls, hbroken, -⟩ :=
    wrapper.wrapChunks_spec true (breakable_chunks wrapper.narrow t)
  rw [← words_chunks] at hw
  have hword := isWord_of_mem_words hw
  obtain ⟨a, b, htext, ha, hb⟩ := exists_around_of_mem_words hw
  rw [htext] at hbroken
  obtain ⟨l, hl, hin⟩ := hbroken.exists_line hword fun u v huv hu hv hbreak => by
    have huvisible : ∀ x ∈ u, isSpace x = false := fun x hx =>
      hword.2 x (by rw [huv]; exact List.mem_append_left v hx)
    have hvvisible : ∀ x ∈ v, isSpace x = false := fun x hx =>
      hword.2 x (by rw [huv]; exact List.mem_append_right u hx)
    have hbefore : (([] ++ a) ++ u).rtakeWhile (!isSpace ·) = u := by
      rw [rtakeWhile_append_visible _ huvisible, List.nil_append]
      rcases List.eq_nil_or_concat' a with rfl | ⟨a, x, rfl⟩
      · rfl
      · rw [List.rtakeWhile_concat_neg _ _ _ (by rw [ha x (by simp)]; decide)]
        rfl
    have hbehind : (v ++ b).takeWhile (!isSpace ·) = v := by
      rw [takeWhile_append_visible hvvisible]
      cases b with
      | nil => exact List.append_nil v
      | cons x b =>
        rw [List.takeWhile_cons_of_neg (by rw [hb x rfl]; decide), List.append_nil]
    rw [MayBreak, hbefore, hbehind] at hbreak
    rcases hbreak with hnil | hnil | hdashes | hdashes | hlong
    · exact hu hnil
    · exact hv hnil
    · exact hdash (hdashes.isInfix.trans ⟨[], v, by rw [huv]; rfl⟩)
    · exact hdash (hdashes.isInfix.trans ⟨u, [], by rw [huv, List.append_nil]⟩)
    · rw [huv, List.length_append] at hlength
      omega
  obtain ⟨indent, hmem⟩ := wrapper.exists_indented true hl
  rw [wrap, hls]
  exact ⟨indent ++ l, hmem, hin.trans (List.suffix_append indent l).isInfix⟩

theorem wrap_noNewline {wrapper : TextWrapper} (hinitial : '\n' ∉ wrapper.initialIndent)
    (hsubsequent : '\n' ∉ wrapper.subsequentIndent) {t l : Text} (hl : l ∈ wrapper.wrap t) :
    '\n' ∉ l := by
  obtain ⟨ls, hls, hbroken, -⟩ :=
    wrapper.wrapChunks_spec true (breakable_chunks wrapper.narrow t)
  have hlines : ∀ l ∈ ls, '\n' ∉ l := by
    intro l hl h
    have hmem := mem_flatten_fixSentenceEndings (hbroken.mem_of_mem hl h)
    rw [(splitChunks_spec none _).1] at hmem
    exact newline_not_mem_mungeWhitespace t hmem
  have hindented : ∀ (first : Bool) (ls : List Text), (∀ l ∈ ls, '\n' ∉ l) →
      ∀ l ∈ wrapper.indented first ls, '\n' ∉ l := by
    intro first ls hls
    induction ls generalizing first with
    | nil => exact fun _ h => absurd h List.not_mem_nil
    | cons m ls ih =>
      obtain ⟨hm, hrest⟩ := List.forall_mem_cons.mp hls
      refine List.forall_mem_cons.mpr ⟨?_, ih false hrest⟩
      cases first with
      | true => exact fun h => (List.mem_append.mp h).elim hinitial hm
      | false => exact fun h => (List.mem_append.mp h).elim hsubsequent hm
  rw [wrap, hls] at hl
  exact hindented true ls hlines l hl

/-! ## The ends of the lines -/

/-- A line starts with the word that the chunks start with, or with a piece of it. -/
theorem takeLine_head {room : Nat} (hroom : 0 < room) {x : Char} (hx : isSpace x = false) (w : Text)
    (cs : List Text) : ∃ v line, (takeLine room ((x :: w) :: cs)).1 = (x :: v) :: line := by
  have hlast : ∀ (v : Text) (line : List Text), ∃ line', dropBlankLast ((x :: v) :: line) =
      (x :: v) :: line' := by
    intro v line
    rw [dropBlankLast]
    split
    · next h =>
      cases line with
      | nil =>
        have hblank : isBlank (x :: v) = true := by simpa using h
        rw [isBlank, List.all_cons, hx] at hblank
        cases hblank
      | cons d line => exact ⟨_, List.dropLast_cons_cons⟩
    · exact ⟨line, rfl⟩
  show ∃ v line, dropBlankLast (handleLongWord room (fill room 0 ((x :: w) :: cs)).1
    (fill room 0 ((x :: w) :: cs)).2).1 = (x :: v) :: line
  rw [fill]
  split
  · obtain ⟨more, hmore⟩ : ∃ more,
        (handleLongWord room ((x :: w) :: (fill room (0 + (x :: w).length) cs).1)
          (fill room (0 + (x :: w).length) cs).2).1 = (x :: w) :: more := by
      cases (fill room (0 + (x :: w).length) cs).2 with
      | nil => exact ⟨_, rfl⟩
      | cons c rest =>
        rw [handleLongWord]
        split
        · exact ⟨_, rfl⟩
        · exact ⟨_, rfl⟩
    rw [hmore]
    obtain ⟨line, hline⟩ := hlast w more
    exact ⟨w, line, hline⟩
  · next hlong =>
    rw [handleLongWord, if_pos (by omega)]
    obtain ⟨n, rfl⟩ := Nat.exists_eq_succ_of_ne_zero hroom.ne'
    obtain ⟨line, hline⟩ := hlast (w.take n) []
    exact ⟨w.take n, line, hline⟩

theorem wrapChunks_head (wrapper : TextWrapper) {x : Char} (hx : isSpace x = false) (w : Text)
    (cs : List Text) : ∃ v lines, wrapper.wrapChunks true ((x :: w) :: cs) =
      (wrapper.initialIndent ++ x :: v) :: lines := by
  obtain ⟨v, line, hline⟩ := takeLine_head (wrapper.room_pos true) hx w cs
  have hnext : (wrapper.nextLine true ((x :: w) :: cs)).1 = (x :: v) :: line := hline
  rw [wrapChunks, dif_neg (List.cons_ne_nil _ _)]
  dsimp only
  rw [hnext, if_neg (List.cons_ne_nil _ _)]
  exact ⟨v ++ line.flatten, _, rfl⟩

/-- A text that starts with a visible character starts the first line with it. -/
theorem wrap_head (wrapper : TextWrapper) {x : Char} (hx : isSpace x = false) (t : Text) :
    ∃ v lines, wrapper.wrap (x :: t) = (wrapper.initialIndent ++ x :: v) :: lines := by
  obtain ⟨hflat, hchunk⟩ := splitChunks_spec none (mungeWhitespace (x :: t))
  have hhead := mungeWhitespace_visible hx t
  rw [← hflat] at hhead
  cases hcs : splitChunks none (mungeWhitespace (x :: t)) with
  | nil =>
    rw [hcs] at hhead
    cases hhead
  | cons c cs =>
    rw [hcs] at hhead hchunk
    cases c with
    | nil => exact absurd rfl (hchunk [] List.mem_cons_self).1
    | cons y w =>
      obtain rfl : y = x := Option.some.inj hhead
      obtain ⟨cs', hfix⟩ := List.head?_eq_some_iff.mp
        ((head?_fixSentenceEndings ((y :: w) :: cs)).trans rfl)
      rw [wrap, chunks, hcs, hfix]
      exact wrapper.wrapChunks_head hx w cs'

theorem endsVisible_append {cs ds : List Text} (h : EndsVisible (cs ++ ds)) (hne : ds ≠ []) :
    EndsVisible ds := by
  induction cs with
  | nil => exact h
  | cons c cs ih => exact ih (h.tail (by simp [hne]))

theorem dropBlankFirst_endsVisible {cs : List Text} (h : EndsVisible cs) :
    EndsVisible (dropBlankFirst cs) := by
  cases cs with
  | nil => exact h
  | cons c cs =>
    rw [dropBlankFirst]
    split
    · next hblank =>
      refine h.tail ?_
      rintro rfl
      obtain ⟨ds, w, heq, hne, hw⟩ := h
      have hmem : w ∈ [c] := heq ▸ List.mem_append_right ds List.mem_cons_self
      rw [List.mem_singleton.mp hmem] at hne hw
      obtain ⟨x, hx⟩ := List.exists_mem_of_ne_nil c hne
      have hsp := forall_of_isBlank hblank x hx
      rw [hw x hx] at hsp
      cases hsp
    · exact h

theorem handleLongWord_endsVisible {room : Nat} {line cs : List Text} (h : EndsVisible cs) :
    EndsVisible (handleLongWord room line cs).2 := by
  cases cs with
  | nil => exact h
  | cons c cs =>
    rw [handleLongWord]
    split
    · next hlong =>
      obtain ⟨ds, w, heq, hne, hw⟩ := h
      cases ds with
      | nil =>
        obtain ⟨rfl, rfl⟩ := List.cons.inj heq
        refine ⟨[], _, rfl, ?_, fun x hx => hw x (List.mem_of_mem_drop hx)⟩
        intro hnil
        have hlen := List.drop_eq_nil_iff.mp hnil
        omega
      | cons d ds =>
        obtain ⟨rfl, rfl⟩ := List.cons.inj heq
        exact ⟨_ :: ds, w, rfl, hne, hw⟩
    · exact h

theorem dropBlankLast_endsVisible {line : List Text} (h : EndsVisible line) :
    dropBlankLast line = line := by
  obtain ⟨ds, w, rfl, hne, hw⟩ := h
  obtain ⟨x, hx⟩ := List.exists_mem_of_ne_nil w hne
  rw [dropBlankLast, if_neg]
  simp only [List.getLast?_append, List.getLast?_singleton, Option.some_or, Option.any_some]
  intro hblank
  have hsp := forall_of_isBlank hblank x hx
  rw [hw x hx] at hsp
  cases hsp

/-- The last word is on the line when nothing is left, and otherwise among what is left. -/
theorem takeLine_endsVisible (room : Nat) {cs : List Text} (h : EndsVisible cs) :
    ((takeLine room cs).2 = [] ∧ EndsVisible (takeLine room cs).1) ∨
      EndsVisible (takeLine room cs).2 := by
  have happ := fill_append room 0 cs
  rw [takeLine]
  dsimp only
  cases hrest : (fill room 0 cs).2 with
  | nil =>
    rw [hrest, List.append_nil] at happ
    refine .inl ⟨rfl, ?_⟩
    rw [happ]
    show EndsVisible (dropBlankLast cs)
    rwa [dropBlankLast_endsVisible h]
  | cons c rest =>
    rw [hrest] at happ
    rw [← happ] at h
    exact .inr (handleLongWord_endsVisible (endsVisible_append h (List.cons_ne_nil _ _)))

theorem nextLine_endsVisible (wrapper : TextWrapper) (first : Bool) {chunks : List Text}
    (h : EndsVisible chunks) :
    ((wrapper.nextLine first chunks).2 = [] ∧ EndsVisible (wrapper.nextLine first chunks).1) ∨
      EndsVisible (wrapper.nextLine first chunks).2 := by
  cases first with
  | true => exact takeLine_endsVisible _ h
  | false => exact takeLine_endsVisible _ (dropBlankFirst_endsVisible h)

theorem wrapChunks_last (wrapper : TextWrapper) {first : Bool} {chunks : List Text}
    (h : EndsVisible chunks) :
    ∃ lines l x, wrapper.wrapChunks first chunks = lines ++ [l ++ [x]] ∧ isSpace x = false := by
  fun_induction wrapChunks wrapper first chunks with
  | case1 =>
    obtain ⟨cs, w, heq, -⟩ := h
    simp at heq
  | case2 first chunks hne line hlt hline ih =>
    rcases wrapper.nextLine_endsVisible first h with ⟨-, hend⟩ | hend
    · obtain ⟨cs, w, heq, -⟩ := hend
      rw [show (wrapper.nextLine first chunks).1 = [] from hline] at heq
      simp at heq
    · exact ih hend
  | case3 first chunks hne indent line hlt hline ih =>
    rcases wrapper.nextLine_endsVisible first h with ⟨hnil, hend⟩ | hend
    · obtain ⟨cs, w, heq, hw, hvis⟩ := hend
      obtain ⟨v, x, rfl⟩ := (List.eq_nil_or_concat' w).resolve_left hw
      refine ⟨[], indent ++ (cs.flatten ++ v), x, ?_, hvis x (by simp)⟩
      rw [show line.2 = [] from hnil, show line.1 = _ from heq, wrapChunks, dif_pos rfl]
      simp
    · obtain ⟨lines, l, x, heq, hx⟩ := ih hend
      exact ⟨(indent ++ line.1.flatten) :: lines, l, x, by rw [heq]; rfl, hx⟩

/-- A text that ends with a visible character ends the last line with one. -/
theorem wrap_last (wrapper : TextWrapper) {x : Char} (hx : isSpace x = false) (t : Text) :
    ∃ lines l y, wrapper.wrap (t ++ [x]) = lines ++ [l ++ [y]] ∧ isSpace y = false := by
  obtain ⟨hflat, hchunk⟩ := splitChunks_spec none (mungeWhitespace (t ++ [x]))
  obtain ⟨s, hs⟩ := mungeWhitespace_last hx t
  exact wrapper.wrapChunks_last (endsVisible_fixSentenceEndings
    (endsVisible_of_flatten hchunk (hflat.trans hs) hx))

end TextWrapper

end DebianKernel.Debian
