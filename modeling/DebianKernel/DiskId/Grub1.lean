import DebianKernel.DiskId.Kernel
import DebianKernel.Lib.Lines
import Mathlib.Data.List.Forall2
import Mathlib.Logic.Function.Basic

/-!
# GRUB 1

`grub1_parse` takes the option lines between the markers of `menu.lst` out of the rest of the
text, and `grub1_update` puts the old option as a comment before a new one.

Results:
1. `grub1Parse_eq`, `grub1Update_eq`: the pieces and the update, line by line.
2. `optionsFrom_rewriteLines`: a comment is no option and no marker.
3. `grub1_update_faithful`: what is read from the output, and what stays as it is.
-/

namespace DebianKernel.DiskId

open Text

/-! ## The parser -/

/-- An element of `@results`: a text, and the name and the value when it is an option line. -/
structure Grub1Piece where
  text : Text
  option : Option (Text × Text)

/-- The groups of `^\# (\w+)=(.*)`. -/
def grub1Option (line : Text) : Option (Text × Text) :=
  match line with
  | '#' :: ' ' :: rest =>
    if rest.takeWhile isWordChar = [] then none
    else match rest.dropWhile isWordChar with
      | '=' :: value => some (rest.takeWhile isWordChar, value.takeWhile (· ≠ '\n'))
      | _ => none
  | _ => none

/-- `$in_auto` and `$in_opts`. -/
structure Markers where
  inAuto : Bool
  inOpts : Bool

namespace Markers

def init : Markers := ⟨false, false⟩

def next (m : Markers) (line : Text) : Markers :=
  if line = "### BEGIN AUTOMAGIC KERNELS LIST\n" then { m with inAuto := true }
  else if line = "### END DEBIAN AUTOMAGIC KERNELS LIST\n" then { m with inAuto := false }
  else if line = "## ## Start Default Options ##\n" then { m with inOpts := m.inAuto }
  else if line = "## ## End Default Options ##\n" then { m with inOpts := false }
  else m

/-- `$in_opts && /^\# (\w+)=(.*)/`. -/
def option (m : Markers) (line : Text) : Option (Text × Text) :=
  if m.inOpts then grub1Option line else none

end Markers

/-- The local variables of `grub1_parse`. -/
structure Grub1State where
  results : List Grub1Piece
  text : Text
  markers : Markers

/-- The body of the loop. -/
def grub1Line (s : Grub1State) (line : Text) : Grub1State :=
  match s.markers.option line with
  | some option =>
    { s with results := s.results ++ [⟨s.text, none⟩, ⟨line, some option⟩], text := [] }
  | none => { s with text := s.text ++ line, markers := s.markers.next line }

/-- `grub1_parse`. -/
def grub1Parse (file : Text) : List Grub1Piece :=
  let s := (lines file).foldl grub1Line ⟨[], [], .init⟩
  if s.text ≠ [] then s.results ++ [⟨s.text, none⟩] else s.results

/-! ## The options -/

/-- `$options{$name} = $value` for all pieces in turn. -/
def grub1Options (pieces : List Grub1Piece) : Text → Option Text :=
  pieces.foldl (fun options piece =>
    match piece.option with
    | some (name, value) => Function.update options name (some value)
    | none => options) fun _ => none

/-- `grub1_list`. -/
def grub1List (file : Text) : List Text :=
  let options := grub1Options (grub1Parse file)
  (match options "kopt_2_6", options "kopt" with
    | some value, _ => kernelList value
    | none, some value => kernelList value
    | none, none => []) ++
  match options "xenkopt" with
    | some value => kernelList value
    | none => []

/-- The options that `update-grub` uses. -/
def UsedOption (options : Text → Option Text) (name : Text) : Prop :=
  name = "kopt_2_6" ∨ (name = "kopt" ∧ options "kopt_2_6" = none) ∨ name = "xenkopt"

instance (options : Text → Option Text) (name : Text) : Decidable (UsedOption options name) :=
  inferInstanceAs (Decidable (_ ∨ _))

/-- The value that an option gets. -/
def newOption (options : Text → Option Text) (map : DeviceMap) (name value : Text) : Option Text :=
  if UsedOption options name then kernelUpdate value map else none

def commented (name value : Text) : Text := "## " ++ name ++ "=" ++ value ++ "\n"

def optionLine (name value : Text) : Text := "# " ++ name ++ "=" ++ value ++ "\n"

/-- What `grub1_update` prints for a piece. -/
def updatePiece (rewrite : Text → Text → Option Text) (piece : Grub1Piece) : Text :=
  match piece.option with
  | some (name, value) =>
    match rewrite name value with
    | some new => commented name value ++ optionLine name new
    | none => piece.text
  | none => piece.text

/-- `grub1_update`. -/
def grub1Update (old : Text) (map : DeviceMap) : Text :=
  ((grub1Parse old).map
    (updatePiece (newOption (grub1Options (grub1Parse old)) map))).flatten

/-! ## What is expected -/

def optionNames (file : Text) : List Text :=
  (grub1Parse file).filterMap fun piece => piece.option.map (·.1)

/-- An option that names a device in the map. -/
def NamesMapped (map : DeviceMap) (value : Text) : Prop :=
  ∃ bdev ∈ kernelList value, (map bdev).isSome = true

/-- What is written for a piece. -/
structure PieceWritten (options : Text → Option Text) (map : DeviceMap) (piece : Grub1Piece)
    (written : Text) : Prop where
  kept : (∀ name value, piece.option = some (name, value) →
    ¬ (UsedOption options name ∧ NamesMapped map value)) → written = piece.text
  rewritten : ∀ name value new, piece.option = some (name, value) → UsedOption options name →
    kernelUpdate value map = some new → written = commented name value ++ optionLine name new

structure Grub1Faithful (map : DeviceMap) (old new : Text) : Prop where
  parsed : ((grub1Parse old).map (·.text)).flatten = old
  listed : grub1List new = (grub1List old).map map.replace
  named : optionNames new = optionNames old
  pieces : ∃ written, new = written.flatten ∧
    List.Forall₂ (PieceWritten (grub1Options (grub1Parse old)) map) (grub1Parse old) written

namespace Grub1Lemmas

/-! ## The pieces, line by line -/

/-- The pieces of the lines, with the text that was read before them. -/
def parseFrom (m : Markers) (text : Text) : List Text → List Grub1Piece
  | [] => if text = [] then [] else [⟨text, none⟩]
  | line :: rest =>
    match m.option line with
    | some option => ⟨text, none⟩ :: ⟨line, some option⟩ :: parseFrom m [] rest
    | none => parseFrom (m.next line) (text ++ line) rest

/-- The options of the lines. -/
def optionsFrom (m : Markers) : List Text → List (Text × Text)
  | [] => []
  | line :: rest =>
    match m.option line with
    | some option => option :: optionsFrom m rest
    | none => optionsFrom (m.next line) rest

/-- The lines that are written for an option line. -/
def rewriteLine (rewrite : Text → Text → Option Text) (line : Text) (option : Text × Text) :
    List Text :=
  match rewrite option.1 option.2 with
  | some new => [commented option.1 option.2, optionLine option.1 new]
  | none => [line]

def rewriteLines (rewrite : Text → Text → Option Text) (m : Markers) : List Text → List Text
  | [] => []
  | line :: rest =>
    match m.option line with
    | some option => rewriteLine rewrite line option ++ rewriteLines rewrite m rest
    | none => line :: rewriteLines rewrite (m.next line) rest

theorem foldl_parse (ls : List Text) (s : Grub1State) :
    (let s' := ls.foldl grub1Line s
      if s'.text ≠ [] then s'.results ++ [⟨s'.text, none⟩] else s'.results) =
      s.results ++ parseFrom s.markers s.text ls := by
  induction ls generalizing s with
  | nil =>
    rw [parseFrom]
    rcases eq_or_ne s.text [] with h | h <;> simp [h]
  | cons line rest ih =>
    rw [List.foldl_cons, ih, parseFrom, grub1Line]
    split
    · exact List.append_assoc _ _ _
    · rfl

theorem grub1Parse_eq (file : Text) : grub1Parse file = parseFrom .init [] (lines file) :=
  foldl_parse (lines file) ⟨[], [], .init⟩

theorem parseFrom_update (rewrite : Text → Text → Option Text) (m : Markers) (text : Text)
    (ls : List Text) : ((parseFrom m text ls).map (updatePiece rewrite)).flatten =
      text ++ (rewriteLines rewrite m ls).flatten := by
  induction ls generalizing m text with
  | nil =>
    rw [parseFrom]
    rcases eq_or_ne text [] with rfl | h
    · rfl
    · rw [if_neg h]
      rfl
  | cons line rest ih =>
    rw [parseFrom, rewriteLines]
    split
    · next option _ =>
      have hline : updatePiece rewrite ⟨line, some option⟩ =
          (rewriteLine rewrite line option).flatten := by
        rw [updatePiece, rewriteLine]
        dsimp only
        split <;> simp
      rw [List.map_cons, List.map_cons, List.flatten_cons, List.flatten_cons, ih, hline,
        List.nil_append, List.flatten_append]
      rfl
    · rw [ih, List.flatten_cons, List.append_assoc]

theorem grub1Update_eq (old : Text) (map : DeviceMap) :
    grub1Update old map = (rewriteLines (newOption (grub1Options (grub1Parse old)) map) .init
      (lines old)).flatten := by
  rw [grub1Update, grub1Parse_eq, parseFrom_update]
  rfl

theorem rewriteLines_none (m : Markers) (ls : List Text) :
    rewriteLines (fun _ _ => none) m ls = ls := by
  induction ls generalizing m with
  | nil => rfl
  | cons line rest ih =>
    rw [rewriteLines]
    split
    · rw [ih]
      rfl
    · rw [ih]

theorem flatten_texts (file : Text) : ((grub1Parse file).map (·.text)).flatten = file := by
  have htext : (fun piece : Grub1Piece => piece.text) = updatePiece fun _ _ => none := by
    funext piece
    rw [updatePiece]
    split <;> rfl
  rw [htext, grub1Parse_eq, parseFrom_update, rewriteLines_none, flatten_lines, List.nil_append]

theorem parseFrom_options (m : Markers) (text : Text) (ls : List Text) :
    (parseFrom m text ls).filterMap (·.option) = optionsFrom m ls := by
  induction ls generalizing m text with
  | nil =>
    rw [parseFrom]
    split <;> rfl
  | cons line rest ih =>
    rw [parseFrom, optionsFrom]
    split
    · rw [List.filterMap_cons_none rfl, ← ih m []]
      rfl
    · exact ih _ _

theorem optionNames_eq (file : Text) :
    optionNames file = (optionsFrom .init (lines file)).map (·.1) := by
  rw [← parseFrom_options .init [], ← grub1Parse_eq, optionNames, List.map_filterMap]

/-- The hash of a list of options. -/
def hash (options : List (Text × Text)) : Text → Option Text :=
  options.foldl (fun options o => Function.update options o.1 (some o.2)) fun _ => none

theorem grub1Options_eq (file : Text) :
    grub1Options (grub1Parse file) = hash (optionsFrom .init (lines file)) := by
  rw [← parseFrom_options .init [], ← grub1Parse_eq, hash, List.foldl_filterMap, grub1Options]
  refine List.foldl_ext _ _ _ fun options piece _ => ?_
  cases piece.option <;> rfl

/-! ## New lines -/

theorem grub1Option_eq_some {line name value : Text} (h : grub1Option line = some (name, value)) :
    name ≠ [] ∧ (∀ c ∈ name, isWordChar c = true) ∧ '\n' ∉ value := by
  unfold grub1Option at h
  split at h
  · next rest =>
    split at h
    · cases h
    · next hne =>
      split at h
      · cases h
        refine ⟨hne, fun c hc => List.mem_takeWhile_imp hc, fun hc => ?_⟩
        have := List.mem_takeWhile_imp hc
        simp at this
      · cases h
  · cases h

/-- A new option line is read as it was meant. -/
theorem grub1Option_optionLine {name value : Text} (hne : name ≠ [])
    (hname : ∀ c ∈ name, isWordChar c = true) (hvalue : '\n' ∉ value) :
    grub1Option (optionLine name value) = some (name, value) := by
  have hall : ∀ c ∈ value, decide (c ≠ '\n') = true := by
    intro c hc
    refine decide_eq_true fun h => hvalue (h ▸ hc)
  have htake : (name ++ '=' :: (value ++ ['\n'])).takeWhile isWordChar = name := by
    rw [List.takeWhile_append_of_pos hname, List.takeWhile_cons_of_neg (by decide),
      List.append_nil]
  have hdrop : (name ++ '=' :: (value ++ ['\n'])).dropWhile isWordChar =
      '=' :: (value ++ ['\n']) := by
    rw [List.dropWhile_append_of_pos hname, List.dropWhile_cons_of_neg (by decide)]
  have hbody : (value ++ ['\n']).takeWhile (fun c => decide (c ≠ '\n')) = value := by
    rw [List.takeWhile_append_of_pos hall, List.takeWhile_cons_of_neg (by decide),
      List.append_nil]
  have hline : optionLine name value = '#' :: ' ' :: (name ++ '=' :: (value ++ ['\n'])) := by
    simp [optionLine]
  rw [hline, grub1Option, htake, if_neg hne, hdrop]
  exact congrArg (fun v => some (name, v)) hbody

theorem grub1Option_commented (name value : Text) : grub1Option (commented name value) = none :=
  rfl

/-- A comment is no marker. -/
theorem next_commented {name : Text} (hne : name ≠ []) (hname : ∀ c ∈ name, isWordChar c = true)
    (value : Text) (m : Markers) : m.next (commented name value) = m := by
  obtain ⟨c, t, rfl⟩ := List.exists_cons_of_ne_nil hne
  have hc : c ≠ '#' := by
    rintro rfl
    exact absurd (hname '#' List.mem_cons_self) (by decide)
  have hline : commented (c :: t) value =
      '#' :: '#' :: ' ' :: c :: (t ++ '=' :: (value ++ ['\n'])) := by
    simp [commented]
  rw [hline, Markers.next, if_neg, if_neg, if_neg, if_neg]
  · exact fun h => hc (List.cons.inj (List.cons.inj (List.cons.inj (List.cons.inj h).2).2).2).1
  · exact fun h => hc (List.cons.inj (List.cons.inj (List.cons.inj (List.cons.inj h).2).2).2).1
  · exact fun h => absurd (List.cons.inj (List.cons.inj (List.cons.inj h).2).2).1 (by decide)
  · exact fun h => absurd (List.cons.inj (List.cons.inj (List.cons.inj h).2).2).1 (by decide)

theorem option_eq_some {m : Markers} {line name value : Text}
    (h : m.option line = some (name, value)) :
    m.inOpts = true ∧ grub1Option line = some (name, value) := by
  rw [Markers.option] at h
  split at h
  · next hopts => exact ⟨hopts, h⟩
  · cases h

/-- The rewritten options are read in place of the old ones. -/
theorem optionsFrom_rewriteLines {rewrite : Text → Text → Option Text}
    (hnew : ∀ name value new, rewrite name value = some new → '\n' ∉ value → '\n' ∉ new)
    (m : Markers) (ls : List Text) :
    optionsFrom m (rewriteLines rewrite m ls) =
      (optionsFrom m ls).map fun o => (o.1, (rewrite o.1 o.2).getD o.2) := by
  induction ls generalizing m with
  | nil => rfl
  | cons line rest ih =>
    rw [rewriteLines, optionsFrom]
    cases hoption : m.option line with
    | none =>
      dsimp only
      rw [optionsFrom, hoption]
      exact ih _
    | some o =>
      obtain ⟨name, value⟩ := o
      obtain ⟨hopts, hline⟩ := option_eq_some hoption
      obtain ⟨hne, hname, hvalue⟩ := grub1Option_eq_some hline
      dsimp only
      rw [rewriteLine, List.map_cons, ← ih]
      dsimp only
      cases hrewrite : rewrite name value with
      | none =>
        dsimp only
        rw [List.singleton_append, optionsFrom, hoption]
        rfl
      | some new =>
        have hcomment : m.option (commented name value) = none := by
          rw [Markers.option, if_pos hopts, grub1Option_commented]
        have hread : m.option (optionLine name new) = some (name, new) := by
          rw [Markers.option, if_pos hopts]
          exact grub1Option_optionLine hne hname (hnew name value new hrewrite hvalue)
        dsimp only
        rw [List.cons_append, List.singleton_append, optionsFrom, hcomment]
        dsimp only
        rw [next_commented hne hname, optionsFrom, hread]
        rfl

/-- The lines that are written are those of the output. -/
theorem lines_rewriteLines {rewrite : Text → Text → Option Text}
    (hnew : ∀ name value new, rewrite name value = some new → '\n' ∉ value → '\n' ∉ new)
    (file : Text) (m : Markers) :
    lines (rewriteLines rewrite m (lines file)).flatten = rewriteLines rewrite m (lines file) := by
  have hwritten : ∀ (ls : List Text) (m : Markers), (∀ l ∈ ls, IsLineOrEnd l) →
      ls.Pairwise (fun l _ => IsLine l) →
      lines (rewriteLines rewrite m ls).flatten = rewriteLines rewrite m ls := by
    intro ls
    induction ls with
    | nil => exact fun _ _ _ => rfl
    | cons line rest ih =>
      intro m hall hpairwise
      obtain ⟨hline, hrest⟩ := List.pairwise_cons.mp hpairwise
      have hall' := fun l hl => hall l (List.mem_cons_of_mem _ hl)
      -- a line that is kept is complete, or nothing is behind it
      have hkept : ∀ m', lines (line :: rewriteLines rewrite m' rest).flatten =
          line :: rewriteLines rewrite m' rest := by
        intro m'
        rcases hall line List.mem_cons_self with hl | ⟨hno, hne⟩
        · rw [List.flatten_cons, lines_cons_isLine hl, ih m' hall' hrest]
        · have hnil : rest = [] := by
            refine List.eq_nil_iff_forall_not_mem.mpr fun l hl => ?_
            obtain ⟨body, -, heq⟩ := hline l hl
            rw [heq] at hno
            exact hno (List.mem_append_right _ (List.mem_singleton.mpr rfl))
          rw [hnil, rewriteLines, List.flatten_singleton, lines_body hno hne]
      rw [rewriteLines]
      cases hoption : m.option line with
      | none => exact hkept _
      | some o =>
        obtain ⟨name, value⟩ := o
        obtain ⟨-, hgroups⟩ := option_eq_some hoption
        obtain ⟨-, hname, hvalue⟩ := grub1Option_eq_some hgroups
        have hname' : '\n' ∉ name := fun h => absurd (hname _ h) (by decide)
        dsimp only
        rw [rewriteLine]
        dsimp only
        cases hrewrite : rewrite name value with
        | none => exact hkept _
        | some new =>
          have hnew' := hnew name value new hrewrite hvalue
          have hcomment : IsLine (commented name value) :=
            ⟨"## " ++ name ++ "=" ++ value, by simp [hname', hvalue], rfl⟩
          have hoptionLine : IsLine (optionLine name new) :=
            ⟨"# " ++ name ++ "=" ++ new, by simp [hname', hnew'], rfl⟩
          dsimp only
          rw [List.cons_append, List.singleton_append, List.flatten_cons, List.flatten_cons,
            lines_cons_isLine hcomment, lines_cons_isLine hoptionLine, ih m hall' hrest]
  exact hwritten _ m (fun l hl => lineOrEnd_of_mem_lines hl) (lines_pairwise file)

/-! ## The list -/

/-- The hash, when every value is changed on its own. -/
theorem hash_map (f : Text → Text → Text) (options : List (Text × Text)) (name : Text) :
    hash (options.map fun o => (o.1, f o.1 o.2)) name = (hash options name).map (f name) := by
  induction options using List.reverseRecOn with
  | nil => rfl
  | append_singleton options o ih =>
    rw [hash, hash, List.map_append, List.foldl_append, List.foldl_append]
    show Function.update (hash _) o.1 (some (f o.1 o.2)) name =
      (Function.update (hash options) o.1 (some o.2) name).map (f name)
    rcases eq_or_ne name o.1 with rfl | hne
    · rw [Function.update_self, Function.update_self]
      rfl
    · rw [Function.update_of_ne hne, Function.update_of_ne hne, ih]

/-- The list of a value that is updated, or that names no device in the map. -/
theorem kernelList_getD {map : DeviceMap}
    (hid : ∀ bdev id, map bdev = some id → id ≠ [] ∧ ∀ c ∈ id, isSpace c = false) (value : Text) :
    kernelList ((kernelUpdate value map).getD value) = (kernelList value).map map.replace := by
  cases h : kernelUpdate value map with
  | some new => exact kernelList_kernelUpdate hid h
  | none => exact kernelList_of_not_updated h

theorem newline_not_mem_newOption {options : Text → Option Text} {map : DeviceMap}
    (hid : ∀ bdev id, map bdev = some id → id ≠ [] ∧ ∀ c ∈ id, isSpace c = false)
    (name value new : Text) (h : newOption options map name value = some new)
    (hvalue : '\n' ∉ value) : '\n' ∉ new := by
  rw [newOption] at h
  split at h
  · intro hnew
    rcases kernelUpdate_chars h hnew with hmem | ⟨bdev, id, hmap, hmem⟩
    · exact hvalue hmem
    · exact absurd ((hid bdev id hmap).2 _ hmem) (by decide)
  · cases h

/-- The update names a device in the map. -/
theorem namesMapped_of_update {map : DeviceMap} {value new : Text}
    (h : kernelUpdate value map = some new) : NamesMapped map value := by
  obtain ⟨pre, bdev, rest, id, hfind, hmap, -⟩ := kernelUpdate_eq_some h
  refine ⟨bdev, ?_, by rw [hmap]; rfl⟩
  rw [kernelList, hfind]
  exact List.mem_singleton.mpr rfl

theorem pieceWritten (options : Text → Option Text) (map : DeviceMap) (piece : Grub1Piece) :
    PieceWritten options map piece (updatePiece (newOption options map) piece) := by
  refine ⟨fun hkept => ?_, fun name value new hoption hused hnew => ?_⟩
  · rw [updatePiece]
    split
    · next name value hoption =>
      rw [newOption]
      split
      · next new hnew =>
        split at hnew
        · next hused =>
          exact absurd ⟨hused, namesMapped_of_update hnew⟩ (hkept name value hoption)
        · cases hnew
      · rfl
    · rfl
  · rw [updatePiece, hoption]
    dsimp only
    rw [newOption, if_pos hused, hnew]

end Grub1Lemmas

open Grub1Lemmas

/-- Whatever the markers and the options are, the output is read with the new ids. -/
theorem grub1_update_faithful {map : DeviceMap}
    (hid : ∀ bdev id, map bdev = some id → id ≠ [] ∧ ∀ c ∈ id, isSpace c = false) (file : Text) :
    Grub1Faithful map file (grub1Update file map) := by
  let options := grub1Options (grub1Parse file)
  have hoptions : optionsFrom .init (lines (grub1Update file map)) =
      (optionsFrom .init (lines file)).map fun o =>
        (o.1, (newOption options map o.1 o.2).getD o.2) := by
    rw [grub1Update_eq, lines_rewriteLines (newline_not_mem_newOption hid),
      optionsFrom_rewriteLines (newline_not_mem_newOption hid)]
  have hnew : ∀ name, grub1Options (grub1Parse (grub1Update file map)) name =
      (options name).map fun value => (newOption options map name value).getD value := by
    intro name
    rw [grub1Options_eq, hoptions, hash_map fun name value =>
      (newOption options map name value).getD value, ← grub1Options_eq]
  have hlookup : ∀ name, UsedOption options name →
      grub1Options (grub1Parse (grub1Update file map)) name =
        (options name).map fun value => (kernelUpdate value map).getD value := by
    intro name hused
    rw [hnew]
    simp only [newOption, if_pos hused]
  refine ⟨flatten_texts file, ?_, ?_, _, rfl, ?_⟩
  · rw [grub1List, grub1List, List.map_append]
    have hkopt26 := hlookup "kopt_2_6" (.inl rfl)
    have hxen := hlookup "xenkopt" (.inr (.inr rfl))
    refine congrArg₂ (· ++ ·) ?_ ?_
    · rw [hkopt26]
      show _ = (match options "kopt_2_6", options "kopt" with
        | some value, _ => kernelList value
        | none, some value => kernelList value
        | none, none => []).map map.replace
      cases h26 : options "kopt_2_6" with
      | some value => exact kernelList_getD hid value
      | none =>
        rw [hlookup "kopt" (.inr (.inl ⟨rfl, h26⟩))]
        cases options "kopt" with
        | some value => exact kernelList_getD hid value
        | none => rfl
    · rw [hxen]
      show _ = (match options "xenkopt" with
        | some value => kernelList value
        | none => []).map map.replace
      cases options "xenkopt" with
      | some value => exact kernelList_getD hid value
      | none => rfl
  · rw [optionNames_eq, optionNames_eq, hoptions, List.map_map]
    rfl
  · exact List.forall₂_map_right_iff.mpr (List.forall₂_same.mpr fun piece _ =>
      pieceWritten options map piece)

theorem kopt_faithful :
    (∀ bdev id, (fun bdev : Text => if bdev = "/dev/hda2" then some ("UUID=0b" : Text) else none)
      bdev = some id → id ≠ [] ∧ ∀ c ∈ id, isSpace c = false) ∧
    Grub1Faithful (fun bdev => if bdev = "/dev/hda2" then some "UUID=0b" else none)
      "### BEGIN AUTOMAGIC KERNELS LIST\n## ## Start Default Options ##\n# kopt=root=/dev/hda2 ro"
      (grub1Update
        "### BEGIN AUTOMAGIC KERNELS LIST\n## ## Start Default Options ##\n# kopt=root=/dev/hda2 ro"
        fun bdev => if bdev = "/dev/hda2" then some "UUID=0b" else none) := by
  have hid : ∀ bdev id, (fun bdev : Text =>
      if bdev = "/dev/hda2" then some ("UUID=0b" : Text) else none) bdev = some id →
      id ≠ [] ∧ ∀ c ∈ id, isSpace c = false := by
    intro bdev id h
    dsimp only at h
    split at h
    · cases h
      exact ⟨by decide, Text.forall_mem_of_all (by decide)⟩
    · cases h
  exact ⟨hid, grub1_update_faithful hid _⟩

/-- An empty id is not listed. -/
theorem empty_id_not_listed :
    ¬ ∀ (map : DeviceMap), (∀ bdev id, map bdev = some id → ∀ c ∈ id, isSpace c = false) →
      ∀ file, Grub1Faithful map file (grub1Update file map) := by
  intro h
  have hlisted := (h (fun bdev => if bdev = "/dev/hda2" then some [] else none) (by
    intro bdev id hmap
    split at hmap
    · cases hmap
      exact fun _ hc => absurd hc List.not_mem_nil
    · cases hmap)
    ("### BEGIN AUTOMAGIC KERNELS LIST\n## ## Start Default Options ##\n" ++
      "# kopt=root=/dev/hda2\n")).listed
  exact absurd hlisted (by decide)

end DebianKernel.DiskId
