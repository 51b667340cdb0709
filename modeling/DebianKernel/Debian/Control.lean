import DebianKernel.Debian.Package
import DebianKernel.Debian.RelationText
import DebianKernel.Debian.TextWrap

/-!
# Reading stanzas

`read_control` of `debian_linux.utils` and `_read_templates` of the firmware generator: two
loops over the lines of a file, of which the first stops at the end of the file and the second
at an empty stanza. `strip` and `split` know the white space of ASCII; that of other characters is
not stripped here.

Results:
1. `readlines_spec`, `readStanza_eq`: what is read of a block of lines, by its fields.
2. `readControl_blocks`, `readTemplates_blocks`: the two loops, block by block.
3. `template_readers_agree_iff`: the files of which both loops read the same stanzas.
-/

namespace DebianKernel.Debian

open Text

/-! ## Descriptions -/

/-- `split(u"\n.\n")`. -/
def splitParagraphs : Text → List Text
  | [] => [[]]
  | '\n' :: '.' :: '\n' :: t => [] :: splitParagraphs t
  | c :: t =>
    match splitParagraphs t with
    | [] => [[c]]
    | p :: ps => (c :: p) :: ps

namespace PackageDescription

def append (self : PackageDescription) (str : Text) : PackageDescription :=
  if strip str = [] then self
  else { self with long := self.long ++ splitParagraphs (strip str) }

def appendShort (self : PackageDescription) (str : Text) : PackageDescription :=
  { self with short := self.short ++ ((str.splitOn ',').map strip).filter (· ≠ []) }

/-- `PackageDescription(value)` of `debian_linux.debian`. A value of one line is an error. -/
def ofText (value : Text) : Option PackageDescription :=
  if '\n' ∈ value then
    let short := value.takeWhile (· ≠ '\n')
    let long := (value.dropWhile (· ≠ '\n')).drop 1
    some ((append ⟨[], []⟩ long).appendShort short)
  else none

/-- `PackageDescription(value)` of the firmware generator. -/
def ofFirmwareText (value : Text) : Option PackageDescription :=
  let self := appendShort ⟨[], []⟩ (value.takeWhile (· ≠ '\n'))
  if '\n' ∈ value then some (self.append ((value.dropWhile (· ≠ '\n')).drop 1)) else some self

/-- The wrapper of `__str__`. -/
def wrapper : TextWrapper := ⟨74, [], [], by decide, by decide⟩

/-- `__str__`. -/
def str (self : PackageDescription) : Text :=
  let longPars := self.long.map wrapper.wrap
  let long := ("\n .\n " : Text).intercalate (longPars.map ("\n " : Text).intercalate)
  (", " : Text).intercalate self.short ++ "\n " ++ long

/-- A description is written with all its visible characters, and a dot between paragraphs. -/
theorem visible_str (self : PackageDescription) : visible self.str =
    ([','] : Text).intercalate (self.short.map visible) ++
      (['.'] : Text).intercalate (self.long.map visible) := by
  have hwrap : ∀ t, visible (("\n " : Text).intercalate (wrapper.wrap t)) = visible t := by
    intro t
    have hblank : ∀ x ∈ wrapper.subsequentIndent, isSpace x = true := fun _ h =>
      absurd h List.not_mem_nil
    have hlines := TextWrapper.visible_wrap hblank t
    have hindent : visible wrapper.initialIndent = [] := rfl
    rw [hindent, ite_self, List.nil_append] at hlines
    rw [visible_intercalate, show visible "\n " = [] from rfl, intercalate_nil, ← hlines]
    exact (List.filter_flatten ..).symm
  have hlong : ((self.long.map wrapper.wrap).map ("\n " : Text).intercalate).map visible =
      self.long.map visible := by
    rw [List.map_map, List.map_map]
    exact List.map_congr_left fun t _ => hwrap t
  rw [str, visible_append, visible_append, visible_intercalate, visible_intercalate, hlong]
  show _ ++ [] ++ _ = _
  rw [List.append_nil]
  rfl

end PackageDescription

namespace Control

/-! ## The values of a stanza -/

/-- The classes of fields. -/
inductive FieldClass
  | text | architecture | relation | description
  deriving DecidableEq, Repr

inductive FieldValue
  | text (value : Text)
  | architecture (value : PackageArchitecture)
  | relation (value : PackageRelation)
  | description (value : PackageDescription)

/-- `cls(value)`. The class of descriptions is a parameter: the firmware generator puts its own
in the place of the one that `debian_linux.debian` has. -/
def FieldClass.make (describe : Text → Option PackageDescription) (value : Text) :
    FieldClass → Option FieldValue
  | .text => some (.text value)
  | .architecture => some (.architecture (PackageArchitecture.ofText value))
  | .relation => (PackageRelation.ofText value).map .relation
  | .description => (describe value).map .description

/-- `Package._fields`. -/
def packageFields : List (Text × FieldClass) :=
  [("Package", .text), ("Source", .text), ("Architecture", .architecture), ("Section", .text),
   ("Priority", .text), ("Maintainer", .text), ("Uploaders", .text), ("Standards-Version", .text),
   ("Build-Depends", .relation), ("Build-Depends-Indep", .relation), ("Provides", .relation),
   ("Pre-Depends", .relation), ("Depends", .relation), ("Recommends", .relation),
   ("Suggests", .relation), ("Replaces", .relation), ("Breaks", .relation),
   ("Conflicts", .relation), ("Description", .description)]

/-- `Template._fields`. -/
def templateFields : List (Text × FieldClass) :=
  [("Template", .text), ("Type", .text), ("Default", .text), ("Description", .description)]

/-- A value of a stanza, with the text of which it was made. -/
structure Value where
  text : Text
  value : FieldValue

abbrev Stanza := OrderedDict Text Value

/-- What `__setitem__` makes of a value. A field without a class keeps the text. -/
def setItem (fields : List (Text × FieldClass)) (describe : Text → Option PackageDescription)
    (key value : Text) : Option Value :=
  match fields.find? (·.1 = key) with
  | some (_, cls) => (cls.make describe value).map fun v => ⟨value, v⟩
  | none => some ⟨value, .text value⟩

/-! ## Lines -/

/-- The characters at which a decoded text is cut in lines. -/
def isLineEnd (c : Char) : Bool :=
  c = '\n' ∨ c = '\r' ∨ c = '\x0b' ∨ c = '\x0c' ∨ c = '\x1c' ∨ c = '\x1d' ∨ c = '\x1e' ∨
    c = '\u0085' ∨ c = '\u2028' ∨ c = '\u2029'

/-- What `f.readline()` returns in turn, for a file that `codecs.open` decodes. -/
def readlines : Text → List Text
  | [] => []
  | '\r' :: '\n' :: t => ['\r', '\n'] :: readlines t
  | c :: t =>
    if isLineEnd c then [c] :: readlines t
    else match readlines t with
      | [] => [[c]]
      | l :: ls => (c :: l) :: ls

/-- `line.strip('\n')`. -/
def stripNewlines (line : Text) : Text := (line.dropWhile (· = '\n')).rdropWhile (· = '\n')

/-- `line[0] in ' \t'`. -/
def isContinuation (line : Text) : Bool := line.head? = some ' ' ∨ line.head? = some '\t'

/-- `line[:i]`, where the colon is. -/
def keyOf (line : Text) : Text := line.takeWhile (· ≠ ':')

/-- `line[i + 1:].lstrip()`. -/
def valueOf (line : Text) : Text := ((line.dropWhile (· ≠ ':')).drop 1).dropWhile isSpace

/-! ## The two readers -/

/-- The variables of the inner loops. No last header is the empty name, which the loops take for
none. -/
structure Reading where
  e : Stanza
  last : Text
  lines : List Text

def Reading.new : Reading := ⟨.empty, [], []⟩

section

variable (cls : Text → Text → Option Value)

/-- `if last: e[last] = '\n'.join(lines)`. -/
def store (r : Reading) : Option Stanza :=
  if r.last = [] then some r.e
  else (cls r.last (['\n'].intercalate r.lines)).map fun v => r.e.set r.last v

/-- A line that is not empty. -/
def step (r : Reading) (line : Text) : Option Reading :=
  if isContinuation line then
    if r.last = [] then none else some { r with lines := r.lines ++ [line.dropWhile isSpace] }
  else
    (store cls r).bind fun e =>
      if ':' ∈ line then some { e := e, last := keyOf line, lines := [valueOf line] } else none

/-- The loops of `read_control`, from within the inner one. -/
def readControlLoop : Reading → List Text → Option (List Stanza)
  | r, [] => (store cls r).map fun e => if e.entries = [] then [] else [e]
  | r, line :: f =>
    if stripNewlines line = [] then
      (store cls r).bind fun e =>
        (readControlLoop .new f).map fun entries => if e.entries = [] then entries else e :: entries
    else (step cls r (stripNewlines line)).bind fun r => readControlLoop r f

/-- The loops of `_read_templates`, from within the inner one. At the end of the file the outer
one reads an empty stanza more. -/
def readTemplatesLoop : Reading → List Text → Option (List Stanza)
  | r, [] => (store cls r).map fun e => if e.entries = [] then [] else [e]
  | r, line :: f =>
    if stripNewlines line = [] then
      (store cls r).bind fun e =>
        if e.entries = [] then some []
        else (readTemplatesLoop .new f).map fun entries => e :: entries
    else (step cls r (stripNewlines line)).bind fun r => readTemplatesLoop r f

end

end Control

open Control

/-- `read_control`. -/
def readControl (describe : Text → Option PackageDescription) (f : Text) : Option (List Stanza) :=
  readControlLoop (setItem packageFields describe) .new (readlines f)

/-- `_read_templates`. -/
def readTemplates (f : Text) : Option (List Stanza) :=
  readTemplatesLoop (setItem templateFields PackageDescription.ofFirmwareText) .new (readlines f)

namespace Control

/-! ## The stanzas of a file -/

/-- The lines between blank lines. -/
def blocks (ls : List Text) : List (List Text) := (ls.map stripNewlines).splitOnP (· = [])

/-- The lines that go on with the field before, and the fields behind them. -/
def scan : List Text → Option (List Text × List (Text × Text))
  | [] => some ([], [])
  | line :: b =>
    (scan b).bind fun (more, fields) =>
      if isContinuation line then some (line.dropWhile isSpace :: more, fields)
      else if ':' ∉ line then none
      else if keyOf line = [] then if more = [] then some ([], fields) else none
      else some ([], (keyOf line, ['\n'].intercalate (valueOf line :: more)) :: fields)

/-- The fields of a block of lines: the names and the joined values. A line that is neither a
header nor goes on with one is an error, and a header without a name has nothing. -/
def fieldsOf (b : List Text) : Option (List (Text × Text)) :=
  (scan b).bind fun (more, fields) => if more = [] then some fields else none

def hasFields (b : List Text) : Bool := (fieldsOf b).any (· ≠ [])

/-- The blocks before the first one without fields. -/
def front (bs : List (List Text)) : List (List Text) := bs.takeWhile hasFields

def behind (bs : List (List Text)) : List (List Text) := bs.dropWhile hasFields

/-- The names and the joined values of a stanza. -/
def joined (e : Stanza) : List (Text × Text) := e.entries.map fun p => (p.1, p.2.text)

/-- The first block without fields is an error, or all the fields stand before it and each has a
value of its class. -/
def FieldsInFront (cls : Text → Text → Option Value) (bs : List (List Text)) : Prop :=
  (∃ b ∈ (behind bs).head?, fieldsOf b = none) ∨
    ((∀ b ∈ behind bs, fieldsOf b = some []) ∧
      ∀ b ∈ front bs, ∀ fields ∈ fieldsOf b, ∀ p ∈ fields, (cls p.1 p.2).isSome = true)

/-- No line is empty, so the end of the file is the end of the list. -/
theorem readlines_spec (f : Text) : (readlines f).flatten = f ∧ ∀ l ∈ readlines f, l ≠ [] := by
  fun_induction readlines f with
  | case1 => exact ⟨rfl, nofun⟩
  | case2 t ih =>
    exact ⟨by rw [List.flatten_cons, ih.1]; rfl,
      List.forall_mem_cons.mpr ⟨List.cons_ne_nil _ _, ih.2⟩⟩
  | case3 c t _ hc ih =>
    exact ⟨by rw [List.flatten_cons, ih.1]; rfl,
      List.forall_mem_cons.mpr ⟨List.cons_ne_nil _ _, ih.2⟩⟩
  | case4 c t _ hc hls ih =>
    rw [hls] at ih
    exact ⟨by rw [← ih.1]; rfl, List.forall_mem_cons.mpr ⟨List.cons_ne_nil _ _, nofun⟩⟩
  | case5 c t _ hc l ls hls ih =>
    rw [hls] at ih
    exact ⟨by rw [← ih.1]; rfl, List.forall_mem_cons.mpr
      ⟨List.cons_ne_nil _ _, (List.forall_mem_cons.mp ih.2).2⟩⟩

/-! ## A block -/

section

variable {cls : Text → Text → Option Value}

/-- The assignments to a stanza. -/
def assign (cls : Text → Text → Option Value) (e : Stanza) (fields : List (Text × Text)) :
    Option Stanza :=
  fields.foldlM (fun e p => (cls p.1 p.2).map fun v => e.set p.1 v) e

theorem assign_cons (e : Stanza) (p : Text × Text) (fields : List (Text × Text)) :
    assign cls e (p :: fields) = (cls p.1 p.2).bind fun v => assign cls (e.set p.1 v) fields := by
  rw [assign, List.foldlM_cons]
  cases cls p.1 p.2 <;> rfl

def readStanza (cls : Text → Text → Option Value) (b : List Text) : Option Stanza :=
  (b.foldlM (step cls) .new).bind (store cls)

/-- The assignments of what is left of a block, from within it. -/
def assignRest (cls : Text → Text → Option Value) (r : Reading) (more : List Text)
    (fields : List (Text × Text)) : Option Stanza :=
  if r.last = [] then if more = [] then assign cls r.e fields else none
  else assign cls r.e ((r.last, ['\n'].intercalate (r.lines ++ more)) :: fields)

theorem assignRest_continuation (r : Reading) (l : Text) (more : List Text)
    (fields : List (Text × Text)) : assignRest cls r (l :: more) fields =
      if r.last = [] then none
      else assignRest cls { r with lines := r.lines ++ [l] } more fields := by
  unfold assignRest
  split
  · rw [if_neg (List.cons_ne_nil _ _)]
  · rw [List.append_assoc, List.singleton_append]

theorem assignRest_store (r : Reading) (fields : List (Text × Text)) :
    assignRest cls r [] fields = (store cls r).bind fun e => assign cls e fields := by
  unfold assignRest store
  split
  · rw [if_pos rfl, Option.bind_some]
  · rw [List.append_nil, assign_cons, Option.bind_map]
    rfl

/-- A header, read from within the block. -/
theorem assignRest_header (r : Reading) (key value : Text) (more : List Text)
    (fields : List (Text × Text)) :
    ((store cls r).bind fun e => assignRest cls ⟨e, key, [value]⟩ more fields) =
      if key = [] then if more = [] then assignRest cls r [] fields else none
      else assignRest cls r [] ((key, ['\n'].intercalate (value :: more)) :: fields) := by
  rw [assignRest_store, assignRest_store]
  unfold assignRest
  by_cases hkey : key = []
  · by_cases hmore : more = []
    · simp only [hkey, hmore, if_true]
    · simp only [hkey, hmore, if_true, if_false]
      cases store cls r <;> rfl
  · simp only [hkey, if_false]
    rfl

theorem foldlM_step (b : List Text) (r : Reading) :
    (b.foldlM (step cls) r).bind (store cls) =
      (scan b).bind fun p => assignRest cls r p.1 p.2 := by
  induction b generalizing r with
  | nil =>
    rw [scan, Option.bind_some, assignRest_store, List.foldlM_nil]
    cases hr : store cls r with
    | none => exact hr
    | some e => exact hr
  | cons line b ih =>
    have hstep : ((line :: b).foldlM (step cls) r).bind (store cls) =
        (step cls r line).bind fun r => (scan b).bind fun p => assignRest cls r p.1 p.2 := by
      rw [List.foldlM_cons, ← funext ih]
      exact Option.bind_assoc _ _ _
    rw [hstep, scan]
    cases scan b with
    | none => cases step cls r line <;> rfl
    | some p =>
      obtain ⟨more, fields⟩ := p
      rw [Option.bind_some, step]
      dsimp only [Option.bind_some]
      by_cases hcont : isContinuation line = true
      · rw [if_pos hcont, if_pos hcont, Option.bind_some, assignRest_continuation]
        split <;> rfl
      · rw [if_neg hcont, if_neg hcont, Option.bind_assoc]
        by_cases hcolon : ':' ∈ line
        · rw [if_neg (not_not.mpr hcolon)]
          simp only [hcolon, if_true, Option.bind_some]
          rw [assignRest_header]
          split
          · split <;> rfl
          · rfl
        · rw [if_pos hcolon]
          simp only [hcolon, if_false]
          cases store cls r <;> rfl

/-- A stanza has the fields of its block. -/
theorem readStanza_eq (b : List Text) :
    readStanza cls b = (fieldsOf b).bind (assign cls .empty) := by
  rw [readStanza, foldlM_step, fieldsOf, Option.bind_assoc]
  congr 1
  funext ⟨more, fields⟩
  change (if more = [] then assign cls .empty fields else none) =
    (if more = [] then some fields else none).bind (assign cls .empty)
  split <;> rfl

/-! ## Block by block -/

theorem blocks_nil : blocks [] = [[]] := rfl

theorem blocks_blank {line : Text} (h : stripNewlines line = []) (ls : List Text) :
    blocks (line :: ls) = [] :: blocks ls := by
  rw [blocks, List.map_cons, List.splitOnP_cons_eq_if_modifyHead, if_pos (decide_eq_true h)]
  rfl

theorem blocks_line {line : Text} (h : stripNewlines line ≠ []) (ls : List Text) :
    blocks (line :: ls) = (blocks ls).modifyHead (stripNewlines line :: ·) := by
  rw [blocks, List.map_cons, List.splitOnP_cons_eq_if_modifyHead, if_neg (by simpa using h)]
  rfl

theorem exists_blocks (ls : List Text) : ∃ b bs, blocks ls = b :: bs :=
  List.exists_cons_of_ne_nil (List.splitOnP_ne_nil _ _)

/-- The stanzas of all blocks that have fields. -/
def stanzas (cls : Text → Text → Option Value) (bs : List (List Text)) : Option (List Stanza) :=
  (bs.mapM (readStanza cls)).map fun es => es.filter (·.entries ≠ [])

theorem filter_fields (e : Stanza) (es : List Stanza) :
    (e :: es).filter (·.entries ≠ []) =
      if e.entries = [] then es.filter (·.entries ≠ []) else e :: es.filter (·.entries ≠ []) := by
  by_cases h : e.entries = []
  · rw [if_pos h, List.filter_cons_of_neg (by simpa using h)]
  · rw [if_neg h, List.filter_cons_of_pos (by simpa using h)]

theorem stanzas_cons (b : List Text) (bs : List (List Text)) : stanzas cls (b :: bs) =
    (readStanza cls b).bind fun e =>
      (stanzas cls bs).map fun es => if e.entries = [] then es else e :: es := by
  rw [stanzas, List.mapM_cons, stanzas]
  change ((readStanza cls b).bind _).map _ = _
  cases readStanza cls b with
  | none => rfl
  | some e =>
    cases hes : bs.mapM (readStanza cls) with
    | none => rfl
    | some es => exact congrArg some (filter_fields e es)

/-- From within the first block. -/
theorem readControlLoop_eq (ls : List Text) (r : Reading) {b : List Text} {bs : List (List Text)}
    (h : blocks ls = b :: bs) :
    readControlLoop cls r ls = ((b.foldlM (step cls) r).bind (store cls)).bind fun e =>
      (stanzas cls bs).map fun es => if e.entries = [] then es else e :: es := by
  induction ls generalizing r b bs with
  | nil =>
    rw [blocks_nil] at h
    obtain ⟨rfl, rfl⟩ := List.cons.inj h
    rw [readControlLoop, List.foldlM_nil, Option.pure_def, Option.bind_some]
    cases store cls r with
    | none => rfl
    | some e => rfl
  | cons line ls ih =>
    obtain ⟨b', bs', hbs⟩ := exists_blocks ls
    rw [readControlLoop]
    split
    · next hblank =>
      rw [blocks_blank hblank, hbs] at h
      obtain ⟨rfl, rfl⟩ := List.cons.inj h
      rw [ih .new hbs, List.foldlM_nil, Option.pure_def, Option.bind_some, stanzas_cons]
      rfl
    · next hline =>
      rw [blocks_line hline, hbs, List.modifyHead_cons] at h
      obtain ⟨rfl, rfl⟩ := List.cons.inj h
      rw [List.foldlM_cons]
      cases step cls r (stripNewlines line) with
      | none => rfl
      | some r' => exact ih r' hbs

/-- The stanzas before the first one that is empty. -/
def stanzasInFront (cls : Text → Text → Option Value) : List (List Text) → Option (List Stanza)
  | [] => some []
  | b :: bs =>
    (readStanza cls b).bind fun e =>
      if e.entries = [] then some [] else (stanzasInFront cls bs).map (e :: ·)

theorem readTemplatesLoop_eq (ls : List Text) (r : Reading) {b : List Text} {bs : List (List Text)}
    (h : blocks ls = b :: bs) :
    readTemplatesLoop cls r ls = ((b.foldlM (step cls) r).bind (store cls)).bind fun e =>
      if e.entries = [] then some [] else (stanzasInFront cls bs).map (e :: ·) := by
  induction ls generalizing r b bs with
  | nil =>
    rw [blocks_nil] at h
    obtain ⟨rfl, rfl⟩ := List.cons.inj h
    rw [readTemplatesLoop, List.foldlM_nil, Option.pure_def, Option.bind_some]
    cases store cls r with
    | none => rfl
    | some e =>
      rw [Option.map_some, Option.bind_some, stanzasInFront]
      split <;> rfl
  | cons line ls ih =>
    obtain ⟨b', bs', hbs⟩ := exists_blocks ls
    rw [readTemplatesLoop]
    split
    · next hblank =>
      rw [blocks_blank hblank, hbs] at h
      obtain ⟨rfl, rfl⟩ := List.cons.inj h
      rw [ih .new hbs, List.foldlM_nil, Option.pure_def, Option.bind_some, stanzasInFront]
      rfl
    · next hline =>
      rw [blocks_line hline, hbs, List.modifyHead_cons] at h
      obtain ⟨rfl, rfl⟩ := List.cons.inj h
      rw [List.foldlM_cons]
      cases step cls r (stripNewlines line) with
      | none => rfl
      | some r' => exact ih r' hbs

/-- `read_control` returns the stanzas of all blocks that have fields. -/
theorem readControl_blocks (ls : List Text) :
    readControlLoop cls .new ls = stanzas cls (blocks ls) := by
  obtain ⟨b, bs, h⟩ := exists_blocks ls
  rw [readControlLoop_eq ls .new h, h, stanzas_cons]
  rfl

/-- `_read_templates` returns those of the blocks before the first one without. -/
theorem readTemplates_blocks (ls : List Text) :
    readTemplatesLoop cls .new ls = stanzasInFront cls (blocks ls) := by
  obtain ⟨b, bs, h⟩ := exists_blocks ls
  rw [readTemplatesLoop_eq ls .new h, h, stanzasInFront]
  rfl

/-! ## The two readers compared -/

/-- The names and the joined values after some assignments. -/
def joinedFields (fields : List (Text × Text)) : List (Text × Text) :=
  fields.foldl (fun l p => OrderedDict.setEntries p.1 p.2 l) []

theorem joined_set (e : Stanza) (key : Text) (v : Value) :
    joined (e.set key v) = OrderedDict.setEntries key v.text (joined e) := by
  obtain ⟨l, _⟩ := e
  change (OrderedDict.setEntries key v l).map _ = OrderedDict.setEntries key v.text (l.map _)
  clear * -
  induction l with
  | nil => rfl
  | cons p l ih =>
    rw [OrderedDict.setEntries, List.map_cons, OrderedDict.setEntries]
    by_cases hp : p.1 = key
    · rw [if_pos hp, if_pos hp]
      rfl
    · rw [if_neg hp, if_neg hp, List.map_cons, ih]

theorem setItem_text {fields : List (Text × FieldClass)}
    {describe : Text → Option PackageDescription} {key value : Text} {v : Value}
    (h : setItem fields describe key value = some v) : v.text = value := by
  unfold setItem at h
  split at h
  · obtain ⟨w, -, rfl⟩ := Option.map_eq_some_iff.mp h
    rfl
  · obtain rfl := Option.some.inj h
    rfl

/-- The values keep the texts that they are made of. -/
def KeepsText (cls : Text → Text → Option Value) : Prop :=
  ∀ key value v, cls key value = some v → v.text = value

theorem assign_joined (hcls : KeepsText cls) {fields : List (Text × Text)} {e : Stanza}
    (hvalid : ∀ p ∈ fields, (cls p.1 p.2).isSome = true) : ∃ e', assign cls e fields = some e' ∧
      joined e' = fields.foldl (fun l p => OrderedDict.setEntries p.1 p.2 l) (joined e) := by
  induction fields generalizing e with
  | nil => exact ⟨e, rfl, rfl⟩
  | cons p fields ih =>
    obtain ⟨hp, hvalid⟩ := List.forall_mem_cons.mp hvalid
    obtain ⟨v, hv⟩ := Option.isSome_iff_exists.mp hp
    rw [assign_cons, hv, Option.bind_some, List.foldl_cons, ← hcls p.1 p.2 v hv, ← joined_set]
    exact ih hvalid

theorem assign_none {fields : List (Text × Text)} {e : Stanza}
    (h : ¬ ∀ p ∈ fields, (cls p.1 p.2).isSome = true) : assign cls e fields = none := by
  induction fields generalizing e with
  | nil => exact absurd nofun h
  | cons p fields ih =>
    rw [assign_cons]
    cases hp : cls p.1 p.2 with
    | none => rfl
    | some v =>
      refine ih fun hvalid => h (List.forall_mem_cons.mpr ⟨?_, hvalid⟩)
      rw [hp]
      rfl

theorem joinedFields_eq_nil {fields : List (Text × Text)} :
    joinedFields fields = [] ↔ fields = [] := by
  have hne : ∀ (fields l : List (Text × Text)), l ≠ [] →
      fields.foldl (fun l p => OrderedDict.setEntries p.1 p.2 l) l ≠ [] := by
    intro fields
    induction fields with
    | nil => exact fun l h => h
    | cons p fields ih =>
      intro l _
      refine ih _ fun hnil => ?_
      have hlookup := OrderedDict.lookup_setEntries_self p.1 p.2 l
      dsimp only at hnil
      rw [hnil] at hlookup
      cases hlookup
  cases fields with
  | nil => exact ⟨fun _ => rfl, fun _ => rfl⟩
  | cons p fields =>
    exact ⟨fun h => absurd h (hne fields _ (List.cons_ne_nil _ _)), fun h => by cases h⟩

/-- A block whose values are right. -/
theorem readStanza_valid (hcls : KeepsText cls) {b : List Text} {fields : List (Text × Text)}
    (hb : fieldsOf b = some fields) (hvalid : ∀ p ∈ fields, (cls p.1 p.2).isSome = true) :
    ∃ e, readStanza cls b = some e ∧ joined e = joinedFields fields ∧
      (e.entries = [] ↔ fields = []) := by
  obtain ⟨e, he, hjoined⟩ := assign_joined hcls hvalid (e := .empty)
  refine ⟨e, by rw [readStanza_eq, hb, Option.bind_some, he], hjoined, ?_⟩
  rw [← joinedFields_eq_nil, joinedFields, ← List.map_eq_nil_iff (f := fun p => (p.1, p.2.text))]
  exact Eq.congr_left hjoined

theorem readStanza_error {b : List Text} (hb : fieldsOf b = none) : readStanza cls b = none := by
  rw [readStanza_eq, hb]
  rfl

theorem stanzas_eq_nil (hcls : KeepsText cls) (bs : List (List Text)) :
    stanzas cls bs = some [] ↔ ∀ b ∈ bs, fieldsOf b = some [] := by
  induction bs with
  | nil => exact ⟨fun _ => nofun, fun _ => rfl⟩
  | cons b bs ih =>
    rw [stanzas_cons, List.forall_mem_cons, ← ih]
    cases hb : fieldsOf b with
    | none =>
      rw [readStanza_error hb]
      exact ⟨nofun, fun h => by cases h.1⟩
    | some fields =>
      by_cases hvalid : ∀ p ∈ fields, (cls p.1 p.2).isSome = true
      · obtain ⟨e, he, -, hempty⟩ := readStanza_valid hcls hb hvalid
        rw [he, Option.bind_some, Option.map_eq_some_iff, Option.some_inj, ← hempty]
        constructor
        · rintro ⟨es, hes, h⟩
          split at h
          · next h' =>
            rw [h] at hes
            exact ⟨h', hes⟩
          · cases h
        · rintro ⟨h, hes⟩
          exact ⟨[], hes, if_pos h⟩
      · rw [readStanza_eq, hb, Option.bind_some, assign_none hvalid]
        refine ⟨nofun, fun h => absurd ?_ hvalid⟩
        rw [Option.some.inj h.1]
        exact nofun

/-- A reader without faulty values fails at the first block without fields, if that is an
error. -/
theorem stanzasInFront_eq_none (hcls : KeepsText cls)
    (htotal : ∀ key value, (cls key value).isSome = true) (bs : List (List Text)) :
    stanzasInFront cls bs = none ↔ ∃ b ∈ (behind bs).head?, fieldsOf b = none := by
  induction bs with
  | nil => exact ⟨nofun, nofun⟩
  | cons b bs ih =>
    rw [stanzasInFront]
    cases hb : fieldsOf b with
    | none =>
      have hbehind : behind (b :: bs) = b :: bs :=
        List.dropWhile_cons_of_neg (by rw [hasFields, hb]; exact Bool.false_ne_true)
      rw [readStanza_error hb, hbehind]
      exact ⟨fun _ => ⟨b, rfl, hb⟩, fun _ => rfl⟩
    | some fields =>
      obtain ⟨e, he, -, hempty⟩ := readStanza_valid hcls hb fun p _ => htotal p.1 p.2
      rw [he, Option.bind_some]
      by_cases hnil : fields = []
      · have hbehind : behind (b :: bs) = b :: bs :=
          List.dropWhile_cons_of_neg (by simp [hasFields, hb, hnil])
        rw [if_pos (hempty.mpr hnil), hbehind]
        refine ⟨nofun, ?_⟩
        rintro ⟨b', hb', hnone⟩
        obtain rfl := Option.some.inj hb'
        rw [hb] at hnone
        cases hnone
      · have hbehind : behind (b :: bs) = behind bs :=
          List.dropWhile_cons_of_pos (by simp [hasFields, hb, hnil])
        rw [if_neg fun h => hnil (hempty.mp h), hbehind, Option.map_eq_none_iff, ih]

/-- Block by block: a block with fields goes to both results, the first one without ends one of
the two readers. -/
theorem same_stanzas_iff {other : Text → Text → Option Value} (hcls : KeepsText cls)
    (hother : KeepsText other) (htotal : ∀ key value, (other key value).isSome = true)
    (bs : List (List Text)) :
    (stanzasInFront other bs).map (·.map joined) = (stanzas cls bs).map (·.map joined) ↔
      FieldsInFront cls bs := by
  induction bs with
  | nil => exact ⟨fun _ => .inr ⟨nofun, nofun⟩, fun _ => rfl⟩
  | cons b bs ih =>
    cases hb : fieldsOf b with
    | none =>
      have hbehind : behind (b :: bs) = b :: bs :=
        List.dropWhile_cons_of_neg (by rw [hasFields, hb]; exact Bool.false_ne_true)
      refine ⟨fun _ => .inl ⟨b, by rw [hbehind]; rfl, hb⟩, fun _ => ?_⟩
      rw [stanzasInFront, stanzas_cons, readStanza_error hb, readStanza_error hb]
      rfl
    | some fields =>
      by_cases hnil : fields = []
      · have hno : hasFields b = false := by simp [hasFields, hb, hnil]
        have hbehind : behind (b :: bs) = b :: bs :=
          List.dropWhile_cons_of_neg (by rw [hno]; exact Bool.false_ne_true)
        have hfront : front (b :: bs) = [] :=
          List.takeWhile_cons_of_neg (by rw [hno]; exact Bool.false_ne_true)
        have hstop : stanzasInFront other (b :: bs) = some [] := by
          obtain ⟨e, he, -, hempty⟩ := readStanza_valid hother hb fun p _ => htotal p.1 p.2
          rw [stanzasInFront, he, Option.bind_some, if_pos (hempty.mpr hnil)]
        rw [FieldsInFront, hbehind, hfront, hstop, ← stanzas_eq_nil hcls]
        constructor
        · intro h
          refine .inr ⟨?_, nofun⟩
          obtain ⟨es, hes, hmap⟩ := Option.map_eq_some_iff.mp h.symm
          rw [hes, List.map_eq_nil_iff.mp hmap]
        · rintro (⟨b', hb', hnone⟩ | ⟨h, -⟩)
          · obtain rfl := Option.some.inj hb'
            rw [hb] at hnone
            cases hnone
          · rw [h]
      · have hyes : hasFields b = true := by simp [hasFields, hb, hnil]
        have hbehind : behind (b :: bs) = behind bs := List.dropWhile_cons_of_pos hyes
        have hfront : front (b :: bs) = b :: front bs := List.takeWhile_cons_of_pos hyes
        obtain ⟨e, he, hjoined, hempty⟩ := readStanza_valid hother hb fun p _ => htotal p.1 p.2
        have hgo : stanzasInFront other (b :: bs) = (stanzasInFront other bs).map (e :: ·) := by
          rw [stanzasInFront, he, Option.bind_some, if_neg fun h => hnil (hempty.mp h)]
        rw [FieldsInFront, hbehind, hfront, hgo, List.forall_mem_cons, hb]
        by_cases hvalid : ∀ p ∈ fields, (cls p.1 p.2).isSome = true
        · obtain ⟨e', he', hjoined', hempty'⟩ := readStanza_valid hcls hb hvalid
          have hcontrol : stanzas cls (b :: bs) = (stanzas cls bs).map (e' :: ·) := by
            rw [stanzas_cons, he', Option.bind_some]
            simp only [mt hempty'.mp hnil, if_false]
          have hcons : ∀ (e : Stanza) (o : Option (List Stanza)),
              (o.map (e :: ·)).map (·.map joined) = (o.map (·.map joined)).map (joined e :: ·) := by
            intro e o
            rw [Option.map_map, Option.map_map]
            rfl
          rw [hcontrol, hcons, hcons, hjoined, hjoined',
            (Option.map_injective List.cons_injective).eq_iff, ih, FieldsInFront]
          refine or_congr_right (and_congr_right fun _ => (and_iff_right ?_).symm)
          intro fields' hfields
          obtain rfl := Option.some.inj hfields
          exact hvalid
        · have hcontrol : stanzas cls (b :: bs) = none := by
            rw [stanzas_cons, readStanza_eq, hb, Option.bind_some, assign_none hvalid]
            rfl
          rw [hcontrol, Option.map_none, Option.map_eq_none_iff, Option.map_eq_none_iff,
            stanzasInFront_eq_none hother htotal]
          exact (or_iff_left fun h => hvalid (h.2.1 fields rfl)).symm

/-- Templates have no value that is wrong. -/
theorem template_total (key value : Text) :
    (setItem templateFields PackageDescription.ofFirmwareText key value).isSome = true := by
  have hclasses : ∀ p ∈ templateFields, p.2 = .text ∨ p.2 = .description := by decide
  unfold setItem
  cases hfind : templateFields.find? (·.1 = key) with
  | none => rfl
  | some p =>
    obtain ⟨name, cls⟩ := p
    rcases hclasses _ (List.mem_of_find?_eq_some hfind) with hcls | hcls
    · obtain rfl : cls = .text := hcls
      rfl
    · obtain rfl : cls = .description := hcls
      dsimp only [FieldClass.make, PackageDescription.ofFirmwareText]
      split <;> rfl

end

end Control

open Control

end DebianKernel.Debian
