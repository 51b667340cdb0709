import DebianKernel.Lib.Lines
import DebianKernel.Lib.Pattern
import Mathlib.Logic.Function.Basic

/-!
# The WHENCE reader

`FirmwareWhence.read` goes through the lines of a WHENCE file. A group of fields ends at a
blank line, and a section at a dashed line.

Results:
1. `read_section`: what the lines of a section do, group by group.
2. `read_whence`: the files of all sections, with the lines that are carried into the next.
3. `recorded_eq_iff`: when a section records its own groups.
4. `whence_attributed_iff`: the texts whose files are attributed to their own sections.
-/

namespace DebianKernel.Debian

open Text Pattern

/-! ## The reader -/

structure FirmwareFile where
  binary : Text
  desc : Option Text
  source : List Text
  version : Option Text

/-- `files`. -/
abbrev FirmwareFiles := Text → Option FirmwareFile

structure FirmwareSection where
  driver : Text
  files : FirmwareFiles
  licence : Option Text

inductive Keyword
  | driver | file | info | licence | source | version
deriving DecidableEq

/-- The keywords, in the order of the alternatives. -/
def keywordRe : Pattern Keyword :=
  alt (do lit "Driver"; pure .driver)
  (alt (do lit "File"; pure .file)
  (alt (do lit "Info"; pure .info)
  (alt (do lit "Licen"; let _ ← one fun c => c = 'c' ∨ c = 's'; lit "e"; pure .licence)
  (alt (do lit "Source"; pure .source)
  (alt (do lit "Version"; pure .version)
  (do
    lit "Original licen"
    let _ ← one fun c => c = 'c' ∨ c = 's'
    lit "e info"
    let _ ← opt (lit "rmation")
    pure .licence))))))

/-- The expression for a field. -/
def fieldRe : Pattern (Keyword × Text) := do
  let keyword ← keywordRe
  lit ":"
  let _ ← run isSpace
  let value ← run (· ≠ '\n')
  lit "\n"
  pure (keyword, value)

def field (line : Text) : Option (Keyword × Text) := (first fieldRe line).map (·.1)

/-- `(\S+)(?:\s+--\s+(.*))?`. -/
def fileRe : Pattern (Text × Option Text) := do
  let binary ← run1 (!isSpace ·)
  let desc ← opt (do
    let _ ← run1 isSpace
    lit "--"
    let _ ← run1 isSpace
    run (· ≠ '\n'))
  pure (binary, desc)

/-- The name and the description in a `File` field. `none` when there is no name. -/
def fileValue (value : Text) : Option (Text × Option Text) := (first fileRe value).map (·.1)

/-- `value.split(' ')[0].lower()`. -/
def driverValue (value : Text) : Text := (value.takeWhile (· ≠ ' ')).map Char.toLower

/-- `re.sub(r'^(?:[/ ]\*| \*/)?\s*(.*?)\s*$', r'\1', line)`: a comment mark and the blanks at
both ends go away. The second alternative is never needed. -/
def licenceLine (line : Text) : Text :=
  strip (if ("/*" : Text).isPrefixOf line ∨ (" *" : Text).isPrefixOf line then line.drop 2
    else line)

/-- The local variables of `read`. -/
structure ReadState where
  inHeader : Bool
  sections : List FirmwareSection
  driver : Option Text
  files : FirmwareFiles
  licence : Option Text
  binary : List Text
  desc : Option Text
  source : List Text
  version : Option Text

namespace ReadState

def init : ReadState := ⟨true, [], none, fun _ => none, none, [], none, [], none⟩

/-- `for b in binary: files[b] = ...`. -/
def flush (s : ReadState) : ReadState :=
  { s with files := s.binary.foldl (fun files b =>
      Function.update files b (some ⟨b, s.desc, s.source, s.version⟩)) s.files }

/-- `if driver: self.append(...)`. -/
def finish (s : ReadState) : ReadState :=
  match s.driver with
  | some driver =>
    if driver = [] then s
    else { s with sections := s.sections ++ [⟨driver, s.files, s.licence⟩] }
  | none => s

end ReadState

def isSeparator (line : Text) : Bool := ("----------" : Text).isPrefixOf line

def isBlank (line : Text) : Bool := line = "\n"

/-- A line with a keyword. -/
def readField (s : ReadState) (keyword : Keyword) (value : Text) : Option ReadState :=
  match keyword with
  | .driver => some { s with driver := some (driverValue value) }
  | .file => (fileValue value).map fun (binary, desc) =>
    { s with binary := s.binary ++ [binary], desc := desc }
  | .info | .version => some { s with version := some value }
  | .source => some { s with source := s.source ++ [value] }
  | .licence => some { s with licence := some value }

/-- The body of the loop. `none` when it raises. -/
def readLine (s : ReadState) (line : Text) : Option ReadState :=
  if isSeparator line then
    if s.inHeader then some { s with inHeader := false }
    else some { s.finish with driver := none, files := fun _ => none, licence := none }
  else if s.inHeader then some s
  else if isBlank line then
    some { s.flush with binary := [], desc := none, source := [], version := none }
  else match field line with
    | some (keyword, value) => readField s keyword value
    | none => some { s with licence := s.licence.map fun l => l ++ ['\n'] ++ licenceLine line }

/-- `FirmwareWhence.read`. -/
def readWhence (text : Text) : Option (List FirmwareSection) :=
  ((lines text).foldlM readLine .init).map fun s => s.flush.finish.sections

/-! ## What is expected -/

/-- Lines without a blank one among them. -/
abbrev Group := List Text

/-- The values of the fields with a keyword. -/
def fieldValues (keywords : List Keyword) (g : Group) : List Text :=
  g.filterMap fun line => (field line).bind fun p =>
    if keywords.contains p.1 then some p.2 else none

/-- The files of a group. -/
def groupFiles (g : Group) : List (Text × Option Text) :=
  (fieldValues [.file] g).filterMap fileValue

def groupNames (g : Group) : List Text := (groupFiles g).map (·.1)

/-- The description in the last `File` field, which may have none. -/
def lastFileDesc (g : Group) : Option Text := (groupFiles g).getLast?.bind (·.2)

/-- The last description that a `File` field of the group has. -/
def lastDesc (g : Group) : Option Text := ((groupFiles g).filterMap (·.2)).getLast?

/-- What a group says of its files, when that is its description. -/
def groupFile (descOf : Group → Option Text) (g : Group) (binary : Text) : FirmwareFile :=
  ⟨binary, descOf g, fieldValues [.source] g, (fieldValues [.info, .version] g).getLast?⟩

/-- The last of the groups that names a file. -/
def lastNaming (binary : Text) (groups : List Group) : Option Group :=
  groups.reverse.find? fun g => (groupNames g).contains binary

/-- The files of a list of groups. -/
def recorded (descOf : Group → Option Text) (groups : List Group) : FirmwareFiles := fun binary =>
  (lastNaming binary groups).map fun g => groupFile descOf g binary

/-- The sections behind the header. -/
def whenceSections (text : Text) : List (List Text) := ((lines text).splitOnP isSeparator).tail

def groups (lines : List Text) : List Group := lines.splitOnP isBlank

def HasDriver (lines : List Text) : Prop := fieldValues [.driver] lines ≠ []

instance (lines : List Text) : Decidable (HasDriver lines) :=
  inferInstanceAs (Decidable (fieldValues [.driver] lines ≠ []))

/-- Every File and Driver field names something. -/
def Named (text : Text) : Prop :=
  ∀ lines ∈ whenceSections text, ∀ line ∈ lines, ∀ keyword value,
    field line = some (keyword, value) → keyword = .driver ∨ keyword = .file → value ≠ []

instance (text : Text) : Decidable (Named text) :=
  decidable_of_iff (∀ lines ∈ whenceSections text, ∀ line ∈ lines, ∀ p ∈ field line,
      p.1 = .driver ∨ p.1 = .file → p.2 ≠ []) <| by
    simp [Named]

/-- The sections with a driver have the files of their own groups, with the description that
`descOf` reads in a group. -/
def Attributed (descOf : Group → Option Text) (text : Text) : Prop :=
  ∃ sections, readWhence text = some sections ∧
    sections.map (·.files) = ((whenceSections text).filter (HasDriver ·)).map fun lines =>
      recorded descOf (groups lines)

/-! ## When the files are attributed -/

/-- The first group with the lines that were carried into it. -/
def carry (carried : Group) : List Group → List Group
  | [] => []
  | g :: gs => (carried ++ g) :: gs

/-- The lines behind the last blank one, which a separator does not end. -/
def carriedOn (carried : Group) (lines : List Text) : Group :=
  (groups (carried ++ lines)).getLast?.getD []

/-- What a section needs whose groups are `own`, with `carried` in front of the first one and
`left` behind the last one, up to the next separator. -/
structure SectionSafe (descOf : Group → Option Text) (carried : Group) (own : List Group)
    (left : Group) : Prop where
  /-- A file that is named in what is left is named before, with the same data. -/
  leftNamed : ∀ binary ∈ groupNames left, ∃ g, lastNaming binary (carry carried own) = some g ∧
    groupFile lastFileDesc g binary = groupFile descOf left binary
  /-- A file that is named in what is carried is named in the section. -/
  carriedNamed : own ≠ [] → ∀ binary ∈ groupNames carried,
    (∃ g ∈ own, binary ∈ groupNames g) ∨ binary ∈ groupNames left
  /-- What is carried has no source and no new version for the files of the first group. -/
  firstPlain : ∀ g rest, own = g :: rest → ∀ binary ∈ groupNames g,
    (∀ g' ∈ rest, binary ∉ groupNames g') → binary ∉ groupNames left →
      fieldValues [.source] carried = [] ∧
        (fieldValues [.info, .version] g = [] → fieldValues [.info, .version] carried = [])
  /-- The description of a group is the one in its last `File` field. -/
  lastDescribed : ∀ binary g, lastNaming binary own = some g → binary ∉ groupNames left →
    lastFileDesc g = descOf g

/-- What the sections need, with the lines that are carried into the first one. -/
def WhenceSafe (descOf : Group → Option Text) : Group → List (List Text) → Prop
  | _, [] => True
  | carried, lines :: rest =>
    (HasDriver lines →
      if rest = [] then SectionSafe descOf carried (groups lines) []
      else SectionSafe descOf carried (groups lines).dropLast
        ((groups lines).getLast?.getD [])) ∧
    WhenceSafe descOf (carriedOn carried lines) rest

namespace FirmwareLemmas

/-! ## Fields -/

/-- A value that is not empty begins with a visible character. -/
theorem field_value_head {line value : Text} {keyword : Keyword}
    (h : field line = some (keyword, value)) : ∀ c ∈ value.head?, isSpace c = false := by
  obtain ⟨⟨p, rest⟩, hfirst, hp⟩ := Option.map_eq_some_iff.mp h
  obtain ⟨k, s₁, -, h₁⟩ := mem_first_bind hfirst
  obtain ⟨_, s₂, -, h₂⟩ := mem_first_bind h₁
  obtain ⟨w, s₃, hrun, h₃, hlonger⟩ := first_run_bind h₂
  obtain ⟨v, s₄, hv, h₄⟩ := mem_bind.mp (mem_of_first h₃)
  obtain ⟨_, s₅, hnewline, h₅⟩ := mem_bind.mp h₄
  obtain rfl : p = (k, v) := (mem_pure.mp h₅).1
  obtain rfl : v = value := (Prod.mk.inj hp).2
  obtain ⟨hs₃, hclass⟩ := mem_run.mp hv
  obtain ⟨hs₂, hblank⟩ := mem_run.mp hrun
  intro c hc
  cases v with
  | nil => cases hc
  | cons d t =>
    obtain rfl := Option.some.inj hc
    refine Bool.eq_false_iff.mpr fun hspace => ?_
    -- the blank would have been taken before
    have hmem : (w ++ [d], t ++ s₄) ∈ run isSpace s₂ := by
      refine mem_run.mpr ⟨by rw [hs₂, hs₃]; simp, fun e he => ?_⟩
      rcases List.mem_append.mp he with he | he
      · exact hblank e he
      · rw [List.mem_singleton.mp he]
        exact hspace
    have hempty := hlonger _ _ hmem (by simp)
    have hmatch : ((k, t), s₅) ∈ (do
        let value ← run (· ≠ '\n')
        lit "\n"
        pure (k, value)) (t ++ s₄) := by
      refine mem_bind.mpr ⟨t, s₄, mem_run.mpr ⟨rfl, fun e he => ?_⟩, ?_⟩
      · exact hclass e (List.mem_cons_of_mem _ he)
      · exact mem_bind.mpr ⟨(), s₅, hnewline, mem_pure.mpr ⟨rfl, rfl⟩⟩
    exact absurd (hempty ▸ hmatch) List.not_mem_nil

theorem fileValue_isSome {value : Text} (hne : value ≠ [])
    (hhead : ∀ c ∈ value.head?, isSpace c = false) : ∃ p, fileValue value = some p := by
  obtain ⟨c, t, rfl⟩ := List.exists_cons_of_ne_nil hne
  have hmem : ([c], t) ∈ run1 (!isSpace ·) (c :: t) := by
    refine mem_run1.mpr ⟨rfl, List.cons_ne_nil _ _, fun d hd => ?_⟩
    rw [List.mem_singleton.mp hd, hhead c rfl]
    rfl
  have hsome : (first fileRe (c :: t)).isSome = true := by
    refine first_isSome.mpr ⟨(([c], none), t), mem_bind.mpr ⟨[c], t, hmem, ?_⟩⟩
    exact mem_bind.mpr ⟨none, t, mem_opt.mpr (.inr ⟨rfl, rfl⟩), mem_pure.mpr ⟨rfl, rfl⟩⟩
  obtain ⟨p, hp⟩ := Option.isSome_iff_exists.mp hsome
  exact ⟨p.1, by rw [fileValue, hp]; rfl⟩

theorem driverValue_ne_nil {value : Text} (hne : value ≠ [])
    (hhead : ∀ c ∈ value.head?, isSpace c = false) : driverValue value ≠ [] := by
  obtain ⟨c, t, rfl⟩ := List.exists_cons_of_ne_nil hne
  have hc : c ≠ ' ' := by
    rintro rfl
    exact absurd (hhead ' ' rfl) (by decide)
  simp [driverValue, hc]

theorem fieldValues_append (keywords : List Keyword) (g g' : Group) :
    fieldValues keywords (g ++ g') = fieldValues keywords g ++ fieldValues keywords g' :=
  List.filterMap_append

theorem groupFiles_append (g g' : Group) :
    groupFiles (g ++ g') = groupFiles g ++ groupFiles g' := by
  rw [groupFiles, fieldValues_append, List.filterMap_append]
  rfl

theorem fieldValues_line (keywords : List Keyword) {line value : Text} {keyword : Keyword}
    (h : field line = some (keyword, value)) :
    fieldValues keywords [line] = if keywords.contains keyword then [value] else [] := by
  rw [fieldValues, List.filterMap_cons, h, Option.bind_some]
  split
  · next hnone =>
    rw [if_neg]
    · rfl
    · intro hc
      rw [if_pos hc] at hnone
      cases hnone
  · next v hv =>
    split at hv
    · next hc =>
      cases hv
      rw [if_pos hc]
      rfl
    · cases hv

theorem fieldValues_other (keywords : List Keyword) {line : Text} (h : field line = none) :
    fieldValues keywords [line] = [] := by
  rw [fieldValues, List.filterMap_cons, h]
  rfl

/-! ## The groups of a section -/

/-- The local variables hold the data of a group. -/
structure Pending (s : ReadState) (g : Group) : Prop where
  binary : s.binary = groupNames g
  desc : s.desc = lastFileDesc g
  source : s.source = fieldValues [.source] g
  version : s.version = (fieldValues [.info, .version] g).getLast?

/-- The files so far, with the files of more groups. -/
def record (files : FirmwareFiles) (gs : List Group) : FirmwareFiles := fun binary =>
  (recorded lastFileDesc gs binary).or (files binary)

/-- The driver of a section, when some of its lines were read. -/
def lastDriver (driver : Option Text) (lines : List Text) : Option Text :=
  ((fieldValues [.driver] lines).getLast?.map driverValue).or driver

theorem Pending.append {s s' : ReadState} {g : Group} {line : Text} (h : Pending s g)
    (hbinary : s'.binary = s.binary ++ groupNames [line])
    (hdesc : s'.desc = ((groupFiles [line]).getLast?.map (·.2)).getD s.desc)
    (hsource : s'.source = s.source ++ fieldValues [.source] [line])
    (hversion : s'.version = (fieldValues [.info, .version] [line]).getLast?.or s.version) :
    Pending s' (g ++ [line]) := by
  refine ⟨?_, ?_, ?_, ?_⟩
  · rw [hbinary, h.binary, groupNames, groupNames, groupNames, groupFiles_append, List.map_append]
  · rw [hdesc, h.desc, lastFileDesc, lastFileDesc, groupFiles_append, List.getLast?_append]
    cases (groupFiles [line]).getLast? <;> rfl
  · rw [hsource, h.source, fieldValues_append]
  · rw [hversion, h.version, fieldValues_append, List.getLast?_append]

/-- A field is added to the group. -/
theorem readLine_field {s : ReadState} {g : Group} {line : Text} (hheader : s.inHeader = false)
    (hpending : Pending s g) (hsep : isSeparator line = false) (hblank : isBlank line = false)
    (hnamed : ∀ keyword value, field line = some (keyword, value) →
      keyword = .driver ∨ keyword = .file → value ≠ []) :
    ∃ s', readLine s line = some s' ∧ s'.inHeader = false ∧ s'.sections = s.sections ∧
      s'.files = s.files ∧ Pending s' (g ++ [line]) ∧ s'.driver = lastDriver s.driver [line] := by
  rw [readLine, if_neg (by rw [hsep]; exact Bool.false_ne_true),
    if_neg (by rw [hheader]; exact Bool.false_ne_true),
    if_neg (by rw [hblank]; exact Bool.false_ne_true)]
  cases hfield : field line with
  | none =>
    have hnone := fun keywords => fieldValues_other keywords hfield
    refine ⟨_, rfl, hheader, rfl, rfl, hpending.append ?_ ?_ ?_ ?_, ?_⟩ <;>
      simp [groupNames, groupFiles, lastDriver, hnone]
  | some p =>
    obtain ⟨keyword, value⟩ := p
    have hvalues := fun keywords => fieldValues_line keywords hfield
    cases keyword with
    | file =>
      obtain ⟨p, hp⟩ := fileValue_isSome (hnamed _ _ hfield (.inr rfl)) (field_value_head hfield)
      refine ⟨{ s with binary := s.binary ++ [p.1], desc := p.2 }, ?_, hheader, rfl, rfl,
        hpending.append ?_ ?_ ?_ ?_, ?_⟩
      · show (fileValue value).map _ = _
        rw [hp]
        rfl
      all_goals simp [groupNames, groupFiles, lastDriver, hvalues, hp]
    | driver =>
      refine ⟨_, rfl, hheader, rfl, rfl, hpending.append ?_ ?_ ?_ ?_, ?_⟩ <;>
        simp [groupNames, groupFiles, lastDriver, hvalues]
    | info =>
      refine ⟨_, rfl, hheader, rfl, rfl, hpending.append ?_ ?_ ?_ ?_, ?_⟩ <;>
        simp [groupNames, groupFiles, lastDriver, hvalues]
    | licence =>
      refine ⟨_, rfl, hheader, rfl, rfl, hpending.append ?_ ?_ ?_ ?_, ?_⟩ <;>
        simp [groupNames, groupFiles, lastDriver, hvalues]
    | source =>
      refine ⟨_, rfl, hheader, rfl, rfl, hpending.append ?_ ?_ ?_ ?_, ?_⟩ <;>
        simp [groupNames, groupFiles, lastDriver, hvalues]
    | version =>
      refine ⟨_, rfl, hheader, rfl, rfl, hpending.append ?_ ?_ ?_ ?_, ?_⟩ <;>
        simp [groupNames, groupFiles, lastDriver, hvalues]

theorem lastNaming_singleton (binary : Text) (g : Group) :
    lastNaming binary [g] = if binary ∈ groupNames g then some g else none := by
  rw [lastNaming, List.reverse_singleton, List.find?_cons]
  split
  · next h => rw [if_pos (List.contains_iff_mem.mp h)]
  · next h =>
    rw [if_neg]
    · rfl
    · intro hmem
      rw [List.contains_iff_mem.mpr hmem] at h
      cases h

theorem lastNaming_append (binary : Text) (gs gs' : List Group) :
    lastNaming binary (gs ++ gs') = (lastNaming binary gs').or (lastNaming binary gs) := by
  rw [lastNaming, List.reverse_append, List.find?_append]
  rfl

theorem lastNaming_cons (binary : Text) (g : Group) (gs : List Group) :
    lastNaming binary (g :: gs) =
      (lastNaming binary gs).or (if binary ∈ groupNames g then some g else none) := by
  rw [← lastNaming_singleton]
  exact lastNaming_append binary [g] gs

/-- The files of a group are put in place of older ones. -/
theorem flush_files {s : ReadState} {g : Group} (h : Pending s g) :
    s.flush.files = record s.files [g] := by
  have hfold : ∀ (bs : List Text) (files : FirmwareFiles) (x : Text),
      bs.foldl (fun files b => Function.update files b
        (some (⟨b, s.desc, s.source, s.version⟩ : FirmwareFile))) files x =
      if x ∈ bs then some ⟨x, s.desc, s.source, s.version⟩ else files x := by
    intro bs
    induction bs with
    | nil => intro files x; rfl
    | cons b bs ih =>
      intro files x
      rw [List.foldl_cons, ih]
      rcases eq_or_ne x b with rfl | hne
      · simp
      · simp [hne]
  funext x
  rw [ReadState.flush]
  dsimp only
  rw [hfold, record, recorded, lastNaming_singleton, h.binary, h.desc, h.source, h.version]
  split <;> rfl

theorem record_append (files : FirmwareFiles) (gs gs' : List Group) :
    record (record files gs) gs' = record files (gs ++ gs') := by
  funext x
  rw [record, record, record, recorded, recorded, recorded, lastNaming_append]
  cases lastNaming x gs' <;> rfl

theorem record_none (gs : List Group) : record (fun _ => none) gs = recorded lastFileDesc gs := by
  funext x
  exact Option.or_none

theorem groups_ne_nil (lines : List Text) : groups lines ≠ [] := List.splitOnP_ne_nil _ _

theorem groups_blank {line : Text} (h : isBlank line = true) (lines : List Text) :
    groups (line :: lines) = [] :: groups lines := by
  rw [groups, List.splitOnP_cons_eq_if_modifyHead, if_pos h]
  rfl

theorem groups_field {line : Text} (h : isBlank line = false) (lines : List Text) :
    ∃ g gs, groups lines = g :: gs ∧ groups (line :: lines) = (line :: g) :: gs := by
  obtain ⟨g, gs, hgs⟩ := List.exists_cons_of_ne_nil (groups_ne_nil lines)
  refine ⟨g, gs, hgs, ?_⟩
  rw [groups, List.splitOnP_cons_eq_if_modifyHead, if_neg (by rw [h]; exact Bool.false_ne_true),
    show lines.splitOnP isBlank = g :: gs from hgs]
  rfl

theorem lastDriver_append (driver : Option Text) (lines lines' : List Text) :
    lastDriver (lastDriver driver lines) lines' = lastDriver driver (lines ++ lines') := by
  rw [lastDriver, lastDriver, lastDriver, fieldValues_append, List.getLast?_append]
  cases (fieldValues [.driver] lines').getLast? <;> rfl

theorem lastDriver_blank {line : Text} (h : isBlank line = true) (driver : Option Text)
    (lines : List Text) : lastDriver driver (line :: lines) = lastDriver driver lines := by
  obtain rfl : line = "\n" := of_decide_eq_true h
  have hnone : field "\n" = none := by decide
  rw [← List.singleton_append, ← lastDriver_append]
  refine congrArg (lastDriver · lines) ?_
  rw [lastDriver, fieldValues_other _ hnone]
  rfl

/-- The lines of a section: all groups but the last one are recorded. -/
theorem read_section {lines : List Text} {s : ReadState} {g : Group}
    (hheader : s.inHeader = false) (hpending : Pending s g)
    (hsep : ∀ line ∈ lines, isSeparator line = false)
    (hnamed : ∀ line ∈ lines, ∀ keyword value, field line = some (keyword, value) →
      keyword = .driver ∨ keyword = .file → value ≠ []) :
    ∃ s', lines.foldlM readLine s = some s' ∧ s'.inHeader = false ∧ s'.sections = s.sections ∧
      s'.driver = lastDriver s.driver lines ∧
      s'.files = record s.files (carry g (groups lines)).dropLast ∧
      Pending s' ((carry g (groups lines)).getLast?.getD []) := by
  induction lines generalizing s g with
  | nil =>
    refine ⟨s, rfl, hheader, rfl, rfl, ?_, ?_⟩
    · funext x
      rfl
    · rw [groups, List.splitOnP_nil, carry, List.append_nil]
      exact hpending
  | cons line lines ih =>
    have hsep' := fun l hl => hsep l (List.mem_cons_of_mem _ hl)
    have hnamed' := fun l hl => hnamed l (List.mem_cons_of_mem _ hl)
    have hline := hsep line List.mem_cons_self
    cases hblank : isBlank line with
    | true =>
      -- the group ends
      let s₁ : ReadState :=
        { s.flush with binary := [], desc := none, source := [], version := none }
      have hstep : readLine s line = some s₁ := by
        rw [readLine, if_neg (by rw [hline]; exact Bool.false_ne_true),
          if_neg (by rw [hheader]; exact Bool.false_ne_true), if_pos hblank]
      obtain ⟨s', hrun, hheader', hsections, hdriver, hfiles, hp⟩ :=
        ih (s := s₁) (g := []) hheader ⟨rfl, rfl, rfl, rfl⟩ hsep' hnamed'
      obtain ⟨g', gs, hgs⟩ := List.exists_cons_of_ne_nil (groups_ne_nil lines)
      rw [hgs, carry, List.nil_append] at hfiles hp
      refine ⟨s', ?_, hheader', hsections, ?_, ?_, ?_⟩
      · rw [List.foldlM_cons, hstep]
        exact hrun
      · rw [hdriver]
        exact (lastDriver_blank hblank s.driver lines).symm
      · rw [hfiles, groups_blank hblank, hgs, carry, List.append_nil, List.dropLast_cons_cons]
        have happend := record_append s.files [g] (g' :: gs).dropLast
        exact (congrArg (record · _) (flush_files hpending)).trans happend
      · rw [groups_blank hblank, hgs, carry, List.append_nil, List.getLast?_cons_cons]
        exact hp
    | false =>
      obtain ⟨s₁, hstep, hheader₁, hsections₁, hfiles₁, hp₁, hdriver₁⟩ :=
        readLine_field hheader hpending hline hblank (hnamed line List.mem_cons_self)
      obtain ⟨s', hrun, hheader', hsections, hdriver, hfiles, hp⟩ := ih hheader₁ hp₁ hsep' hnamed'
      obtain ⟨g', gs, hgs, hgroups⟩ := groups_field hblank lines
      have hcarry : carry g (groups (line :: lines)) = carry (g ++ [line]) (groups lines) := by
        rw [hgroups, hgs, carry, carry, List.append_assoc]
        rfl
      refine ⟨s', ?_, hheader', hsections.trans hsections₁, ?_, ?_, ?_⟩
      · rw [List.foldlM_cons, hstep]
        exact hrun
      · rw [hdriver, hdriver₁, lastDriver_append]
        rfl
      · rw [hfiles, hfiles₁, hcarry]
      · rw [hcarry]
        exact hp

/-! ## The sections -/

/-- The files that `read` records for the sections with a driver. -/
def codeFiles : Group → List (List Text) → List FirmwareFiles
  | _, [] => []
  | carried, lines :: rest =>
    (if HasDriver lines then
      [recorded lastFileDesc (if rest = [] then carry carried (groups lines)
        else (carry carried (groups lines)).dropLast)]
      else []) ++ codeFiles (carriedOn carried lines) rest

theorem carry_append {carried lines : List Text} (h : ∀ line ∈ carried, isBlank line = false) :
    groups (carried ++ lines) = carry carried (groups lines) := by
  induction carried with
  | nil =>
    obtain ⟨g, gs, hgs⟩ := List.exists_cons_of_ne_nil (groups_ne_nil lines)
    rw [List.nil_append, hgs]
    rfl
  | cons line carried ih =>
    obtain ⟨g, gs, hgs, hgroups⟩ := groups_field (h line List.mem_cons_self) (carried ++ lines)
    rw [List.cons_append, hgroups]
    rw [ih fun l hl => h l (List.mem_cons_of_mem _ hl)] at hgs
    obtain ⟨g', gs', hgs'⟩ := List.exists_cons_of_ne_nil (groups_ne_nil lines)
    rw [hgs'] at hgs ⊢
    obtain ⟨rfl, rfl⟩ := List.cons.inj hgs
    rfl

/-- No group has a blank line. -/
theorem not_blank_of_mem_groups {lines : List Text} {g : Group} (hg : g ∈ groups lines) :
    ∀ line ∈ g, isBlank line = false := by
  induction lines generalizing g with
  | nil =>
    rw [groups, List.splitOnP_nil, List.mem_singleton] at hg
    rw [hg]
    exact fun _ h => absurd h List.not_mem_nil
  | cons line lines ih =>
    cases hblank : isBlank line with
    | true =>
      rw [groups_blank hblank, List.mem_cons] at hg
      rcases hg with rfl | hg
      · exact fun _ h => absurd h List.not_mem_nil
      · exact ih hg
    | false =>
      obtain ⟨g', gs, hgs, hgroups⟩ := groups_field hblank lines
      rw [hgroups, List.mem_cons] at hg
      rcases hg with rfl | hg
      · intro l hl
        rcases List.mem_cons.mp hl with rfl | hl
        · exact hblank
        · exact ih (hgs ▸ List.mem_cons_self) l hl
      · exact ih (hgs ▸ List.mem_cons_of_mem _ hg)

/-- A driver is finished with the files of its section. -/
theorem finish_files {s : ReadState} {lines : List Text}
    (hdriver : s.driver = lastDriver none lines)
    (hnamed : ∀ line ∈ lines, ∀ keyword value, field line = some (keyword, value) →
      keyword = .driver ∨ keyword = .file → value ≠ []) :
    s.finish.sections.map (·.files) =
      s.sections.map (·.files) ++ if HasDriver lines then [s.files] else [] := by
  rw [lastDriver, Option.or_none] at hdriver
  rw [ReadState.finish, hdriver]
  rcases hvalues : fieldValues [.driver] lines with _ | ⟨v, vs⟩
  · rw [if_neg fun h : HasDriver lines => h hvalues]
    exact (List.append_nil _).symm
  · have hhas : HasDriver lines := by
      rw [HasDriver, hvalues]
      exact List.cons_ne_nil _ _
    obtain ⟨value, hvalue⟩ := List.getLast?_isSome.mpr (List.cons_ne_nil v vs) |>
      Option.isSome_iff_exists.mp
    have hmem : value ∈ fieldValues [.driver] lines := by
      rw [hvalues]
      exact List.mem_of_getLast? hvalue
    obtain ⟨line, hline, hbind⟩ := List.mem_filterMap.mp hmem
    obtain ⟨⟨keyword, value'⟩, hfield, hkeyword⟩ := Option.bind_eq_some_iff.mp hbind
    have hne : driverValue value ≠ [] := by
      split at hkeyword
      · next hc =>
        cases hkeyword
        have hdriver := List.mem_singleton.mp (List.contains_iff_mem.mp hc)
        exact driverValue_ne_nil (hnamed line hline _ _ hfield (.inl hdriver))
          (field_value_head hfield)
      · cases hkeyword
    rw [if_pos hhas, hvalue]
    show (if driverValue value = [] then s else _).sections.map _ = _
    rw [if_neg hne, List.map_append]
    rfl

theorem split_first {α : Type} (p : α → Bool) (ls : List α) : (∀ l ∈ ls, p l = false) ∨
    ∃ a x b, ls = a ++ x :: b ∧ (∀ l ∈ a, p l = false) ∧ p x = true := by
  induction ls with
  | nil => exact .inl (by simp)
  | cons l ls ih =>
    cases hl : p l with
    | true => exact .inr ⟨[], l, ls, rfl, by simp, hl⟩
    | false =>
      rcases ih with hall | ⟨a, x, b, rfl, ha, hx⟩
      · refine .inl fun l' hl' => ?_
        rcases List.mem_cons.mp hl' with rfl | hl'
        · exact hl
        · exact hall l' hl'
      · refine .inr ⟨l :: a, x, b, rfl, fun l' hl' => ?_, hx⟩
        rcases List.mem_cons.mp hl' with rfl | hl'
        · exact hl
        · exact ha l' hl'

theorem dropLast_getLast {gs : List Group} (h : gs ≠ []) :
    gs.dropLast ++ [gs.getLast?.getD []] = gs := by
  rw [List.getLast?_eq_some_getLast h, Option.getD_some, List.dropLast_append_getLast]

/-- All sections behind a separator. -/
theorem read_sections {ls : List Text} {s : ReadState} {g : Group} (hheader : s.inHeader = false)
    (hpending : Pending s g) (hg : ∀ line ∈ g, isBlank line = false) (hdriver : s.driver = none)
    (hfiles : s.files = fun _ => none)
    (hnamed : ∀ lines ∈ ls.splitOnP isSeparator, ∀ line ∈ lines, ∀ keyword value,
      field line = some (keyword, value) → keyword = .driver ∨ keyword = .file → value ≠ []) :
    ∃ s', ls.foldlM readLine s = some s' ∧ s'.flush.finish.sections.map (·.files) =
      s.sections.map (·.files) ++ codeFiles g (ls.splitOnP isSeparator) := by
  rcases split_first isSeparator ls with hno | ⟨a, sep, b, hls, ha, hsep⟩
  · rw [List.splitOnP_eq_singleton hno] at hnamed ⊢
    have hnamed' := hnamed ls (List.mem_singleton.mpr rfl)
    obtain ⟨s', hrun, -, hsections, hdriver', hfiles', hp⟩ :=
      read_section hheader hpending hno hnamed'
    refine ⟨s', hrun, ?_⟩
    have hcarry : carry g (groups ls) ≠ [] := by
      rw [← carry_append hg]
      exact groups_ne_nil _
    have hfinish := finish_files (s := s'.flush) (hdriver'.trans (by rw [hdriver])) hnamed'
    rw [hfinish, flush_files hp, hfiles', hfiles, record_append, dropLast_getLast hcarry,
      record_none, codeFiles, if_pos rfl, codeFiles, List.append_nil]
    exact congrArg (fun l => l.map (·.files) ++ _) hsections
  · rw [hls, List.splitOnP_append_cons_of_forall_mem ha sep hsep] at hnamed ⊢
    have hnamed' := hnamed a List.mem_cons_self
    obtain ⟨s₁, hrun, hheader₁, hsections, hdriver₁, hfiles₁, hp⟩ :=
      read_section hheader hpending ha hnamed'
    let s₂ : ReadState := { s₁.finish with driver := none, files := fun _ => none, licence := none }
    have hstep : readLine s₁ sep = some s₂ := by
      rw [readLine, if_pos hsep, if_neg (by rw [hheader₁]; exact Bool.false_ne_true)]
    have hsame : s₁.finish.inHeader = s₁.inHeader ∧ s₁.finish.binary = s₁.binary ∧
        s₁.finish.desc = s₁.desc ∧ s₁.finish.source = s₁.source ∧
        s₁.finish.version = s₁.version := by
      rw [ReadState.finish]
      split
      · split <;> exact ⟨rfl, rfl, rfl, rfl, rfl⟩
      · exact ⟨rfl, rfl, rfl, rfl, rfl⟩
    obtain ⟨hh, hb, hd, hs, hv⟩ := hsame
    have hcarried : carriedOn g a = (carry g (groups a)).getLast?.getD [] := by
      rw [carriedOn, carry_append hg]
    have hp₂ : Pending s₂ (carriedOn g a) := by
      rw [hcarried]
      exact ⟨hb.trans hp.binary, hd.trans hp.desc, hs.trans hp.source, hv.trans hp.version⟩
    have hblank : ∀ line ∈ carriedOn g a, isBlank line = false := by
      have hne := groups_ne_nil (g ++ a)
      rw [carriedOn, List.getLast?_eq_some_getLast hne]
      exact not_blank_of_mem_groups (List.getLast_mem hne)
    obtain ⟨s', hrun', hfinal⟩ := read_sections (s := s₂) (hh.trans hheader₁) hp₂ hblank rfl rfl
      fun lines hlines => hnamed lines (List.mem_cons_of_mem _ hlines)
    refine ⟨s', ?_, ?_⟩
    · rw [List.foldlM_append, hrun, Option.bind_eq_bind, Option.bind_some, List.foldlM_cons, hstep]
      exact hrun'
    · have hfinish := finish_files (hdriver₁.trans (by rw [hdriver])) hnamed'
      have hrest : b.splitOnP isSeparator ≠ [] := List.splitOnP_ne_nil _ _
      rw [hfiles₁, hfiles, record_none, hsections] at hfinish
      rw [hfinal, codeFiles, if_neg hrest, ← List.append_assoc]
      exact congrArg (· ++ _) hfinish
termination_by ls.length
decreasing_by
  rw [hls, List.length_append, List.length_cons]
  omega

/-- The header is skipped. -/
theorem read_header {lines : List Text} {s : ReadState} (hheader : s.inHeader = true)
    (hsep : ∀ line ∈ lines, isSeparator line = false) : lines.foldlM readLine s = some s := by
  induction lines with
  | nil => rfl
  | cons line lines ih =>
    have hstep : readLine s line = some s := by
      rw [readLine, if_neg (by rw [hsep line List.mem_cons_self]; exact Bool.false_ne_true),
        if_pos hheader]
    rw [List.foldlM_cons, hstep]
    exact ih fun l hl => hsep l (List.mem_cons_of_mem _ hl)

theorem read_whence {text : Text} (hnamed : Named text) :
    ∃ sections, readWhence text = some sections ∧
      sections.map (·.files) = codeFiles [] (whenceSections text) := by
  rw [Named, whenceSections] at hnamed
  rw [readWhence, whenceSections]
  rcases split_first isSeparator (lines text) with hno | ⟨a, sep, b, heq, ha, hsep⟩
  · rw [List.splitOnP_eq_singleton hno, read_header rfl hno]
    exact ⟨_, rfl, rfl⟩
  · rw [heq, List.splitOnP_append_cons_of_forall_mem ha sep hsep] at hnamed ⊢
    have hstep : readLine .init sep = some { ReadState.init with inHeader := false } := by
      rw [readLine, if_pos hsep]
      rfl
    obtain ⟨s', hrun, hfinal⟩ := read_sections (s := { ReadState.init with inHeader := false })
      (g := []) rfl ⟨rfl, rfl, rfl, rfl⟩ (by simp) rfl rfl hnamed
    rw [List.foldlM_append, read_header rfl ha, Option.bind_eq_bind, Option.bind_some,
      List.foldlM_cons, hstep, Option.bind_eq_bind, Option.bind_some, hrun]
    exact ⟨_, rfl, hfinal⟩

/-! ## The comparison -/

theorem mem_names_of_lastNaming {binary : Text} {gs : List Group} {g : Group}
    (h : lastNaming binary gs = some g) : binary ∈ groupNames g ∧ g ∈ gs := by
  refine ⟨?_, List.mem_reverse.mp (List.mem_of_find?_eq_some h)⟩
  exact List.contains_iff_mem.mp (List.find?_some (p := fun g => (groupNames g).contains binary) h)

theorem lastNaming_eq_none {binary : Text} {gs : List Group} :
    lastNaming binary gs = none ↔ ∀ g ∈ gs, binary ∉ groupNames g := by
  rw [lastNaming, List.find?_eq_none]
  simp

/-- The data of the first group, with what is carried into it. -/
theorem groupFile_carried {descOf : Group → Option Text} {carried g : Group} {binary : Text}
    (hmem : binary ∈ groupNames g) :
    groupFile lastFileDesc (carried ++ g) binary = groupFile descOf g binary ↔
      fieldValues [.source] carried = [] ∧
        (fieldValues [.info, .version] g = [] → fieldValues [.info, .version] carried = []) ∧
        lastFileDesc g = descOf g := by
  have hfiles : groupFiles g ≠ [] := by
    intro hnil
    rw [groupNames, hnil] at hmem
    cases hmem
  have hdesc : lastFileDesc (carried ++ g) = lastFileDesc g := by
    obtain ⟨p, hp⟩ : ∃ p, (groupFiles g).getLast? = some p :=
      ⟨_, List.getLast?_eq_some_getLast hfiles⟩
    rw [lastFileDesc, lastFileDesc, groupFiles_append, List.getLast?_append, hp, Option.some_or]
  have hsource : fieldValues [.source] carried ++ fieldValues [.source] g =
      fieldValues [.source] g ↔ fieldValues [.source] carried = [] := List.append_left_eq_self
  have hversion : ((fieldValues [.info, .version] g).getLast?.or
      (fieldValues [.info, .version] carried).getLast? =
        (fieldValues [.info, .version] g).getLast?) ↔
      (fieldValues [.info, .version] g = [] → fieldValues [.info, .version] carried = []) := by
    rcases fieldValues [.info, .version] g with _ | ⟨v, vs⟩
    · rw [List.getLast?_nil, Option.none_or, List.getLast?_eq_none_iff]
      simp
    · rw [List.getLast?_cons, Option.some_or]
      simp
  rw [groupFile, groupFile, FirmwareFile.mk.injEq, hdesc, fieldValues_append, fieldValues_append,
    List.getLast?_append, hsource, hversion]
  tauto

theorem lastNaming_left (binary : Text) (own : List Group) (left : Group) :
    lastNaming binary (own ++ [left]) =
      if binary ∈ groupNames left then some left else lastNaming binary own := by
  rw [lastNaming_append, lastNaming_singleton]
  split <;> rfl

/-- When the data of a file that is not named in what is left are those of its own group. -/
theorem recorded_own_iff {descOf : Group → Option Text} {carried : Group} {own : List Group}
    {binary : Text} :
    recorded lastFileDesc (carry carried own) binary = recorded descOf own binary ↔
      (own ≠ [] → binary ∈ groupNames carried → ∃ g ∈ own, binary ∈ groupNames g) ∧
      (∀ g rest, own = g :: rest → binary ∈ groupNames g → (∀ g' ∈ rest, binary ∉ groupNames g') →
        fieldValues [.source] carried = [] ∧
          (fieldValues [.info, .version] g = [] → fieldValues [.info, .version] carried = [])) ∧
      ∀ g, lastNaming binary own = some g → lastFileDesc g = descOf g := by
  cases own with
  | nil => exact iff_of_true rfl ⟨fun h => absurd rfl h, nofun, nofun⟩
  | cons g rest =>
    rw [carry, recorded, recorded, lastNaming_cons, lastNaming_cons]
    cases hrest : lastNaming binary rest with
    | some g' =>
      -- the last group with the file is not the first one
      obtain ⟨hname, hmem⟩ := mem_names_of_lastNaming hrest
      rw [Option.some_or, Option.some_or, Option.map_some, Option.map_some, Option.some.injEq]
      constructor
      · intro heq
        refine ⟨fun _ _ => ⟨g', List.mem_cons_of_mem _ hmem, hname⟩, ?_, ?_⟩
        · intro g₁ rest₁ hown _ hno
          rw [(List.cons.inj hown).2] at hmem
          exact absurd hname (hno g' hmem)
        · rintro _ ⟨⟩
          exact (FirmwareFile.mk.inj heq).2.1
      · rintro ⟨-, -, hdesc⟩
        rw [groupFile, groupFile, hdesc g' rfl]
    | none =>
      have hno := lastNaming_eq_none.mp hrest
      rw [Option.none_or, Option.none_or]
      rcases Classical.em (binary ∈ groupNames g) with hg | hg
      · have hcarried : binary ∈ groupNames (carried ++ g) := by
          rw [groupNames, groupFiles_append, List.map_append]
          exact List.mem_append_right _ hg
        rw [if_pos hg, if_pos hcarried, Option.map_some, Option.map_some, Option.some.injEq,
          groupFile_carried hg]
        constructor
        · rintro ⟨hsource, hversion, hdesc⟩
          refine ⟨fun _ _ => ⟨g, List.mem_cons_self, hg⟩, ?_, ?_⟩
          · rintro g₁ rest₁ hown - -
            rw [← (List.cons.inj hown).1]
            exact ⟨hsource, hversion⟩
          · rintro _ ⟨⟩
            exact hdesc
        · rintro ⟨-, hfirst, hdesc⟩
          obtain ⟨hsource, hversion⟩ := hfirst g rest rfl hg hno
          exact ⟨hsource, hversion, hdesc g rfl⟩
      · have hnone : ¬ ∃ g' ∈ g :: rest, binary ∈ groupNames g' := by
          rintro ⟨g', hg', hname⟩
          rcases List.mem_cons.mp hg' with rfl | hg'
          · exact hg hname
          · exact hno g' hg' hname
        have hcarried : binary ∈ groupNames (carried ++ g) ↔ binary ∈ groupNames carried := by
          rw [groupNames, groupFiles_append, List.map_append, List.mem_append]
          exact or_iff_left hg
        rw [if_neg hg, Option.map_none]
        constructor
        · intro heq
          refine ⟨fun _ hmem => ?_, ?_, nofun⟩
          · rw [if_pos (hcarried.mpr hmem)] at heq
            cases heq
          · intro g₁ rest₁ hown hname
            rw [← (List.cons.inj hown).1] at hname
            exact absurd hname hg
        · rintro ⟨hcarriedNamed, -, -⟩
          have hnot : binary ∉ groupNames carried := fun hmem =>
            hnone (hcarriedNamed (List.cons_ne_nil _ _) hmem)
          rw [if_neg (mt hcarried.mp hnot)]
          rfl

/-- When a section records its own groups. -/
theorem recorded_eq_iff {descOf : Group → Option Text} {carried left : Group} {own : List Group} :
    recorded lastFileDesc (carry carried own) = recorded descOf (own ++ [left]) ↔
      SectionSafe descOf carried own left := by
  have hleft : ∀ binary ∈ groupNames left, recorded descOf (own ++ [left]) binary =
      some (groupFile descOf left binary) := by
    intro binary hmem
    rw [recorded, lastNaming_left, if_pos hmem]
    rfl
  have hown : ∀ binary, binary ∉ groupNames left →
      recorded descOf (own ++ [left]) binary = recorded descOf own binary := by
    intro binary hnot
    rw [recorded, lastNaming_left, if_neg hnot]
    rfl
  constructor
  · intro heq
    have hat := fun binary hnot => recorded_own_iff.mp
      ((congrFun heq binary).trans (hown binary hnot))
    refine ⟨?_, ?_, ?_, ?_⟩
    · intro binary hmem
      exact Option.map_eq_some_iff.mp ((congrFun heq binary).trans (hleft binary hmem))
    · intro hne binary hmem
      rcases Classical.em (binary ∈ groupNames left) with hl | hl
      · exact .inr hl
      · exact .inl ((hat binary hl).1 hne hmem)
    · exact fun g rest h binary hg hno hl => (hat binary hl).2.1 g rest h hg hno
    · exact fun binary g h hl => (hat binary hl).2.2 g h
  · rintro ⟨hnamed, hcarried, hfirst, hdesc⟩
    funext binary
    rcases Classical.em (binary ∈ groupNames left) with hl | hl
    · rw [hleft binary hl]
      exact Option.map_eq_some_iff.mpr (hnamed binary hl)
    · rw [hown binary hl]
      refine recorded_own_iff.mpr ⟨?_, ?_, ?_⟩
      · exact fun hne hmem => (hcarried hne binary hmem).resolve_right hl
      · exact fun g rest h hg hno => hfirst g rest h binary hg hno hl
      · exact fun g h => hdesc binary g h hl

/-- A last section is closed by the end of the text. -/
theorem recorded_last_iff {descOf : Group → Option Text} {carried : Group} {own : List Group} :
    recorded lastFileDesc (carry carried own) = recorded descOf own ↔
      SectionSafe descOf carried own [] := by
  have hown : recorded descOf (own ++ [[]]) = recorded descOf own := by
    funext binary
    rw [recorded, lastNaming_left, if_neg (show binary ∉ groupNames [] from List.not_mem_nil)]
    rfl
  rw [← recorded_eq_iff, hown]

theorem carry_dropLast (carried : Group) (gs : List Group) :
    (carry carried gs).dropLast = carry carried gs.dropLast := by
  rcases gs with _ | ⟨g, _ | ⟨g', gs⟩⟩ <;> rfl

theorem codeFiles_eq_iff {descOf : Group → Option Text} {carried : Group}
    {secs : List (List Text)} :
    codeFiles carried secs = (secs.filter (HasDriver ·)).map (fun lines =>
      recorded descOf (groups lines)) ↔ WhenceSafe descOf carried secs := by
  induction secs generalizing carried with
  | nil => exact iff_of_true rfl trivial
  | cons lines rest ih =>
    rw [codeFiles, WhenceSafe, ← ih]
    rcases Decidable.em (HasDriver lines) with hdriver | hdriver
    · rw [if_pos hdriver, List.filter_cons, if_pos (decide_eq_true hdriver), List.map_cons,
        List.singleton_append, List.cons.injEq]
      refine and_congr_left' ?_
      rw [forall_prop_of_true hdriver]
      rcases Decidable.em (rest = []) with hrest | hrest
      · rw [if_pos hrest, if_pos hrest]
        exact recorded_last_iff
      · rw [if_neg hrest, if_neg hrest, carry_dropLast, ← recorded_eq_iff,
          dropLast_getLast (groups_ne_nil lines)]
    · rw [if_neg hdriver, List.filter_cons, if_neg (by simp [hdriver]), List.nil_append]
      exact (and_iff_right fun h => absurd h hdriver).symm

/-- A section behind a blank line, whose last line is a blank one too. -/
theorem sectionSafe_of_nil {descOf : Group → Option Text} {own : List Group}
    (h : ∀ g ∈ own, lastFileDesc g = descOf g) : SectionSafe descOf [] own [] where
  leftNamed _ hbinary := absurd hbinary List.not_mem_nil
  carriedNamed _ _ hbinary := absurd hbinary List.not_mem_nil
  firstPlain _ _ _ _ _ _ _ := ⟨rfl, fun _ => rfl⟩
  lastDescribed _ g hg _ := h g (mem_names_of_lastNaming hg).2

end FirmwareLemmas

open FirmwareLemmas

/-- The files are attributed to their own sections exactly if the lines between the last blank
line and a separator change nothing there nor in the next section. -/
theorem whence_attributed_iff {text : Text} (hnamed : Named text)
    (descOf : Group → Option Text) :
    Attributed descOf text ↔ WhenceSafe descOf [] (whenceSections text) := by
  obtain ⟨sections, hread, hfiles⟩ := read_whence hnamed
  rw [Attributed, hread, ← codeFiles_eq_iff, ← hfiles]
  simp

theorem blank_before_separator :
    Attributed lastDesc
      "-\n----------\nDriver: a\nFile: a.bin -- code\n\n----------\nDriver: b\nFile: b.bin\n" := by
  refine (whence_attributed_iff (by decide) lastDesc).mpr ?_
  have hsections : whenceSections
      "-\n----------\nDriver: a\nFile: a.bin -- code\n\n----------\nDriver: b\nFile: b.bin\n" =
        [[("Driver: a\n" : Text), "File: a.bin -- code\n", "\n"],
          [("Driver: b\n" : Text), "File: b.bin\n"]] := by decide
  rw [hsections]
  have hfirst : ∀ g ∈ [[("Driver: a\n" : Text), "File: a.bin -- code\n"]],
      lastFileDesc g = lastDesc g := by decide
  have hsecond : ∀ g ∈ [[("Driver: b\n" : Text), "File: b.bin\n"]],
      lastFileDesc g = lastDesc g := by decide
  exact ⟨fun _ => sectionSafe_of_nil hfirst, fun _ => sectionSafe_of_nil hsecond, trivial⟩

/-- Without a blank line the files of a group go to the next section. -/
theorem pending_misfiled :
    Named "list\n----------\nDriver: a\nFile: a.bin\n----------\nDriver: b\n\nFile: b.bin\n" ∧
      ∀ descOf, ¬ Attributed descOf
        "list\n----------\nDriver: a\nFile: a.bin\n----------\nDriver: b\n\nFile: b.bin\n" := by
  refine ⟨by decide, ?_⟩
  rintro descOf ⟨sections, hread, hfiles⟩
  have hcode : (readWhence
      "list\n----------\nDriver: a\nFile: a.bin\n----------\nDriver: b\n\nFile: b.bin\n").map
      (fun sections => sections.map fun s => (s.files "a.bin").isSome) = some [false, true] := by
    decide
  have hown := congrArg (fun l => l.map fun f => (f "a.bin").isSome) hfiles
  rw [hread, Option.map_some, Option.some.injEq] at hcode
  simp only [List.map_map, Function.comp_def, recorded, Option.isSome_map] at hown
  rw [hcode] at hown
  exact absurd hown (by decide)

end DebianKernel.Debian
