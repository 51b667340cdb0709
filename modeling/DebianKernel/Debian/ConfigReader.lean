import DebianKernel.Debian.Config
import DebianKernel.Lib.Words

/-!
# Reading the configuration

`ConfigCoreHierarchy.Reader` and `ConfigParser` of `debian_linux/config.py`: a tree of
`defines` files becomes a `ConfigCore`. The header of a section is split at the
underscores, and the readers turn the parts into a key.
-/

namespace DebianKernel.Debian

open Text

/-! ## Schemas -/

/-- Converts a value. `none` for an error. -/
abbrev Converter := Text → Option Value

/-- The converters of the items, for the sections that have a schema. -/
abbrev Schema := Text → Option (Text → Option Converter)

/-- `SchemaItemBoolean`. -/
def schemaItemBoolean : Converter := fun i =>
  let i := (strip i).map Char.toLower
  if i = "true" ∨ i = "1" then some (.bool true)
  else if i = "false" ∨ i = "0" then some (.bool false)
  else none

/-- `SchemaItemList`, of words. -/
def schemaItemList : Converter := fun i => some (.list (words i))

/-- `schema_base`. -/
def schemaBase : Schema := fun sect =>
  if sect = "base" then some fun item =>
    if item = "arches" then some schemaItemList
    else if item = "enabled" then some schemaItemBoolean
    else if item = "featuresets" then some schemaItemList
    else if item = "flavours" then some schemaItemList
    else none
  else none

/-- `schema_complete`. -/
def schemaComplete (schema : Schema) : Schema := fun sect =>
  match schemaBase sect, schema sect with
  | some base, some value => some fun item => value item <|> base item
  | some base, none => some base
  | none, value => value

/-! ## Files -/

/-- The sections of a `defines` file, in order, as the parser of the standard library gives
them. No name occurs twice. -/
structure DefinesFile where
  sections : List (Text × List (Text × Text))
  nodup : (sections.map (·.1)).Nodup

/-- The files under each path. One that is missing has no sections. -/
abbrev Tree := Text → DefinesFile

/-- `os.path.join`. -/
def joinPath (a b : Text) : Text :=
  if b.head? = some '/' then b
  else if a = [] ∨ a.getLast? = some '/' then a ++ b
  else a ++ '/' :: b

/-- The path below the directories of the configuration. -/
def getFile (dirs : List Text) : Text := (dirs ++ [("defines" : Text)]).foldl joinPath []

/-- The sections of a parser, with their headers as tuples. -/
abbrev ParsedConfig := List (List Text × Items)

/-- `_convert_one`. -/
def convertOne (schema : Text → Option Converter) (data : List (Text × Text)) : Option Items :=
  data.foldlM (fun ret (key, value) => match schema key with
    | some convert => (convert value).map fun value => ret.set key value
    | none => some (ret.set key (.text value))) Items.empty

/-- A section with the tuple of its header. A header whose last part has no schema stays whole. -/
def convertSection (schema : Schema) (sect : Text × List (Text × Text)) :
    Option (List Text × Items) :=
  let sectionList := sect.1.splitOn '_'
  match schema (sectionList.getLastD []) with
  | some schema => (convertOne schema sect.2).map fun data => (sectionList, data)
  | none => (convertOne (fun _ => none) sect.2).map fun data => ([sect.1], data)

/-- `_convert`. -/
def convert (schema : Schema) (file : DefinesFile) : Option ParsedConfig :=
  file.sections.mapM (convertSection schema)

/-! ## Readers -/

/-- `section[-1]`. -/
def lastPart (sect : List Text) : Text := sect.getLastD []

/-- The key of a section of the top file. -/
def topKey (sect : List Text) : Key :=
  if ("featureset-" : Text).isPrefixOf (sect.headD []) then
    [some (lastPart sect), none, some ((sect.headD []).drop 11)]
  else some (lastPart sect) :: sect.tail.map some

/-- The key of a section of the file of an architecture. -/
def archKey (arch : Text) (featuresets : List Text) (sect : List Text) : Key :=
  if featuresets.contains (sect.headD []) then
    [some (lastPart sect), some arch, some (sect.headD [])]
  else if 1 < sect.length then
    [some (lastPart sect), some arch, none] ++ sect.dropLast.map some
  else [some (lastPart sect), some arch] ++ sect.dropLast.map some

/-- The key of a section of the file of a featureset of an architecture. -/
def archFeaturesetKey (arch featureset : Text) (sect : List Text) : Key :=
  [some (lastPart sect), some arch, some featureset] ++ sect.dropLast.map some

/-- The key of a section of the file of a featureset. -/
def featuresetKey (featureset : Text) (sect : List Text) : Key :=
  [some (lastPart sect), none, some featureset]

/-- `s = ret.get(real, {})`, `s.update(config[section])` and `ret[real] = s`, for all sections. -/
def addSections (key : List Text → Key) (ret : ConfigCore) (config : ParsedConfig) : ConfigCore :=
  config.foldl (fun ret (sect, items) =>
    ret.set (key sect) ((ret.get (key sect)).update items)) ret

/-- `items[item]`, for a list. `none` for a `KeyError`. -/
def Items.list? (items : Items) (item : Text) : Option (List Text) :=
  match items item with
  | some (.list l) => some l
  | _ => none

/-- `items.get(item, [])`, for a list. -/
def Items.listD? (items : Items) (item : Text) : Option (List Text) :=
  match items item with
  | some (.list l) => some l
  | some _ => none
  | none => some []

/-- What the base section of an architecture becomes when it names flavours itself. -/
def implicitBase (featuresets : List Text) (base : Items) : Items := fun item =>
  if item = "flavours" then none
  else (base.set "featuresets" (.list (("none" : Text) :: featuresets))) item

/-- `{'flavours': flavours, 'implicit-flavour': True}`. -/
def implicitNone (flavours : List Text) : Items :=
  (Items.empty.set "flavours" (.list flavours)).set "implicit-flavour" (.bool true)

/-- `Reader`. -/
structure Reader where
  schema : Schema
  files : Tree

namespace Reader

/-- A parser that has read its file. `none` for an error of a converter. -/
def config (r : Reader) (dirs : List Text) : Option ParsedConfig :=
  convert r.schema (r.files (getFile dirs))

/-- `config['base', ]`, after the parser was filled. -/
def base (config : ParsedConfig) : Option Items := config.lookup [("base" : Text)]

def readArchFeatureset (r : Reader) (arch : Text) (ret : ConfigCore) (featureset : Text) :
    Option ConfigCore := do
  let config ← r.config [arch, featureset]
  let _ ← base config
  some (addSections (archFeaturesetKey arch featureset) ret config)

def readArch (r : Reader) (ret : ConfigCore) (arch : Text) : Option ConfigCore := do
  let config ← r.config [arch]
  let base ← base config
  let featuresets ← base.listD? "featuresets"
  let flavours ← base.listD? "flavours"
  let ret := addSections (archKey arch featuresets) ret config
  let ret ← featuresets.foldlM (r.readArchFeatureset arch) ret
  if flavours = [] then some ret
  else do
    let base ← ret [some "base", some arch]
    if base "flavours" = none then none
    else
      let ret := ret.set [some "base", some arch] (implicitBase featuresets base)
      some (ret.set [some "base", some arch, some "none"] (implicitNone flavours))

def readFeatureset (r : Reader) (ret : ConfigCore) (featureset : Text) : Option ConfigCore := do
  let config ← r.config [("featureset-" : Text) ++ featureset]
  some (addSections (featuresetKey featureset) ret config)

/-- `read`. -/
def read (r : Reader) : Option ConfigCore := do
  let config ← r.config []
  let base ← base config
  let arches ← base.list? "arches"
  let featuresets ← base.listD? "featuresets"
  let ret : ConfigCore := config.foldl (fun ret (sect, items) => ret.set (topKey sect) items)
    fun _ => none
  let ret ← arches.foldlM r.readArch ret
  featuresets.foldlM r.readFeatureset ret

end Reader

end DebianKernel.Debian
