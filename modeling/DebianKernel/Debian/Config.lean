import DebianKernel.Lib.Text

/-!
# The layered configuration

`ConfigCore` of `debian_linux/config.py`: a dictionary of dictionaries. The key of a
section is a tuple of the section and its scope, with `None` for a part of the scope that
is left open: `('base',)`, `('base', None, featureset)`, `('base', arch)`,
`('base', arch, featureset)`, `('base', arch, None, flavour)` and
`('base', arch, featureset, flavour)`.
-/

namespace DebianKernel.Debian

/-- The value of an item, as the schema converts it. -/
inductive Value
  | text (t : Text)
  | bool (b : Bool)
  | int (n : Int)
  | list (l : List Text)
  deriving DecidableEq

/-- The truth value. -/
def Value.truth : Value → Bool
  | .text t => t ≠ []
  | .bool b => b
  | .int n => n ≠ 0
  | .list l => l ≠ []

/-- `isinstance(value, (list, tuple))`. -/
def Value.isList : Value → Bool
  | .list _ => true
  | _ => false

/-- The items of a section. -/
abbrev Items := Text → Option Value

namespace Items

def empty : Items := fun _ => none

/-- `d.update(e)`. -/
def update (d e : Items) : Items := fun item => e item <|> d item

/-- `d[item] = value`. -/
def set (d : Items) (item : Text) (value : Value) : Items :=
  fun i => if i = item then some value else d i

@[simp] theorem update_empty (d : Items) : d.update empty = d := rfl

theorem update_of_some {d e : Items} {item : Text} {v : Value} (h : e item = some v) :
    d.update e item = some v := by
  rw [update, h]
  rfl

theorem update_of_none {d e : Items} {item : Text} (h : e item = none) :
    d.update e item = d item := by
  rw [update, h]
  rfl

end Items

/-- The key of a section. -/
abbrev Key := List (Option Text)

/-- `ConfigCore`. -/
abbrev ConfigCore := Key → Option Items

namespace ConfigCore

/-- `config.get(key, {})`. -/
def get (config : ConfigCore) (key : Key) : Items := (config key).getD Items.empty

/-- `config[key] = items`. -/
def set (config : ConfigCore) (key : Key) (items : Items) : ConfigCore :=
  fun k => if k = key then some items else config k

/-- `config[key][item]`, for an item that has no converter in the schema and is a string.
`none` for a `KeyError`. -/
def text? (config : ConfigCore) (key : Key) (item : Text) : Option Text :=
  match config.get key item with
  | some (.text t) => some t
  | _ => none

/-- `config[key][item]`, for a list. `none` for a `KeyError`. -/
def list? (config : ConfigCore) (key : Key) (item : Text) : Option (List Text) :=
  match config.get key item with
  | some (.list l) => some l
  | _ => none

/-- `config[key].get(item, ())`, for a list. `none` for a `KeyError`. -/
def listD? (config : ConfigCore) (key : Key) (item : Text) : Option (List Text) := do
  let items ← config key
  match items item with
  | some (.list l) => some l
  | some _ => none
  | none => some []

/-- A part of the scope. The source tests its truth, so that an empty name counts as none. -/
def named (name : Option Text) : Option Text := name.filter (· ≠ [])

/-- The keys that are looked up for a scope, the most general one first. -/
def scopeKeys (sect : Text) (arch featureset flavour : Option Text) : List Key :=
  [[some sect]] ++
  (match featureset with
    | some fs => [[some sect, none, some fs]]
    | none => []) ++
  (match arch with
    | some a => [[some sect, some a]]
    | none => []) ++
  (match arch, featureset with
    | some a, some fs => [[some sect, some a, some fs]]
    | _, _ => []) ++
  match arch, featureset, flavour with
    | some a, some fs, some fl => [[some sect, some a, none, some fl],
        [some sect, some a, some fs, some fl]]
    | _, _, _ => []

/-- The keys that `merge` looks up. -/
def mergeKeys (sect : Text) (arch featureset flavour : Option Text) : List Key :=
  scopeKeys sect (named arch) (named featureset) (named flavour)

/-- `merge`. -/
def merge (config : ConfigCore) (sect : Text) (arch featureset flavour : Option Text) : Items :=
  (mergeKeys sect arch featureset flavour).foldl (fun ret key => ret.update (config.get key))
    Items.empty

/-- The values that `get_merge` looks at, the most specific one first. -/
def getMergeValues (config : ConfigCore) (sect : Text) (arch featureset flavour : Option Text)
    (item : Text) : List (Option Value) :=
  (match named arch, named featureset, named flavour with
    | some a, some fs, some fl => [config.get [some sect, some a, some fs, some fl] item,
        config.get [some sect, some a, none, some fl] item]
    | _, _, _ => []) ++
  (match named arch, named featureset with
    | some a, some fs => [config.get [some sect, some a, some fs] item]
    | _, _ => []) ++
  (match named arch with
    | some a => [config.get [some sect, some a] item]
    | none => []) ++
  (match named featureset with
    | some fs => [config.get [some sect, none, some fs] item]
    | none => []) ++
  [config.get [some sect] item]

/-- The loop of `get_merge`. A value that is no list ends it. -/
def getMergeLoop (default : Option Value) : List Text → List (Option Value) → Option Value
  | ret, [] => if ret ≠ [] then some (.list ret) else default
  | ret, none :: values => getMergeLoop default ret values
  | ret, some (.list l) :: values => getMergeLoop default (ret ++ l) values
  | ret, some value :: _ => if ret ≠ [] then some (.list ret) else some value

/-- `get_merge`. -/
def getMerge (config : ConfigCore) (sect : Text) (arch featureset flavour : Option Text)
    (item : Text) (default : Option Value) : Option Value :=
  getMergeLoop default [] (config.getMergeValues sect arch featureset flavour item)

end ConfigCore

end DebianKernel.Debian
