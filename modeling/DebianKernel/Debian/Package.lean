import DebianKernel.Debian.Relation
import DebianKernel.Lib.OrderedDict

/-!
# Control stanzas

`Package`, `PackageArchitecture` and `PackageDescription` of `debian_linux.debian`,
and `PackagesList` of `debian_linux.gencontrol`.

`Package._fields` names the class of each known field and `Package.__setitem__`
converts to it. Here the class of a field is its type: a text field holds a text,
a relation field a `PackageRelation`.
-/

namespace DebianKernel.Debian

/-! ## Fields -/

/-- The fields of class `six.text_type` in `_fields`, and any unknown field. -/
inductive TextField
  | package | source | section | priority | maintainer | uploaders | standardsVersion
  | other (name : Text)
  deriving DecidableEq, Repr

/-- The fields of class `PackageRelation` in `_fields`, in order. -/
inductive RelationField
  | buildDepends | buildDependsIndep
  | provides | preDepends | depends | recommends | suggests | replaces | breaks | conflicts
  deriving DecidableEq, Repr

/-- `PackageArchitecture`, a set of architecture names. -/
abbrev PackageArchitecture := List Text

namespace PackageArchitecture

/-- `PackageArchitecture.add`. -/
def add (self : PackageArchitecture) (value : Text) : PackageArchitecture :=
  List.insert value self

/-- `PackageArchitecture(value)` for a string, by way of `extend`. -/
def ofText (value : Text) : PackageArchitecture :=
  if value = [] then []
  else ((Text.strip value).splitOnP Text.isSpace).foldl add []

end PackageArchitecture

/-- `PackageDescription`. -/
structure PackageDescription where
  short : List Text
  long : List Text
  deriving DecidableEq, Repr

/-- `Package`, a dictionary from field names to values of the class of the field. -/
structure Package where
  text : OrderedDict TextField Text
  architecture : Option PackageArchitecture
  relation : OrderedDict RelationField PackageRelation
  description : Option PackageDescription

/-- `PackagesList`, the stanzas of the control file by package name. -/
abbrev PackagesList := OrderedDict Text Package

/-- An architecture name, as `debian/config/defines` lists them. -/
structure Architecture where
  name : Text
  nonempty : name ≠ []
  noSpace : ∀ c ∈ name, Text.isSpace c = false

/-- Splitting an architecture name at blanks leaves the name. -/
theorem ofText_architecture (a : Architecture) : PackageArchitecture.ofText a.name = [a.name] := by
  have hsplit : a.name.splitOnP Text.isSpace = [a.name] :=
    List.splitOnP_eq_singleton a.noSpace
  rw [PackageArchitecture.ofText, if_neg a.nonempty, Text.strip_of_no_space a.noSpace, hsplit]
  rfl

end DebianKernel.Debian
