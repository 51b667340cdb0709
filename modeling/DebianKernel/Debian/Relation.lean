import DebianKernel.Lib.Clause
import DebianKernel.Lib.Text
import Mathlib.Data.List.Induction

/-!
# Package relations

The relation classes of `debian_linux.debian`. A relation (`Depends`, `Breaks`,
...) is a list of groups, a group a list of alternatives, an alternative a
package name with an optional version constraint and a list of architectures.

`PackageRelation.append` does not always append. It looks for a group that names
the same packages and versions and, when it finds one, only adds the new
architectures to it. The search reads neither operators nor the alternatives
beyond the shorter group, and a restricted alternative stays restricted.

Groups are values here. `_update_arches` changes the entries in place, which
comes to the same as long as no entry object stands in two groups.

Results:
1. `append_faithful_iff`: on one architecture, exactly when `append` keeps the
   meaning of both sides, and what follows for a whole history of appends.
2. `append_loses_relation`: three appends that change the meaning.
-/

namespace DebianKernel.Debian

/-! ## The classes -/

/-- `PackageRelationEntry._operator`. -/
inductive Operator
  | lt | le | eq | ne | ge | gt
  deriving DecidableEq, Repr

/-- One alternative. `arches` is empty when it applies on every architecture. -/
structure PackageRelationEntry where
  name : Text
  operator : Option Operator
  version : Option Text
  arches : List Text
  deriving DecidableEq, Repr

abbrev PackageRelationGroup := List PackageRelationEntry

abbrev PackageRelation := List PackageRelationGroup

namespace PackageRelationGroup

/-- `PackageRelationGroup._search_value`: returns the group itself or `None`.
The loop runs over `zip(self, value)`, so it stops with the shorter group. -/
def searchValue (self value : PackageRelationGroup) : Option PackageRelationGroup :=
  if (self.zip value).all fun p => p.1.name = p.2.name ∧ p.1.version = p.2.version
  then some self else none

/-- The inner loop of `_update_arches`: append each architecture that is missing. -/
def addArches (arches new : List Text) : List Text :=
  new.foldl (fun acc arch => if arch ∈ acc then acc else acc ++ [arch]) arches

/-- The body of `_update_arches` for one pair of alternatives. -/
def updateEntry (i j : PackageRelationEntry) : PackageRelationEntry :=
  if i.arches = [] then i else { i with arches := addArches i.arches j.arches }

/-- `PackageRelationGroup._update_arches`: the alternatives beyond `zip` stay. -/
def updateArches : PackageRelationGroup → PackageRelationGroup → PackageRelationGroup
  | i :: self, j :: value => updateEntry i j :: updateArches self value
  | self, _ => self

end PackageRelationGroup

/-- The truth value of `i._search_value(value)`: a `None` and an empty list are false. -/
def PackageRelationGroup.isMatch (self value : PackageRelationGroup) : Bool :=
  match self.searchValue value with
  | some found => !found.isEmpty
  | none => false

namespace PackageRelation

/-- `PackageRelation._search_value`: the position of the first matching group. -/
def searchValue (self : PackageRelation) (value : PackageRelationGroup) : Option Nat :=
  self.findIdx? fun i => i.isMatch value

/-- `PackageRelation.append` for a group. -/
def append (self : PackageRelation) (value : PackageRelationGroup) : PackageRelation :=
  match self.searchValue value with
  | some j => self.modify j fun i => i.updateArches value
  | none => self ++ [value]

/-- `PackageRelation.extend` for a list of groups. -/
def extend (self : PackageRelation) (value : List PackageRelationGroup) : PackageRelation :=
  value.foldl append self

end PackageRelation

/-! ## The meaning on one architecture -/

/-- What an alternative asks for: a name, an operator and a version. -/
abbrev Atom := Text × Option Operator × Option Text

namespace PackageRelationEntry

def atom (e : PackageRelationEntry) : Atom := (e.name, e.operator, e.version)

/-- The alternative applies on the architecture `a`. -/
def active (e : PackageRelationEntry) (a : Text) : Bool := e.arches = [] ∨ a ∈ e.arches

end PackageRelationEntry

namespace PackageRelationGroup

/-- The alternatives of the group that apply on `a`. -/
def atoms (g : PackageRelationGroup) (a : Text) : List Atom :=
  (g.filter fun e => e.active a).map (·.atom)

/-- All alternatives, without their architectures. -/
def alternatives (g : PackageRelationGroup) : List Atom := g.map (·.atom)

/-- Every alternative of the group applies on `a`. -/
def AllActive (g : PackageRelationGroup) (a : Text) : Prop := ∀ e ∈ g, e.active a = true

/-- The group holds on `a`: it has no alternative there, or one that is true. -/
def Holds (g : PackageRelationGroup) (v : Atom → Prop) (a : Text) : Prop :=
  g.atoms a ≠ [] → ∃ x ∈ g.atoms a, v x

/-- The alternatives of `self` that apply on `a`, or would once the lists of
`value` at the same positions are added to the lists of `self`. -/
def joined : PackageRelationGroup → PackageRelationGroup → Text → List Atom
  | i :: self, j :: value, a =>
    if i.active a ∨ a ∈ j.arches then i.atom :: joined self value a else joined self value a
  | self, _, a => atoms self a

end PackageRelationGroup

namespace PackageRelation

def Holds (r : PackageRelation) (v : Atom → Prop) (a : Text) : Prop :=
  ∀ g ∈ r, g.Holds v a

/-- Some group of `r` asks on `a` for one of the atoms `C`, or for less choice. -/
def Asks (r : PackageRelation) (a : Text) (C : List Atom) : Prop :=
  ∃ h ∈ r, h.atoms a ≠ [] ∧ h.atoms a ⊆ C

/-- On the architecture `a`, the group `i` of a relation whose other groups are
`others` can take in `g`. The alternatives of `i`, joined with the new
architectures, must (1) be alternatives of `g` there, (2) be those `i` had there,
and (3) where `i` said nothing be all those of `g`; each unless another group
asks for it anyway. -/
def TakesIn (others : PackageRelation) (i g : PackageRelationGroup) (a : Text) : Prop :=
  (g.atoms a ≠ [] → others.Asks a (g.atoms a) ∨ (i.joined g a ≠ [] ∧ i.joined g a ⊆ g.atoms a)) ∧
  (i.atoms a ≠ [] → others.Asks a (i.atoms a) ∨ i.joined g a ⊆ i.atoms a) ∧
  (i.joined g a ≠ [] → i.atoms a = [] →
    others.Asks a (i.joined g a) ∨ (g.atoms a ≠ [] ∧ g.atoms a ⊆ i.joined g a))

/-- On the architecture `a`, no group of `r` is taken for `g`, or one that can take it in. -/
def MergesExactly (r : PackageRelation) (g : PackageRelationGroup) (a : Text) : Prop :=
  ∀ j ∈ r.searchValue g, TakesIn (r.eraseIdx j) (r.getD j []) g a

instance (r : PackageRelation) (a : Text) (C : List Atom) : Decidable (r.Asks a C) :=
  inferInstanceAs (Decidable (∃ h ∈ r, h.atoms a ≠ [] ∧ ∀ ⦃x⦄, x ∈ h.atoms a → x ∈ C))

set_option synthInstance.maxSize 512 in
instance (others : PackageRelation) (i g : PackageRelationGroup) (a : Text) :
    Decidable (TakesIn others i g a) :=
  inferInstanceAs (Decidable (_ ∧ _))

instance (r : PackageRelation) (g : PackageRelationGroup) (a : Text) :
    Decidable (r.MergesExactly g a) :=
  inferInstanceAs (Decidable (∀ j ∈ r.searchValue g, _))

end PackageRelation

/-! ## Helpers -/

namespace RelationLemmas

open PackageRelationGroup PackageRelation

theorem mem_addArches {arches new : List Text} {a : Text} :
    a ∈ addArches arches new ↔ a ∈ arches ∨ a ∈ new := by
  unfold addArches
  induction new generalizing arches with
  | nil => simp
  | cons b new ih =>
    rw [List.foldl_cons, ih]
    split
    · next hb =>
      constructor
      · rintro (h | h)
        · exact .inl h
        · exact .inr (List.mem_cons_of_mem _ h)
      · rintro (h | h)
        · exact .inl h
        · rcases List.mem_cons.mp h with rfl | h
          · exact .inl hb
          · exact .inr h
    · simp only [List.mem_append, List.mem_cons, List.not_mem_nil, or_false, or_assoc]

@[simp] theorem updateEntry_atom (i j : PackageRelationEntry) :
    (updateEntry i j).atom = i.atom := by
  unfold updateEntry
  split <;> rfl

/-- An updated alternative applies on `a` exactly when it did or `j` lists `a`. -/
theorem updateEntry_active (i j : PackageRelationEntry) (a : Text) :
    (updateEntry i j).active a = true ↔ i.active a = true ∨ a ∈ j.arches := by
  unfold updateEntry PackageRelationEntry.active
  by_cases hi : i.arches = []
  · simp [hi]
  · have hne : addArches i.arches j.arches ≠ [] := by
      obtain ⟨b, bs, hb⟩ := List.exists_cons_of_ne_nil hi
      exact List.ne_nil_of_mem (mem_addArches.mpr (.inl (by rw [hb]; exact List.mem_cons_self)))
    simp [hi, hne, mem_addArches]

theorem updateArches_atoms (i g : PackageRelationGroup) (a : Text) :
    (i.updateArches g).atoms a = i.joined g a := by
  induction i generalizing g with
  | nil => cases g <;> rfl
  | cons e i ih =>
    cases g with
    | nil => rfl
    | cons f g =>
      have htail := ih g
      unfold atoms at htail
      by_cases h : e.active a = true ∨ a ∈ f.arches
      · have hact := (updateEntry_active e f a).mpr h
        simp [updateArches, joined, atoms, hact, h, htail]
      · have hact : (updateEntry e f).active a = false := by
          rw [← Bool.not_eq_true, updateEntry_active]
          exact h
        simp [updateArches, joined, atoms, hact, h, htail]

theorem atoms_subset_joined (i g : PackageRelationGroup) (a : Text) :
    i.atoms a ⊆ i.joined g a := by
  induction i generalizing g with
  | nil => simp [atoms]
  | cons e i ih =>
    cases g with
    | nil => exact List.Subset.refl _
    | cons f g =>
      have htail := ih g
      unfold atoms at htail
      by_cases he : e.active a = true
      · simp only [joined, atoms, he, List.filter_cons_of_pos, List.map_cons, true_or, if_true]
        exact List.cons_subset_cons _ htail
      · rw [atoms, List.filter_cons_of_neg (by simpa using he), joined]
        split
        · exact List.subset_cons_of_subset _ htail
        · exact htail

@[simp] theorem updateArches_alternatives (i g : PackageRelationGroup) :
    (i.updateArches g).alternatives = i.alternatives := by
  induction i generalizing g with
  | nil => cases g <;> rfl
  | cons e i ih =>
    cases g with
    | nil => rfl
    | cons f g =>
      have htail := ih g
      unfold alternatives at htail
      simp [updateArches, alternatives, htail]

/-! ### Search and append, group by group -/

theorem searchValue_cons (i : PackageRelationGroup) (r : PackageRelation)
    (g : PackageRelationGroup) :
    PackageRelation.searchValue (i :: r) g =
      if i.isMatch g then some 0 else (r.searchValue g).map (· + 1) := by
  simp [PackageRelation.searchValue, List.findIdx?_cons]

@[simp] theorem append_nil (g : PackageRelationGroup) : append [] g = [g] := rfl

theorem append_cons (i : PackageRelationGroup) (r : PackageRelation)
    (g : PackageRelationGroup) :
    append (i :: r) g = if i.isMatch g then i.updateArches g :: r else i :: append r g := by
  unfold append
  rw [searchValue_cons]
  by_cases h : i.isMatch g = true
  · simp [h]
  · cases hs : r.searchValue g <;> simp [h]

/-- The found group, the rest of the relation, and the relation after `append`. -/
theorem append_found {r : PackageRelation} {g : PackageRelationGroup} {j : Nat}
    (h : r.searchValue g = some j) :
    ∃ pre i post, r = pre ++ i :: post ∧ r.getD j [] = i ∧ r.eraseIdx j = pre ++ post ∧
      append r g = pre ++ i.updateArches g :: post := by
  obtain ⟨hj, _, _⟩ := List.findIdx?_eq_some_iff_getElem.mp h
  refine ⟨r.take j, r[j], r.drop (j + 1), ?_, ?_, ?_, ?_⟩
  · rw [List.getElem_cons_drop, List.take_append_drop]
  · simp [hj]
  · exact List.eraseIdx_eq_take_drop_succ r j
  · unfold append
    simp only [h]
    exact List.modify_eq_take_cons_drop hj

/-! ### Clauses -/

/-- A list of atoms as a clause. -/
def clauseOf (l : List Atom) : Set Atom := {x | x ∈ l}

/-- What a relation asks on `a`, as a clause set. -/
def clausesOf (r : PackageRelation) (a : Text) : Set (Set Atom) :=
  {C | ∃ g ∈ r, C ∈ Clause.single (clauseOf (g.atoms a))}

theorem clauseOf_nonempty {l : List Atom} : (clauseOf l).Nonempty ↔ l ≠ [] :=
  ⟨fun ⟨_, hx⟩ => List.ne_nil_of_mem hx, fun h => List.exists_mem_of_ne_nil l h⟩

theorem clauseOf_subset {l m : List Atom} : clauseOf l ⊆ clauseOf m ↔ l ⊆ m := Iff.rfl

theorem group_holds_iff {g : PackageRelationGroup} {v : Atom → Prop} {a : Text} :
    g.Holds v a ↔ Clause.SatAll v (Clause.single (clauseOf (g.atoms a))) := by
  rw [Clause.satAll_single, clauseOf_nonempty]
  rfl

theorem holds_iff {r : PackageRelation} {v : Atom → Prop} {a : Text} :
    r.Holds v a ↔ Clause.SatAll v (clausesOf r a) := by
  constructor
  · rintro h C ⟨g, hg, hC⟩
    exact group_holds_iff.mp (h g hg) C hC
  · intro h g hg
    exact group_holds_iff.mpr fun C hC => h C ⟨g, hg, hC⟩

theorem holds_append {r s : PackageRelation} {v : Atom → Prop} {a : Text} :
    PackageRelation.Holds (r ++ s) v a ↔ r.Holds v a ∧ s.Holds v a := by
  simp only [PackageRelation.Holds, List.mem_append]
  exact ⟨fun h => ⟨fun g hg => h g (.inl hg), fun g hg => h g (.inr hg)⟩,
    fun h g hg => hg.elim (h.1 g) (h.2 g)⟩

theorem holds_cons {g : PackageRelationGroup} {r : PackageRelation} {v : Atom → Prop} {a : Text} :
    PackageRelation.Holds (g :: r) v a ↔ g.Holds v a ∧ r.Holds v a := by
  simp [PackageRelation.Holds]

theorem asks_iff {r : PackageRelation} {a : Text} {C : List Atom} :
    r.Asks a C ↔ Clause.Covers (clausesOf r a) (clauseOf C) := by
  constructor
  · rintro ⟨h, hh, hne, hsub⟩
    exact ⟨clauseOf (h.atoms a), ⟨h, hh, rfl, clauseOf_nonempty.mpr hne⟩, hsub⟩
  · rintro ⟨_, ⟨h, hh, rfl, hne⟩, hsub⟩
    exact ⟨h, hh, clauseOf_nonempty.mp hne, hsub⟩

end RelationLemmas

open RelationLemmas

/-! ## When `append` keeps the meaning -/

/-- On one architecture, `append` holds exactly when the relation and the group
did, for every truth of the atoms, if and only if `MergesExactly`. -/
theorem append_holds_iff_merges (r : PackageRelation) (g : PackageRelationGroup) (a : Text) :
    (∀ v, (r.append g).Holds v a ↔ r.Holds v a ∧ g.Holds v a) ↔ r.MergesExactly g a := by
  unfold PackageRelation.MergesExactly
  cases hs : r.searchValue g with
  | none =>
    have happ : r.append g = r ++ [g] := by simp [PackageRelation.append, hs]
    have hone : ∀ v, PackageRelation.Holds [g] v a ↔ g.Holds v a := fun v => by
      simp [PackageRelation.Holds]
    simp [happ, holds_append, hone]
  | some j =>
    obtain ⟨pre, i, post, hr, hi, hothers, happ⟩ := append_found hs
    let F := clausesOf (pre ++ post) a
    -- both sides share the groups `pre ++ post`; one clause stands for two
    have hleft : ∀ v, (r.append g).Holds v a ↔
        Clause.SatAll v (F ∪ Clause.single (clauseOf (i.joined g a))) := by
      intro v
      rw [happ, holds_append, holds_cons, Clause.satAll_union, ← holds_iff, holds_append,
        group_holds_iff, updateArches_atoms]
      exact ⟨fun h => ⟨⟨h.1, h.2.2⟩, h.2.1⟩, fun h => ⟨h.1.1, h.2, h.1.2⟩⟩
    have hright : ∀ v, (r.Holds v a ∧ g.Holds v a) ↔
        Clause.SatAll v (F ∪
          (Clause.single (clauseOf (i.atoms a)) ∪ Clause.single (clauseOf (g.atoms a)))) := by
      intro v
      rw [hr, holds_append, holds_cons, Clause.satAll_union, Clause.satAll_union, ← holds_iff,
        holds_append, group_holds_iff, group_holds_iff]
      exact ⟨fun h => ⟨⟨h.1.1, h.1.2.2⟩, h.1.2.1, h.2⟩, fun h => ⟨⟨h.1.1, h.2.1, h.1.2⟩, h.2.2⟩⟩
    have hreplace := Clause.replace_iff (F := F) (B := clauseOf (g.atoms a))
      (clauseOf_subset.mpr (atoms_subset_joined i g a))
    simp only [hleft, hright, Option.mem_some_iff, forall_eq', hi, hothers]
    refine hreplace.trans ?_
    simp only [PackageRelation.TakesIn, clauseOf_nonempty, clauseOf_subset, F, ← asks_iff,
      not_not, ne_eq]

/-- A relation built by appends that all merge exactly asks for every group. -/
theorem extend_holds_of_merges (gs : List PackageRelationGroup) (a : Text)
    (h : ∀ p g s, gs = p ++ g :: s → (PackageRelation.extend [] p).MergesExactly g a)
    (v : Atom → Prop) :
    (PackageRelation.extend [] gs).Holds v a ↔ ∀ g ∈ gs, g.Holds v a := by
  induction gs using List.reverseRecOn with
  | nil => simp [PackageRelation.extend, PackageRelation.Holds]
  | append_singleton gs g ih =>
    have hstep := (append_holds_iff_merges _ g a).mpr (h gs g [] rfl) v
    have hrun := ih fun p g' s hs => h p g' (s ++ [g]) (by rw [hs]; simp)
    have happ :
        PackageRelation.extend [] (gs ++ [g]) = (PackageRelation.extend [] gs).append g := by
      simp [PackageRelation.extend]
    rw [happ, hstep, hrun]
    simp [or_imp, forall_and]

/-- Exactly when `append` keeps the meaning on an architecture, for one call and
for every history of calls. -/
theorem append_faithful_iff (r : PackageRelation) (g : PackageRelationGroup)
    (gs : List PackageRelationGroup) (a : Text) :
    ((∀ v, (r.append g).Holds v a ↔ r.Holds v a ∧ g.Holds v a) ↔ r.MergesExactly g a) ∧
    ((∀ p g s, gs = p ++ g :: s → (PackageRelation.extend [] p).MergesExactly g a) →
      ∀ v, (PackageRelation.extend [] gs).Holds v a ↔ ∀ g ∈ gs, g.Holds v a) :=
  ⟨append_holds_iff_merges r g a, extend_holds_of_merges gs a⟩

/-- `foo (op 2) [arches]`. -/
def fooEntry (op : Option Operator) (arches : List Text) : PackageRelationEntry :=
  { name := "foo", operator := op, version := op.map fun _ => "2", arches := arches }

/-- `append` changes the meaning on amd64: `foo [i386]` followed by `foo` forgets
the second, `foo (>= 2)` followed by `foo (<= 2)` as well, and `foo | foo (= 2)`
followed by `foo` keeps the weaker first group. -/
theorem append_loses_relation :
    (¬ ∀ v, (PackageRelation.append (PackageRelation.extend [] [[fooEntry none ["i386"]]])
        [fooEntry none []]).Holds v "amd64" ↔
      (PackageRelation.extend [] [[fooEntry none ["i386"]]]).Holds v "amd64" ∧
        PackageRelationGroup.Holds [fooEntry none []] v "amd64") ∧
    (¬ ∀ v, (PackageRelation.append (PackageRelation.extend [] [[fooEntry (some .ge) []]])
        [fooEntry (some .le) []]).Holds v "amd64" ↔
      (PackageRelation.extend [] [[fooEntry (some .ge) []]]).Holds v "amd64" ∧
        PackageRelationGroup.Holds [fooEntry (some .le) []] v "amd64") ∧
    (¬ ∀ v, (PackageRelation.append
        (PackageRelation.extend [] [[fooEntry none [], fooEntry (some .eq) []]])
        [fooEntry none []]).Holds v "amd64" ↔
      (PackageRelation.extend [] [[fooEntry none [], fooEntry (some .eq) []]]).Holds v "amd64" ∧
        PackageRelationGroup.Holds [fooEntry none []] v "amd64") := by
  refine ⟨?_, ?_, ?_⟩ <;> rw [append_holds_iff_merges] <;> decide

end DebianKernel.Debian
