import DebianKernel.Debian.Package

/-!
# Merging the stanzas of several architectures

`Gencontrol.merge_packages` of `debian/bin/gencontrol.py` collects the stanzas
generated for each architecture. The first stanza of a package is taken as it
is; a later one only adds its architecture and the groups of five relation fields.
`Pre-Depends`, `Replaces` and `Breaks` of a later stanza are dropped.

The abstract side is the set of facts a packages list knows (`Knows`): which
package is listed for which architecture, and which alternatives are active
there in which field. Merging never forgets a fact (`merge_knows_mono`).

Results:
1. `merge_keeps_relations`: in every run of merges whose steps meet `StepKeeps`,
   the final list knows every fact of every stanza.
2. `merge_drops_breaks`: two stanzas with a `Breaks` field.
-/

namespace DebianKernel.Debian

open PackageRelationGroup RelationLemmas

/-! ## `merge_packages` -/

/-- The tuple of field names in `merge_packages`. -/
def mergedFields : List RelationField :=
  [.depends, .provides, .suggests, .recommends, .conflicts]

/-- The loop body over the field names. -/
def mergeField (newPackage : Package) (package : Package) (field : RelationField) : Package :=
  match newPackage.relation.get? field with
  | none => package
  | some new =>
    match package.relation.get? field with
    | some v => { package with relation := package.relation.set field (v.extend new) }
    | none => { package with relation := package.relation.set field new }

/-- The loop body over the new stanzas. `none` is the `KeyError` of a stanza
without a `Package` field, or of an entry without an `Architecture` field. -/
def mergePackage (arch : Text) (packages : PackagesList) (newPackage : Package) :
    Option PackagesList := do
  let name ← newPackage.text.get? .package
  match packages.get? name with
  | some package =>
    let architecture ← package.architecture
    let package := { package with architecture := some (architecture.add arch) }
    return packages.set name (mergedFields.foldl (mergeField newPackage) package)
  | none =>
    return packages.set name { newPackage with architecture := some (.ofText arch) }

/-- `Gencontrol.merge_packages`. -/
def mergePackages (packages : PackagesList) (new : List Package) (arch : Text) :
    Option PackagesList :=
  new.foldlM (mergePackage arch) packages

/-- A sequence of calls of `merge_packages`. -/
def mergeCalls (packages : PackagesList) (calls : List (List Package × Architecture)) :
    Option PackagesList :=
  calls.foldlM (fun packages call => mergePackages packages call.1 call.2.name) packages

/-! ## What a packages list knows -/

/-- A package is listed for an architecture, or a relation field of it has a group
with these alternatives, all active on the architecture. -/
inductive Fact
  | listed (name arch : Text)
  | related (name : Text) (field : RelationField) (alternatives : List Atom) (arch : Text)
  deriving DecidableEq

/-- Some group of the relation has these alternatives, all active on `a`. -/
def PackageRelation.Carries (r : PackageRelation) (alternatives : List Atom) (a : Text) : Prop :=
  ∃ h ∈ r, h.alternatives = alternatives ∧ h.AllActive a

def Package.CarriesIn (p : Package) (field : RelationField) (alternatives : List Atom)
    (a : Text) : Prop :=
  ∃ r ∈ p.relation.get? field, PackageRelation.Carries r alternatives a

def Knows (packages : PackagesList) : Fact → Prop
  | .listed name a => ∃ p ∈ packages.get? name, ∃ s ∈ p.architecture, a ∈ s
  | .related name field alternatives a =>
    ∃ p ∈ packages.get? name, p.CarriesIn field alternatives a

/-- The relation fields a binary package can have. -/
def binaryFields : List RelationField :=
  [.provides, .preDepends, .depends, .recommends, .suggests, .replaces, .breaks, .conflicts]

/-- What the stanza `new` generated for the architecture `a` says. -/
def StanzaFact (new : Package) (a : Text) : Fact → Prop
  | .listed name b => new.text.get? .package = some name ∧ b = a
  | .related name field alternatives b =>
    new.text.get? .package = some name ∧ b = a ∧ field ∈ binaryFields ∧
      ∃ r ∈ new.relation.get? field, ∃ g ∈ r, alternatives = g.alternatives

instance (g : PackageRelationGroup) (a : Text) : Decidable (g.AllActive a) :=
  inferInstanceAs (Decidable (∀ e ∈ g, _))

instance (r : PackageRelation) (alternatives : List Atom) (a : Text) :
    Decidable (r.Carries alternatives a) :=
  inferInstanceAs (Decidable (∃ h ∈ r, _))

instance (p : Package) (field : RelationField) (alternatives : List Atom) (a : Text) :
    Decidable (p.CarriesIn field alternatives a) :=
  inferInstanceAs (Decidable (∃ r ∈ p.relation.get? field, _))

/-! ## When a step keeps everything -/

/-- Appending `g` leaves its alternatives active on `a`: a group of `r` has them
there already; or no group is taken for `g`; or the one taken has the same
alternatives and the restricted ones among them get `a` from `g`. -/
def AppendKeeps (r : PackageRelation) (g : PackageRelationGroup) (a : Text) : Prop :=
  r.Carries g.alternatives a ∨ (r.searchValue g = none ∧ g.AllActive a) ∨
  ∃ j ∈ r.searchValue g, alternatives (r.getD j []) = g.alternatives ∧
    ∀ p ∈ (r.getD j []).zip g, p.1.active a = true ∨ a ∈ p.2.arches

/-- `AppendKeeps` for each group, in the relation it is appended to. -/
def ExtendKeeps : PackageRelation → List PackageRelationGroup → Text → Prop
  | _, [], _ => True
  | r, g :: gs, a => AppendKeeps r g a ∧ ExtendKeeps (r.append g) gs a

/-- Every group of the stanza's field is active on `a`. -/
def FieldActive (new : Package) (field : RelationField) (a : Text) : Prop :=
  ∀ r ∈ new.relation.get? field, ∀ g ∈ r, g.AllActive a

/-- Merging a field that `merge_packages` names into the entry `package` keeps it. -/
def MergedKeeps (package new : Package) (field : RelationField) (a : Text) : Prop :=
  (package.relation.get? field = none → FieldActive new field a) ∧
  ∀ v ∈ package.relation.get? field, ∀ r ∈ new.relation.get? field, ExtendKeeps v r a

/-- Merging the field of a later stanza into the entry `package` keeps it. A field
that `merge_packages` does not name must be in the entry already. -/
def FieldKeeps (package new : Package) (field : RelationField) (a : Text) : Prop :=
  (field ∈ mergedFields → MergedKeeps package new field a) ∧
  (field ∉ mergedFields →
    ∀ r ∈ new.relation.get? field, ∀ g ∈ r, package.CarriesIn field g.alternatives a)

/-- Merging the stanza `new` of the architecture `a` into `packages` loses nothing. -/
def StepKeeps (packages : PackagesList) (new : Package) (a : Text) : Prop :=
  ∃ name ∈ new.text.get? .package,
    (packages.get? name = none → ∀ field ∈ binaryFields, FieldActive new field a) ∧
    ∀ package ∈ packages.get? name,
      package.architecture ≠ none ∧ ∀ field ∈ binaryFields, FieldKeeps package new field a

/-- The stanzas of a sequence of calls, in the order in which they are merged. -/
def stanzas (calls : List (List Package × Architecture)) : List (Package × Architecture) :=
  calls.flatMap fun call => call.1.map fun new => (new, call.2)

/-- Every step of the run from `packages` keeps everything. -/
def RunKeeps : PackagesList → List (Package × Architecture) → Prop
  | _, [] => True
  | packages, (new, a) :: rest =>
    StepKeeps packages new a.name ∧
      ∀ packages' ∈ mergePackage a.name packages new, RunKeeps packages' rest

instance (r : PackageRelation) (g : PackageRelationGroup) (a : Text) :
    Decidable (AppendKeeps r g a) :=
  inferInstanceAs (Decidable (_ ∨ _))

instance decidableExtendKeeps : (r : PackageRelation) → (gs : List PackageRelationGroup) →
    (a : Text) → Decidable (ExtendKeeps r gs a)
  | _, [], _ => isTrue trivial
  | r, g :: gs, a =>
    have := decidableExtendKeeps (r.append g) gs a
    inferInstanceAs (Decidable (AppendKeeps r g a ∧ ExtendKeeps (r.append g) gs a))

instance (new : Package) (field : RelationField) (a : Text) : Decidable (FieldActive new field a) :=
  inferInstanceAs (Decidable (∀ r ∈ new.relation.get? field, ∀ g ∈ r, g.AllActive a))

instance (package new : Package) (field : RelationField) (a : Text) :
    Decidable (MergedKeeps package new field a) :=
  inferInstanceAs (Decidable (_ ∧ ∀ v ∈ package.relation.get? field, _))

instance (package new : Package) (field : RelationField) (a : Text) :
    Decidable (FieldKeeps package new field a) :=
  inferInstanceAs (Decidable (_ ∧ (_ → ∀ r ∈ new.relation.get? field, ∀ g ∈ r, _)))

instance (packages : PackagesList) (new : Package) (a : Text) :
    Decidable (StepKeeps packages new a) :=
  inferInstanceAs (Decidable (∃ name ∈ new.text.get? .package,
    _ ∧ ∀ package ∈ packages.get? name, _))

instance decidableRunKeeps : (packages : PackagesList) →
    (cs : List (Package × Architecture)) → Decidable (RunKeeps packages cs)
  | _, [] => isTrue trivial
  | packages, (new, a) :: rest =>
    have := fun packages' => decidableRunKeeps packages' rest
    inferInstanceAs (Decidable (StepKeeps packages new a.name ∧
      ∀ packages' ∈ mergePackage a.name packages new, RunKeeps packages' rest))

instance (packages : PackagesList) : (fact : Fact) → Decidable (Knows packages fact)
  | .listed name a =>
    inferInstanceAs (Decidable (∃ p ∈ packages.get? name, ∃ s ∈ p.architecture, a ∈ s))
  | .related name field alternatives a =>
    inferInstanceAs (Decidable (∃ p ∈ packages.get? name, p.CarriesIn field alternatives a))

/-! ## Helpers -/

namespace MergeLemmas

theorem carries_cons {i : PackageRelationGroup} {r : PackageRelation} {alts : List Atom}
    {a : Text} : PackageRelation.Carries (i :: r) alts a ↔
      (i.alternatives = alts ∧ i.AllActive a) ∨ r.Carries alts a := by
  simp [PackageRelation.Carries]

/-! ### Groups only gain architectures -/

theorem allActive_cons {e : PackageRelationEntry} {g : PackageRelationGroup} {a : Text} :
    PackageRelationGroup.AllActive (e :: g) a ↔ e.active a = true ∧ g.AllActive a := by
  simp [PackageRelationGroup.AllActive]

/-- After an update every alternative is active on `a`, if each was or gets `a`. -/
theorem updateArches_allActive {i g : PackageRelationGroup} {a : Text}
    (hlen : i.length = g.length)
    (h : ∀ p ∈ i.zip g, p.1.active a = true ∨ a ∈ p.2.arches) : (i.updateArches g).AllActive a := by
  induction i generalizing g with
  | nil => cases g <;> intro e he <;> cases he
  | cons e i ih =>
    cases g with
    | nil => simp at hlen
    | cons f g =>
      rw [updateArches, allActive_cons, updateEntry_active]
      exact ⟨h (e, f) List.mem_cons_self,
        ih (by simpa using hlen) fun p hp => h p (List.mem_cons_of_mem _ hp)⟩

theorem updateArches_allActive_mono {i : PackageRelationGroup} (g : PackageRelationGroup)
    {a : Text} (h : i.AllActive a) : (i.updateArches g).AllActive a := by
  induction i generalizing g with
  | nil => cases g <;> exact h
  | cons e i ih =>
    obtain ⟨he, hi⟩ := allActive_cons.mp h
    cases g with
    | nil => exact h
    | cons f g =>
      rw [updateArches, allActive_cons, updateEntry_active]
      exact ⟨.inl he, ih g hi⟩

theorem append_carries_mono {r : PackageRelation} (g : PackageRelationGroup) {alts : List Atom}
    {a : Text} (h : r.Carries alts a) : (r.append g).Carries alts a := by
  induction r with
  | nil => obtain ⟨_, hmem, _⟩ := h; cases hmem
  | cons i r ih =>
    rw [append_cons]
    split
    · rw [carries_cons, updateArches_alternatives]
      cases carries_cons.mp h with
      | inl hi => exact .inl ⟨hi.1, updateArches_allActive_mono g hi.2⟩
      | inr hr => exact .inr hr
    · rw [carries_cons]
      cases carries_cons.mp h with
      | inl hi => exact .inl hi
      | inr hr => exact .inr (ih hr)

theorem extend_carries_mono {r : PackageRelation} (gs : List PackageRelationGroup)
    {alts : List Atom} {a : Text} (h : r.Carries alts a) : (r.extend gs).Carries alts a := by
  induction gs generalizing r with
  | nil => exact h
  | cons g gs ih => exact ih (append_carries_mono g h)

theorem length_eq_of_alternatives {i g : PackageRelationGroup}
    (h : i.alternatives = g.alternatives) : i.length = g.length := by
  have hlen := congrArg List.length h
  rwa [PackageRelationGroup.alternatives, PackageRelationGroup.alternatives, List.length_map,
    List.length_map] at hlen

theorem zip_mem_updateArches {i g : PackageRelationGroup}
    {p : PackageRelationEntry × PackageRelationEntry} (hp : p ∈ i.zip g) :
    updateEntry p.1 p.2 ∈ i.updateArches g := by
  induction i generalizing g with
  | nil => simp at hp
  | cons e i ih =>
    cases g with
    | nil => simp at hp
    | cons f g =>
      rw [List.zip_cons_cons, List.mem_cons] at hp
      cases hp with
      | inl h => rw [h]; exact List.mem_cons_self
      | inr h => exact List.mem_cons_of_mem _ (ih h)

/-- What one append keeps of the appended group, exactly. -/
theorem append_carries_iff {r : PackageRelation} {g : PackageRelationGroup} {a : Text} :
    (r.append g).Carries g.alternatives a ↔ AppendKeeps r g a := by
  unfold AppendKeeps
  cases hs : r.searchValue g with
  | none =>
    have happ : r.append g = r ++ [g] := by simp [PackageRelation.append, hs]
    simp [happ, PackageRelation.Carries, or_and_right, exists_or]
  | some j =>
    obtain ⟨pre, i, post, hr, hi, _, happ⟩ := append_found hs
    constructor
    · rintro ⟨h, hh, halts, hact⟩
      rw [happ, List.mem_append, List.mem_cons] at hh
      rcases hh with hh | rfl | hh
      · exact .inl ⟨h, by rw [hr]; simp [hh], halts, hact⟩
      · rw [updateArches_alternatives] at halts
        refine .inr (.inr ⟨j, rfl, by rw [hi]; exact halts, ?_⟩)
        intro p hp
        rw [hi] at hp
        exact (updateEntry_active p.1 p.2 a).mp (hact _ (zip_mem_updateArches hp))
      · exact .inl ⟨h, by rw [hr]; simp [hh], halts, hact⟩
    · rintro (h | ⟨hnone, _⟩ | ⟨k, hk, halts, hact⟩)
      · exact append_carries_mono g h
      · cases hnone
      · obtain rfl : j = k := Option.some.inj hk
        rw [hi] at halts hact
        refine ⟨i.updateArches g, by rw [happ]; simp, by rw [updateArches_alternatives, halts], ?_⟩
        exact updateArches_allActive (length_eq_of_alternatives halts) hact

theorem extend_carries {r : PackageRelation} {gs : List PackageRelationGroup} {a : Text}
    (h : ExtendKeeps r gs a) {g : PackageRelationGroup} (hg : g ∈ gs) :
    (r.extend gs).Carries g.alternatives a := by
  induction gs generalizing r with
  | nil => cases hg
  | cons g' gs ih =>
    obtain ⟨hfirst, hrest⟩ := h
    cases hg with
    | head => exact extend_carries_mono gs (append_carries_iff.mpr hfirst)
    | tail _ hg => exact ih hrest hg

/-! ### Fields -/

@[simp] theorem mergeField_architecture (new p : Package) (field : RelationField) :
    (mergeField new p field).architecture = p.architecture := by
  unfold mergeField
  repeat' split
  all_goals rfl

/-- A field that `mergeField` does not name is not touched. -/
theorem mergeField_get?_ne (new p : Package) {field other : RelationField} (h : other ≠ field) :
    (mergeField new p field).relation.get? other = p.relation.get? other := by
  unfold mergeField
  split
  · rfl
  · split <;> exact OrderedDict.get?_set_ne _ _ h

theorem mergeField_get?_self {new p : Package} {field : RelationField} {gs : PackageRelation}
    (h : new.relation.get? field = some gs) :
    (mergeField new p field).relation.get? field =
      some (match p.relation.get? field with | some v => v.extend gs | none => gs) := by
  unfold mergeField
  rw [h]
  cases p.relation.get? field <;> exact OrderedDict.get?_set_self _ _ _

theorem mergeField_carries_mono {new p : Package} (field : RelationField) {other : RelationField}
    {alts : List Atom} {a : Text} (h : p.CarriesIn other alts a) :
    (mergeField new p field).CarriesIn other alts a := by
  obtain ⟨r, hr, hcar⟩ := h
  by_cases heq : other = field
  · subst heq
    cases hnew : new.relation.get? other with
    | none => exact ⟨r, by simpa [mergeField, hnew] using hr, hcar⟩
    | some gs =>
      have hr' : p.relation.get? other = some r := hr
      refine ⟨r.extend gs, ?_, extend_carries_mono gs hcar⟩
      rw [mergeField_get?_self hnew, hr', Option.mem_some_iff]
  · exact ⟨r, by rw [mergeField_get?_ne new p heq]; exact hr, hcar⟩

theorem mergeFields_carries_mono {new p : Package} (fields : List RelationField)
    {other : RelationField} {alts : List Atom} {a : Text} (h : p.CarriesIn other alts a) :
    (fields.foldl (mergeField new) p).CarriesIn other alts a := by
  induction fields generalizing p with
  | nil => exact h
  | cons field fields ih => exact ih (mergeField_carries_mono field h)

@[simp] theorem mergeFields_architecture (new p : Package) (fields : List RelationField) :
    (fields.foldl (mergeField new) p).architecture = p.architecture := by
  induction fields generalizing p with
  | nil => rfl
  | cons field fields ih => rw [List.foldl_cons, ih, mergeField_architecture]

theorem mergeField_carries {new p : Package} {field : RelationField} {a : Text}
    (h : MergedKeeps p new field a) {r : PackageRelation} (hr : r ∈ new.relation.get? field)
    {g : PackageRelationGroup} (hg : g ∈ r) :
    (mergeField new p field).CarriesIn field g.alternatives a := by
  refine ⟨_, mergeField_get?_self hr, ?_⟩
  obtain ⟨hnone, hsome⟩ := h
  cases hp : p.relation.get? field with
  | none => exact ⟨g, hg, rfl, hnone hp r hr g hg⟩
  | some v => exact extend_carries (hsome v hp r hr) hg

/-- The loop reaches each merged field with the value the entry had before it. -/
theorem mergeFields_carries {new p : Package} {fields : List RelationField}
    {field : RelationField} {a : Text} (hmem : field ∈ fields) (h : MergedKeeps p new field a)
    {r : PackageRelation} (hr : r ∈ new.relation.get? field)
    {g : PackageRelationGroup} (hg : g ∈ r) :
    (fields.foldl (mergeField new) p).CarriesIn field g.alternatives a := by
  induction fields generalizing p with
  | nil => cases hmem
  | cons f fields ih =>
    rw [List.foldl_cons]
    by_cases heq : field = f
    · subst heq
      exact mergeFields_carries_mono fields (mergeField_carries h hr hg)
    · have hkeep : MergedKeeps (mergeField new p f) new field a := by
        unfold MergedKeeps
        rw [mergeField_get?_ne new p heq]
        exact h
      exact ih (List.mem_of_ne_of_mem heq hmem) hkeep

/-! ### One step -/

/-- Everything one step of `merge_packages` can do. -/
theorem mergePackage_cases {a : Text} {packages packages' : PackagesList} {new : Package}
    (h : mergePackage a packages new = some packages') :
    ∃ name, new.text.get? .package = some name ∧
      ((∃ p s, packages.get? name = some p ∧ p.architecture = some s ∧
          packages' = packages.set name
            (mergedFields.foldl (mergeField new) { p with architecture := some (s.add a) })) ∨
        (packages.get? name = none ∧
          packages' = packages.set name { new with architecture := some (.ofText a) })) := by
  cases hname : new.text.get? .package with
  | none => simp [mergePackage, hname] at h
  | some name =>
    refine ⟨name, rfl, ?_⟩
    cases hp : packages.get? name with
    | none =>
      simp only [mergePackage, hname, hp, Option.bind_eq_bind, Option.bind_some, Option.pure_def,
        Option.some.injEq] at h
      exact .inr ⟨rfl, h.symm⟩
    | some p =>
      cases hs : p.architecture with
      | none => simp [mergePackage, hname, hp, hs] at h
      | some s =>
        simp only [mergePackage, hname, hp, hs, Option.bind_eq_bind, Option.bind_some,
          Option.pure_def, Option.some.injEq] at h
        exact .inl ⟨p, s, rfl, hs, h.symm⟩

theorem mem_add {s : PackageArchitecture} {a b : Text} : b ∈ s.add a ↔ b = a ∨ b ∈ s := by
  simp [PackageArchitecture.add]

/-- Merging a stanza forgets nothing that the packages list knew. -/
theorem merge_knows_mono {a : Text} {packages packages' : PackagesList} {new : Package}
    (h : mergePackage a packages new = some packages') {fact : Fact} (hk : Knows packages fact) :
    Knows packages' fact := by
  obtain ⟨name, _, ⟨p, s, hp, hs, rfl⟩ | ⟨hp, rfl⟩⟩ := mergePackage_cases h
  · cases fact with
    | listed name' b =>
      obtain ⟨q, hq, t, ht, hb⟩ := hk
      by_cases heq : name' = name
      · subst heq
        obtain rfl : p = q := Option.some.inj (hp.symm.trans hq)
        obtain rfl : s = t := Option.some.inj (hs.symm.trans ht)
        exact ⟨_, OrderedDict.get?_set_self _ _ _, s.add a, by simp, mem_add.mpr (.inr hb)⟩
      · exact ⟨q, by rw [OrderedDict.get?_set_ne _ _ heq]; exact hq, t, ht, hb⟩
    | related name' field alts b =>
      obtain ⟨q, hq, hcar⟩ := hk
      by_cases heq : name' = name
      · subst heq
        obtain rfl : p = q := Option.some.inj (hp.symm.trans hq)
        exact ⟨_, OrderedDict.get?_set_self _ _ _, mergeFields_carries_mono _ hcar⟩
      · exact ⟨q, by rw [OrderedDict.get?_set_ne _ _ heq]; exact hq, hcar⟩
  · have hother : ∀ {name' : Text} {q : Package}, q ∈ packages.get? name' → name' ≠ name := by
      intro name' q hq heq
      subst heq
      rw [hp] at hq
      cases hq
    cases fact with
    | listed name' b =>
      obtain ⟨q, hq, rest⟩ := hk
      exact ⟨q, by rw [OrderedDict.get?_set_ne _ _ (hother hq)]; exact hq, rest⟩
    | related name' field alts b =>
      obtain ⟨q, hq, rest⟩ := hk
      exact ⟨q, by rw [OrderedDict.get?_set_ne _ _ (hother hq)]; exact hq, rest⟩

/-- A step that meets `StepKeeps` succeeds, and afterwards its stanza is known. -/
theorem step_knows {packages : PackagesList} {new : Package} {a : Architecture}
    (h : StepKeeps packages new a.name) :
    ∃ packages', mergePackage a.name packages new = some packages' ∧
      ∀ fact, StanzaFact new a.name fact → Knows packages' fact := by
  obtain ⟨name, hname, hfirst, hlater⟩ := h
  have hname' : new.text.get? .package = some name := hname
  cases hp : packages.get? name with
  | none =>
    refine ⟨_, by simp [mergePackage, hname', hp]; rfl, ?_⟩
    intro fact hfact
    cases fact with
    | listed name' b =>
      obtain ⟨hn, rfl⟩ := hfact
      obtain rfl : name = name' := Option.some.inj (hname'.symm.trans hn)
      refine ⟨_, OrderedDict.get?_set_self _ _ _, _, rfl, ?_⟩
      rw [ofText_architecture]
      exact List.mem_singleton.mpr rfl
    | related name' field alts b =>
      obtain ⟨hn, rfl, hfield, r, hr, g, hg, rfl⟩ := hfact
      obtain rfl : name = name' := Option.some.inj (hname'.symm.trans hn)
      exact ⟨_, OrderedDict.get?_set_self _ _ _, r, hr, g, hg, rfl,
        hfirst hp field hfield r hr g hg⟩
  | some p =>
    obtain ⟨harch, hfields⟩ := hlater p hp
    obtain ⟨s, hs⟩ := Option.ne_none_iff_exists'.mp harch
    refine ⟨_, by simp [mergePackage, hname', hp, hs]; rfl, ?_⟩
    intro fact hfact
    cases fact with
    | listed name' b =>
      obtain ⟨hn, rfl⟩ := hfact
      obtain rfl : name = name' := Option.some.inj (hname'.symm.trans hn)
      exact ⟨_, OrderedDict.get?_set_self _ _ _, s.add a.name, by simp, mem_add.mpr (.inl rfl)⟩
    | related name' field alts b =>
      obtain ⟨hn, rfl, hfield, r, hr, g, hg, rfl⟩ := hfact
      obtain rfl : name = name' := Option.some.inj (hname'.symm.trans hn)
      refine ⟨_, OrderedDict.get?_set_self _ _ _, ?_⟩
      obtain ⟨hmerged, hdropped⟩ := hfields field hfield
      by_cases hmem : field ∈ mergedFields
      · exact mergeFields_carries (p := { p with architecture := some (s.add a.name) }) hmem
          (hmerged hmem) hr hg
      · exact mergeFields_carries_mono _ (hdropped hmem r hr g hg)

/-- The calls of a run merge their stanzas one after the other. -/
theorem mergeCalls_eq (packages : PackagesList) (calls : List (List Package × Architecture)) :
    mergeCalls packages calls =
      (stanzas calls).foldlM (fun packages c => mergePackage c.2.name packages c.1) packages := by
  induction calls generalizing packages with
  | nil => rfl
  | cons call calls ih =>
    rw [stanzas, List.flatMap_cons, List.foldlM_append, List.foldlM_map, mergeCalls,
      List.foldlM_cons]
    exact congrArg _ (funext ih)

/-- What a list knows after some steps of a run it knows at the end. -/
theorem run_knows_mono {packages final : PackagesList} {cs : List (Package × Architecture)}
    (h : cs.foldlM (fun packages c => mergePackage c.2.name packages c.1) packages = some final)
    {fact : Fact} (hk : Knows packages fact) : Knows final fact := by
  induction cs generalizing packages with
  | nil => exact Option.some.inj h ▸ hk
  | cons c cs ih =>
    rw [List.foldlM_cons] at h
    obtain ⟨packages', hstep, hrest⟩ := Option.bind_eq_some_iff.mp h
    exact ih hrest (merge_knows_mono hstep hk)

theorem run_knows {packages : PackagesList} {cs : List (Package × Architecture)}
    (h : RunKeeps packages cs) :
    ∃ final, cs.foldlM (fun packages c => mergePackage c.2.name packages c.1) packages =
        some final ∧
      ∀ c ∈ cs, ∀ fact, StanzaFact c.1 c.2.name fact → Knows final fact := by
  induction cs generalizing packages with
  | nil => exact ⟨packages, rfl, by simp⟩
  | cons c cs ih =>
    obtain ⟨hstep, hrest⟩ := h
    obtain ⟨packages', hmerge, hknown⟩ := step_knows hstep
    obtain ⟨final, hfinal, hlater⟩ := ih (hrest packages' hmerge)
    refine ⟨final, by rw [List.foldlM_cons, hmerge]; exact hfinal, ?_⟩
    intro d hd fact hfact
    cases hd with
    | head => exact run_knows_mono hfinal (hknown fact hfact)
    | tail _ hd => exact hlater d hd fact hfact

end MergeLemmas

open MergeLemmas

/-! ## No relation is lost in a run that meets the condition -/

/-- In every run of `merge_packages` whose steps meet `StepKeeps`, the calls
succeed and the final list has, for each stanza merged for an architecture `a`,
the architecture `a` and every group of every relation field, active on `a`. -/
theorem merge_keeps_relations (packages : PackagesList)
    (calls : List (List Package × Architecture)) (h : RunKeeps packages (stanzas calls)) :
    ∃ final, mergeCalls packages calls = some final ∧
      ∀ call ∈ calls, ∀ new ∈ call.1, ∀ fact, StanzaFact new call.2.name fact →
        Knows final fact := by
  obtain ⟨final, hfinal, hknown⟩ := run_knows h
  refine ⟨final, by rw [mergeCalls_eq, hfinal], ?_⟩
  intro call hcall new hnew fact hfact
  have hmem : (new, call.2) ∈ stanzas calls :=
    List.mem_flatMap.mpr ⟨call, hcall, List.mem_map_of_mem hnew⟩
  exact hknown _ hmem fact hfact

/-- A stanza of `linux-image` with one relation field `foo [arches]`. -/
def imageStanza (field : RelationField) (arches : List Text) : Package where
  text := .set .empty .package "linux-image"
  architecture := none
  relation := .set .empty field [[fooEntry none arches]]
  description := none

def amd64 : Architecture := ⟨"amd64", by decide, Text.forall_mem_of_all rfl⟩
def i386 : Architecture := ⟨"i386", by decide, Text.forall_mem_of_all rfl⟩

/-- `merge_keeps_relations` on a `Depends` field restricted per architecture. -/
theorem merge_keeps_depends : ∃ final,
    mergeCalls .empty [([imageStanza .depends ["amd64"]], amd64),
        ([imageStanza .depends ["i386"]], i386)] = some final ∧
      ∀ call ∈ [([imageStanza .depends ["amd64"]], amd64), ([imageStanza .depends ["i386"]], i386)],
        ∀ new ∈ call.1, ∀ fact, StanzaFact new call.2.name fact → Knows final fact :=
  merge_keeps_relations .empty _ (by decide)

/-- The `Breaks` field of the second stanza is lost: after merging the stanzas for
amd64 and i386, no group of `Breaks` is active on i386. -/
theorem merge_drops_breaks : ∃ final,
    mergeCalls .empty [([imageStanza .breaks ["amd64"]], amd64),
        ([imageStanza .breaks ["i386"]], i386)] = some final ∧
      StanzaFact (imageStanza .breaks ["i386"]) "i386"
        (.related "linux-image" .breaks [("foo", none, none)] "i386") ∧
      ¬ Knows final (.related "linux-image" .breaks [("foo", none, none)] "i386") :=
  ⟨_, rfl, ⟨rfl, rfl, by decide, _, rfl, _, List.mem_singleton.mpr rfl, rfl⟩, by decide⟩

end DebianKernel.Debian
