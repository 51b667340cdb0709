import DebianKernel.Debian.Relation
import DebianKernel.Lib.MapM
import DebianKernel.Lib.Pattern
import DebianKernel.Lib.Split

/-!
# Relations as text

Reading and printing of package relations. A relation that is read may merge groups, and then
the architectures of several lists stand in one list. White space is that of ASCII, also where
the source strips and splits unicode texts.

Results:
1. `ofText_toText_entry`: what is read for a printed alternative.
2. `ofText_toText`: what is read for a printed relation.
3. `relation_round_trip_iff`: the texts whose relation is read back as it was printed.
-/

namespace DebianKernel.Debian

open Text Pattern MapM

/-! ## Alternatives -/

/-- `operators_text`. -/
def Operator.text : Operator → Text
  | .lt => "<<"
  | .le => "<="
  | .eq => "="
  | .ne => "!="
  | .ge => ">="
  | .gt => ">>"

namespace PackageRelationEntry

/-- `<<|<=|=|!=|>=|>>`. -/
def operatorRe : Pattern Operator :=
  alt (do lit "<<"; pure .lt)
  (alt (do lit "<="; pure .le)
  (alt (do lit "="; pure .eq)
  (alt (do lit "!="; pure .ne)
  (alt (do lit ">="; pure .ge)
  (do lit ">>"; pure .gt)))))

/-- `\s*([^)]+)\)`. -/
def versionEndRe : Pattern Text := do
  let _ ← run isSpace
  let version ← run1 (· ≠ ')')
  lit ")"
  pure version

/-- ` \((<<|<=|=|!=|>=|>>)\s*([^)]+)\)`. -/
def constraintRe : Pattern (Operator × Text) := do
  lit " ("
  let operator ← operatorRe
  let version ← versionEndRe
  pure (operator, version)

/-- ` \[([^]]+)\]`. -/
def archesRe : Pattern Text := do
  lit " ["
  let arches ← run1 (· ≠ ']')
  lit "]"
  pure arches

/-- `(?: \[([^]]+)\])?$`. -/
def endRe : Pattern (Option Text) := do
  let arches ← opt archesRe
  atEnd
  pure arches

/-- `_re`. -/
def entryRe : Pattern (Text × Option (Operator × Text) × Option Text) := do
  let name ← run1 (!isSpace ·)
  let version ← opt constraintRe
  let arches ← endRe
  pure (name, version, arches)

/-- `PackageRelationEntry.parse`. -/
def ofText (value : Text) : Option PackageRelationEntry :=
  (first entryRe value).map fun ((name, version, arches), _) =>
    { name := name
      operator := version.map (·.1)
      version := version.map (·.2)
      arches := match arches with
        | some arches => splitBlanks arches
        | none => [] }

/-- The version constraint in `__str__`. -/
def constraintText (operator : Option Operator) (version : Option Text) : Text :=
  match operator, version with
  | some operator, some version => " (" ++ operator.text ++ " " ++ version ++ ")"
  | _, _ => []

/-- The architectures in `__str__`. -/
def archesText (arches : List Text) : Text :=
  if arches = [] then [] else " [" ++ ([' '].intercalate arches : Text) ++ "]"

/-- `PackageRelationEntry.__str__`. -/
def toText (e : PackageRelationEntry) : Text :=
  e.name ++ constraintText e.operator e.version ++ archesText e.arches

end PackageRelationEntry

/-! ## Groups and relations -/

namespace PackageRelationGroup

/-- `PackageRelationGroup` of a text. -/
def ofText (value : Text) : Option PackageRelationGroup :=
  if value = [] then some []
  else (((strip value).splitOn '|').map strip).mapM PackageRelationEntry.ofText

def toText (g : PackageRelationGroup) : Text :=
  (" | " : Text).intercalate (g.map (·.toText))

end PackageRelationGroup

namespace PackageRelation

/-- The items of a relation text. -/
def items (value : Text) : List Text := ((strip value).splitOn ',').map strip

/-- `PackageRelation` of a text. -/
def ofText (value : Text) : Option PackageRelation :=
  if value = [] then some []
  else (items value).foldlM (fun r item => (PackageRelationGroup.ofText item).map r.append) []

def toText (r : PackageRelation) : Text := (", " : Text).intercalate (r.map (·.toText))

end PackageRelation

/-! ## When a relation is read back -/

/-- The groups of a text, as they are written. -/
def writtenGroups (text : Text) : Option (List PackageRelationGroup) :=
  (PackageRelation.items text).mapM PackageRelationGroup.ofText

def HasDependency (text : Text) : Prop := ∃ item ∈ PackageRelation.items text, item ≠ []

instance (text : Text) : Decidable (HasDependency text) :=
  inferInstanceAs (Decidable (∃ item ∈ PackageRelation.items text, item ≠ []))

/-- What the architectures of an alternative need, where `more` come from groups that are merged
into its own. A blank behind a bracket, or before one, counts as an empty name. -/
structure ArchesClean (own more : List Text) : Prop where
  /-- Nothing new comes behind an own list with a blank at its end. -/
  behindOwn : own.getLast? = some [] → ∀ name ∈ more, name ∈ own
  /-- Nothing new comes behind the first blank at an end of the other lists. -/
  behindMore : [] ∉ own → ∀ pre post, more = pre ++ [] :: post → ∀ name ∈ post, name ≠ [] →
    name ∈ own ∨ name ∈ pre

/-- What the alternatives of a group need. -/
def GroupClean (g : PackageRelationGroup) (later : List PackageRelationGroup) : Prop :=
  ∀ (k : Nat) (e : PackageRelationEntry), g[k]? = some e → e.arches ≠ [] →
    ArchesClean e.arches ((later.filterMap fun h => h[k]?).flatMap (·.arches))

/-- The groups that are not merged into `g`. -/
def unmatched (g : PackageRelationGroup) (gs : List PackageRelationGroup) :
    List PackageRelationGroup := gs.filter (!g.isMatch ·)

theorem length_unmatched_le (g : PackageRelationGroup) (gs : List PackageRelationGroup) :
    (unmatched g gs).length ≤ gs.length := List.length_filter_le _ _

/-- The first group takes in the later ones it matches, then the next group that is left. -/
def GroupsClean : List PackageRelationGroup → Prop
  | [] => True
  | g :: gs => GroupClean g (gs.filter (g.isMatch ·)) ∧ GroupsClean (unmatched g gs)
termination_by gs => gs.length
decreasing_by exact Nat.lt_succ_of_le (length_unmatched_le g gs)

/-- No new architecture gets behind a blank at an end of its list. -/
def RelationClean (text : Text) : Prop := ∀ gs, writtenGroups text = some gs → GroupsClean gs

namespace RelationTextLemmas

open PackageRelationEntry

/-! ## The parts of an alternative -/

/-- A version as it is read: blanks in front of it are skipped, the last one apart. -/
structure IsVersion (v : Text) : Prop where
  ne_nil : v ≠ []
  closed : ')' ∉ v
  head : ∀ c t, v = c :: t → isSpace c = true → t = []

theorem mem_operatorRe {t r : Text} {operator : Operator} :
    (operator, r) ∈ operatorRe t ↔ t = operator.text ++ r := by
  have hlit : ∀ (s : Text) (o : Operator),
      (operator, r) ∈ (do lit s; pure o : Pattern Operator) t ↔ operator = o ∧ t = s ++ r := by
    intro s o
    rw [mem_bind]
    constructor
    · rintro ⟨_, s', hs', ho⟩
      obtain ⟨rfl, rfl⟩ := mem_pure.mp ho
      exact ⟨rfl, mem_lit.mp hs'⟩
    · rintro ⟨rfl, h⟩
      exact ⟨(), r, mem_lit.mpr h, mem_pure.mpr ⟨rfl, rfl⟩⟩
  rw [operatorRe, alt, List.mem_append, alt, List.mem_append, alt, List.mem_append, alt,
    List.mem_append, alt, List.mem_append, hlit, hlit, hlit, hlit, hlit, hlit]
  cases operator <;> simp [Operator.text]

theorem first_operatorRe (operator : Operator) (r : Text) :
    first operatorRe (operator.text ++ ' ' :: r) = some (operator, ' ' :: r) := by
  cases operator <;> rfl

/-- The first closing bracket cuts a text in one way. -/
theorem cut_unique {c : Char} {u u' r r' : Text} (h : u ++ c :: r = u' ++ c :: r') (hu : c ∉ u)
    (hu' : c ∉ u') : u = u' ∧ r = r' := by
  rcases List.append_eq_append_iff.mp h with ⟨l, rfl, hl⟩ | ⟨l, rfl, hl⟩
  · cases l with
    | nil => exact ⟨(List.append_nil u).symm, (List.cons.inj hl).2⟩
    | cons d l =>
      rw [← (List.cons.inj hl).1] at hu'
      exact absurd (List.mem_append_right _ List.mem_cons_self) hu'
  · cases l with
    | nil => exact ⟨List.append_nil u', (List.cons.inj hl).2.symm⟩
    | cons d l =>
      rw [← (List.cons.inj hl).1] at hu
      exact absurd (List.mem_append_right _ List.mem_cons_self) hu

theorem mem_versionEndRe {t v r : Text} : (v, r) ∈ versionEndRe t ↔
    ∃ w, t = w ++ v ++ ')' :: r ∧ (∀ c ∈ w, isSpace c = true) ∧ v ≠ [] ∧ ')' ∉ v := by
  have hclass : (∀ c ∈ v, decide (c ≠ ')') = true) ↔ ')' ∉ v := by
    simp only [decide_eq_true_eq]
    exact ⟨fun h hmem => h _ hmem rfl, fun h c hc heq => h (heq ▸ hc)⟩
  rw [versionEndRe, mem_bind]
  constructor
  · rintro ⟨w, s₁, hw, h₁⟩
    obtain ⟨v', s₂, hv, h₂⟩ := mem_bind.mp h₁
    obtain ⟨_, s₃, hlit, h₃⟩ := mem_bind.mp h₂
    obtain ⟨rfl, rfl⟩ := mem_pure.mp h₃
    obtain ⟨rfl, hblank⟩ := mem_run.mp hw
    obtain ⟨rfl, hne, hv⟩ := mem_run1.mp hv
    rw [mem_lit.mp hlit]
    exact ⟨w, (List.append_assoc _ _ _).symm, hblank, hne, hclass.mp hv⟩
  · rintro ⟨w, rfl, hblank, hne, hv⟩
    refine ⟨w, v ++ ')' :: r, mem_run.mpr ⟨List.append_assoc _ _ _, hblank⟩, ?_⟩
    refine mem_bind.mpr ⟨v, ')' :: r, mem_run1.mpr ⟨rfl, hne, hclass.mpr hv⟩, ?_⟩
    exact mem_bind.mpr ⟨(), r, mem_lit.mpr rfl, mem_pure.mpr ⟨rfl, rfl⟩⟩

/-- The version that is found first. -/
theorem first_versionEndRe {t v r : Text} (h : first versionEndRe t = some (v, r)) :
    IsVersion v ∧ ∃ w, t = w ++ v ++ ')' :: r ∧ ∀ c ∈ w, isSpace c = true := by
  obtain ⟨w₀, htext, hblank₀, hne₀, hv₀⟩ := mem_versionEndRe.mp (mem_of_first h)
  refine ⟨⟨hne₀, hv₀, ?_⟩, w₀, htext, hblank₀⟩
  obtain ⟨w, s, hw, hfirst, hlonger⟩ := first_run_bind h
  obtain ⟨v', s₂, hv, h₂⟩ := mem_bind.mp (mem_of_first hfirst)
  obtain ⟨_, s₃, hlit, h₃⟩ := mem_bind.mp h₂
  obtain ⟨rfl, rfl⟩ := mem_pure.mp h₃
  obtain ⟨ht, hblank⟩ := mem_run.mp hw
  obtain ⟨hs, hne, hclass⟩ := mem_run1.mp hv
  -- a blank in front of more would have been skipped
  intro c u hcu hc
  by_contra hu
  rw [hcu] at hs hclass
  have hskip : (w ++ [c], u ++ s₂) ∈ run isSpace t := by
    refine mem_run.mpr ⟨by rw [ht, hs]; simp, fun d hd => ?_⟩
    rcases List.mem_append.mp hd with hd | hd
    · exact hblank d hd
    · rw [List.mem_singleton.mp hd]
      exact hc
  have hnone := hlonger _ _ hskip (by simp)
  have hmem : (u, r) ∈ (do
      let version ← run1 (· ≠ ')')
      lit ")"
      pure version : Pattern Text) (u ++ s₂) := by
    refine mem_bind.mpr ⟨u, s₂, mem_run1.mpr ⟨rfl, hu, fun d hd => ?_⟩, ?_⟩
    · exact hclass d (List.mem_cons_of_mem _ hd)
    · exact mem_bind.mpr ⟨(), r, hlit, mem_pure.mpr ⟨rfl, rfl⟩⟩
  exact absurd (hnone ▸ hmem) List.not_mem_nil

/-- A version is found behind one blank. -/
theorem versionEndRe_first {v : Text} (hv : IsVersion v) (r : Text) :
    first versionEndRe (' ' :: v ++ ')' :: r) = some (v, r) := by
  have hmem : (v, r) ∈ versionEndRe (' ' :: v ++ ')' :: r) :=
    mem_versionEndRe.mpr ⟨[' '], rfl, Text.forall_mem_of_all (by decide), hv.ne_nil, hv.closed⟩
  obtain ⟨⟨v', r'⟩, hfirst⟩ := Option.isSome_iff_exists.mp (first_isSome.mpr ⟨_, hmem⟩)
  obtain ⟨hv', w, htext, hw⟩ := first_versionEndRe hfirst
  have hspace : ')' ∉ ' ' :: v := by
    rw [List.mem_cons, not_or]
    exact ⟨by decide, hv.closed⟩
  have hclosed : ')' ∉ w ++ v' := by
    rw [List.mem_append, not_or]
    exact ⟨fun hmem => absurd (hw _ hmem) (by decide), hv'.closed⟩
  obtain ⟨hcut, rfl⟩ := cut_unique htext hspace hclosed
  rw [hfirst]
  refine congrArg (fun v => some (v, r)) ?_
  cases w with
  | nil => 
    -- the blank would be a version of its own
    rw [List.nil_append] at hcut
    exact absurd (hv'.head ' ' v hcut.symm (by decide)) hv.ne_nil
  | cons d w =>
    obtain ⟨-, hvw⟩ := List.cons.inj hcut
    cases w with
    | nil => exact hvw.symm
    | cons c w =>
      have hnil := hv.head c (w ++ v') hvw (hw c (by simp))
      exact absurd (List.append_eq_nil_iff.mp hnil).2 hv'.ne_nil

theorem of_mem_constraintRe {t r : Text} {x : Operator × Text} (h : (x, r) ∈ constraintRe t) :
    ∃ w, t = " (" ++ x.1.text ++ w ++ x.2 ++ ')' :: r ∧ (∀ c ∈ w, isSpace c = true) ∧
      ')' ∉ x.2 := by
  obtain ⟨_, s₁, hlit, h₁⟩ := mem_bind.mp h
  obtain ⟨operator, s₂, hoperator, h₂⟩ := mem_bind.mp h₁
  obtain ⟨v, s₃, hv, h₃⟩ := mem_bind.mp h₂
  obtain ⟨rfl, rfl⟩ := mem_pure.mp h₃
  obtain ⟨w, rfl, hblank, -, hclosed⟩ := mem_versionEndRe.mp hv
  refine ⟨w, ?_, hblank, hclosed⟩
  rw [mem_lit.mp hlit, mem_operatorRe.mp hoperator]
  simp

/-- All matches end at the first closing bracket. -/
theorem constraintRe_rest {t : Text} : ∀ p ∈ constraintRe t, ∀ q ∈ constraintRe t, p.2 = q.2 := by
  have hclosed : ∀ {x : Operator × Text} {w : Text}, (∀ c ∈ w, isSpace c = true) → ')' ∉ x.2 →
      ')' ∉ " (" ++ x.1.text ++ w ++ x.2 := by
    intro x w hw hx
    have hoperator : ')' ∉ x.1.text := by cases x.1 <;> decide
    simp only [List.mem_append, not_or]
    exact ⟨⟨⟨by decide, hoperator⟩, fun hmem => absurd (hw _ hmem) (by decide)⟩, hx⟩
  intro p hp q hq
  obtain ⟨w, htext, hw, hx⟩ := of_mem_constraintRe hp
  obtain ⟨w', htext', hw', hx'⟩ := of_mem_constraintRe hq
  exact (cut_unique (htext.symm.trans htext') (hclosed hw hx) (hclosed hw' hx')).2

theorem first_constraintRe {t r : Text} {x : Operator × Text}
    (h : first constraintRe t = some (x, r)) : IsVersion x.2 := by
  obtain ⟨_, s₁, -, h₁⟩ := mem_first_bind h
  obtain ⟨operator, s₂, -, h₂⟩ := mem_first_bind h₁
  have hfirst : (first versionEndRe s₂).map (fun p => ((operator, p.1), p.2)) = some (x, r) := by
    rw [← h₂]
    exact (first_bind_pure (operator, ·) versionEndRe s₂).symm
  obtain ⟨⟨v, s₃⟩, hv, heq⟩ := Option.map_eq_some_iff.mp hfirst
  rw [← (Prod.mk.inj heq).1]
  exact (first_versionEndRe hv).1

/-- A printed constraint is found. -/
theorem constraintRe_first (operator : Operator) {v : Text} (hv : IsVersion v) (r : Text) :
    first constraintRe (constraintText (some operator) (some v) ++ r) =
      some ((operator, v), r) := by
  have htext : constraintText (some operator) (some v) ++ r =
      " (" ++ (operator.text ++ ' ' :: v ++ ')' :: r) := by
    simp [constraintText]
  rw [htext]
  refine first_bind (first_lit _ _) ?_
  have hoperator := first_operatorRe operator (v ++ ')' :: r)
  rw [← List.cons_append, ← List.append_assoc] at hoperator
  exact first_bind hoperator (first_bind (versionEndRe_first hv r) rfl)

theorem mem_archesRe {t a r : Text} :
    (a, r) ∈ archesRe t ↔ t = " [" ++ a ++ "]" ++ r ∧ a ≠ [] ∧ ']' ∉ a := by
  have hclass : (∀ c ∈ a, decide (c ≠ ']') = true) ↔ ']' ∉ a := by
    simp only [decide_eq_true_eq]
    exact ⟨fun h hmem => h _ hmem rfl, fun h c hc heq => h (heq ▸ hc)⟩
  rw [archesRe, mem_bind]
  constructor
  · rintro ⟨_, s₁, hlit, h₁⟩
    obtain ⟨a', s₂, ha, h₂⟩ := mem_bind.mp h₁
    obtain ⟨_, s₃, hend, h₃⟩ := mem_bind.mp h₂
    obtain ⟨rfl, rfl⟩ := mem_pure.mp h₃
    obtain ⟨rfl, hne, ha⟩ := mem_run1.mp ha
    rw [mem_lit.mp hlit, mem_lit.mp hend]
    exact ⟨by simp, hne, hclass.mp ha⟩
  · rintro ⟨rfl, hne, ha⟩
    refine ⟨(), a ++ ("]" ++ r), mem_lit.mpr (by simp), ?_⟩
    refine mem_bind.mpr ⟨a, "]" ++ r, mem_run1.mpr ⟨rfl, hne, hclass.mpr ha⟩, ?_⟩
    exact mem_bind.mpr ⟨(), r, mem_lit.mpr rfl, mem_pure.mpr ⟨rfl, rfl⟩⟩

/-! ## Reading an alternative -/

/-- A text that does not have the separators of groups and alternatives. -/
def Plain (t : Text) : Prop := ',' ∉ t ∧ '|' ∉ t

theorem plain_append {t u : Text} : Plain (t ++ u) ↔ Plain t ∧ Plain u := by
  simp only [Plain, List.mem_append, not_or]
  tauto

/-- What the parts of an alternative that was read are like, also when it took in others. -/
structure WellFormed (e : PackageRelationEntry) : Prop where
  nameNe : e.name ≠ []
  name : ∀ c ∈ e.name, isSpace c = false
  version : (e.operator = none ∧ e.version = none) ∨
    ∃ o v, e.operator = some o ∧ e.version = some v ∧ IsVersion v
  arches : ∀ a ∈ e.arches, ∀ c ∈ a, isSpace c = false ∧ c ≠ ']'
  archesNe : e.arches ≠ [[]]
  plain : ∀ t, t = e.name ∨ t ∈ e.version ∨ t ∈ e.arches → Plain t

/-- The constraint and the architectures behind a name. -/
theorem first_entryEnd {name : Text} {s₁ r : Text}
    {x : Text × Option (Operator × Text) × Option Text}
    (h : first (opt constraintRe >>= fun version =>
      endRe >>= fun arches => pure (name, version, arches)) s₁ = some (x, r)) :
    x.1 = name ∧ ∃ s₂, (x.2.2, r) ∈ endRe s₂ ∧ (x.2.1 = none ∧ s₁ = s₂ ∨
      ∃ o v w, x.2.1 = some (o, v) ∧ IsVersion v ∧
        s₁ = " (" ++ o.text ++ w ++ v ++ ')' :: s₂) := by
  have hend : ∀ (version : Option (Operator × Text)) (s : Text),
      first (endRe >>= fun arches => pure (name, version, arches)) s = some (x, r) →
      x.1 = name ∧ x.2.1 = version ∧ (x.2.2, r) ∈ endRe s := by
    intro version s hs
    rw [first_bind_pure] at hs
    obtain ⟨⟨arches, r'⟩, harches, heq⟩ := Option.map_eq_some_iff.mp hs
    obtain ⟨rfl, rfl⟩ := Prod.mk.inj heq
    exact ⟨rfl, rfl, mem_of_first harches⟩
  have hcases := first_opt_bind constraintRe_rest (fun a b s hnil => by
    refine List.eq_nil_iff_forall_not_mem.mpr fun y hy => ?_
    obtain ⟨arches, s', harches, -⟩ := mem_bind.mp hy
    have hmem : ((name, some a, arches), s') ∈ (endRe >>= fun arches =>
        (pure (name, some a, arches) : Pattern _)) s :=
      mem_bind.mpr ⟨arches, s', harches, mem_pure.mpr ⟨rfl, rfl⟩⟩
    exact absurd (hnil ▸ hmem) List.not_mem_nil) h
  rcases hcases with ⟨a, s₂, hfirst, hs₂⟩ | hnone
  · obtain ⟨hname, hversion, harches⟩ := hend (some a) s₂ hs₂
    obtain ⟨w, htext, -, -⟩ := of_mem_constraintRe (mem_of_first hfirst)
    exact ⟨hname, s₂, harches, .inr ⟨a.1, a.2, w, hversion, first_constraintRe hfirst, htext⟩⟩
  · obtain ⟨hname, hversion, harches⟩ := hend none s₁ hnone
    exact ⟨hname, s₁, harches, .inl ⟨hversion, rfl⟩⟩

theorem mem_endRe {s r : Text} {arches : Option Text} (h : (arches, r) ∈ endRe s) :
    arches = none ∨ ∃ a, arches = some a ∧ a ≠ [] ∧ ']' ∉ a ∧ s = " [" ++ a ++ "]" ++ r := by
  obtain ⟨arches', s₁, hopt, h₁⟩ := mem_bind.mp h
  obtain ⟨_, s₂, hend, h₂⟩ := mem_bind.mp h₁
  obtain ⟨rfl, rfl⟩ := mem_pure.mp h₂
  obtain ⟨rfl, -⟩ := mem_atEnd.mp hend
  rcases mem_opt.mp hopt with ⟨a, rfl, ha⟩ | ⟨rfl, -⟩
  · obtain ⟨htext, hne, hclosed⟩ := mem_archesRe.mp ha
    exact .inr ⟨a, rfl, hne, hclosed, htext⟩
  · exact .inl rfl

theorem wellFormed_of_ofText {value : Text} {e : PackageRelationEntry}
    (h : PackageRelationEntry.ofText value = some e) (hplain : Plain value) :
    WellFormed e ∧ [] ∉ e.arches.tail.dropLast := by
  obtain ⟨⟨⟨name, version, arches⟩, r⟩, hfirst, rfl⟩ := Option.map_eq_some_iff.mp h
  obtain ⟨name', s₁, hname, h₁⟩ := mem_first_bind hfirst
  obtain ⟨rfl, s₂, hend, hversion⟩ := first_entryEnd h₁
  obtain ⟨rfl, hne, hvisible⟩ := mem_run1.mp hname
  obtain ⟨hplainName, hplain₁⟩ := plain_append.mp hplain
  have hplain₂ : Plain s₂ ∧ ∀ v ∈ version.map (·.2), Plain v := by
    rcases hversion with ⟨hnone, rfl⟩ | ⟨o, v, w, hsome, -, rfl⟩
    · dsimp only at hnone
      rw [hnone]
      exact ⟨hplain₁, nofun⟩
    · dsimp only at hsome
      rw [hsome]
      rw [List.append_cons] at hplain₁
      simp only [plain_append] at hplain₁
      refine ⟨hplain₁.2, ?_⟩
      rintro _ ⟨⟩
      exact hplain₁.1.1.2
  have hversion' : (version.map (·.1) = none ∧ version.map (·.2) = none) ∨
      ∃ o v, version.map (·.1) = some o ∧ version.map (·.2) = some v ∧ IsVersion v := by
    rcases hversion with ⟨hnone, -⟩ | ⟨o, v, w, hsome, hv, -⟩
    · dsimp only at hnone
      rw [hnone]
      exact .inl ⟨rfl, rfl⟩
    · dsimp only at hsome
      rw [hsome]
      exact .inr ⟨o, v, rfl, rfl, hv⟩
  have hname' : ∀ c ∈ name, isSpace c = false := by
    intro c hc
    simpa using hvisible c hc
  rcases mem_endRe hend with hnone | ⟨a, hsome, hane, hclosed, hs₂⟩
  · dsimp only at hnone
    subst hnone
    refine ⟨⟨hne, hname', hversion', nofun, nofun, ?_⟩, List.not_mem_nil⟩
    rintro t (rfl | ht | ht)
    · exact hplainName
    · exact hplain₂.2 t ht
    · cases ht
  · dsimp only at hsome
    subst hsome
    rw [hs₂, plain_append, plain_append, plain_append] at hplain₂
    refine ⟨⟨hne, hname', hversion', ?_, fun hblank => hane (splitBlanks_eq_blank hblank), ?_⟩,
      splitBlanks_inner a⟩
    · intro w hw c hc
      obtain ⟨hspace, hmem⟩ := mem_splitBlanks hw c hc
      exact ⟨hspace, fun heq => hclosed (heq ▸ hmem)⟩
    · rintro t (rfl | ht | ht)
      · exact hplainName
      · exact hplain₂.2 t ht
      · have hsub := mem_splitBlanks ht
        exact ⟨fun hmem => hplain₂.1.1.1.2.1 (hsub _ hmem).2,
          fun hmem => hplain₂.1.1.1.2.2 (hsub _ hmem).2⟩

/-! ## Printing an alternative -/

/-- The alternative with its architectures printed and read again. -/
def reread (e : PackageRelationEntry) : PackageRelationEntry :=
  { e with arches := if e.arches = [] then [] else splitBlanks ([' '].intercalate e.arches) }

theorem endRe_first {arches : List Text} (hne : arches ≠ [[]])
    (hclosed : ∀ a ∈ arches, ∀ c ∈ a, isSpace c = false ∧ c ≠ ']') :
    first endRe (archesText arches) =
      some (if arches = [] then none else some ([' '].intercalate arches), []) := by
  rcases eq_or_ne arches [] with rfl | harches
  · rfl
  · rw [archesText, if_neg harches, if_neg harches]
    have hjoin : ([' '].intercalate arches : Text) ≠ [] :=
      intercalate_ne_nil (List.cons_ne_nil _ _) harches hne
    have hall : ∀ c ∈ ([' '].intercalate arches : Text), decide (c ≠ ']') = true := by
      intro c hc
      rcases mem_intercalate hc with hc | ⟨a, ha, hc⟩
      · rw [List.mem_singleton.mp hc]
        rfl
      · exact decide_eq_true (hclosed a ha c hc).2
    have hfirst : first archesRe (" [" ++ ([' '].intercalate arches : Text) ++ "]") =
        some ([' '].intercalate arches, []) := by
      rw [List.append_assoc]
      refine first_bind (first_lit _ _) (first_bind (first_run1 hjoin hall ?_) ?_)
      · exact Text.forall_mem_of_option (by decide)
      · exact first_bind (first_lit "]" []) rfl
    exact first_bind (first_opt hfirst) rfl

theorem archesText_cases (arches : List Text) :
    archesText arches = [] ∨ ∃ t, archesText arches = ' ' :: '[' :: t := by
  rw [archesText]
  split
  · exact .inl rfl
  · exact .inr ⟨_, rfl⟩

/-- What is read for a printed alternative. -/
theorem ofText_toText_entry {e : PackageRelationEntry} (h : WellFormed e) :
    PackageRelationEntry.ofText e.toText = some (reread e) := by
  obtain ⟨name, operator, version, arches⟩ := e
  obtain ⟨hne, hname, hversion, hclosed, harches, -⟩ := h
  dsimp only at hne hname hversion hclosed harches
  have hvisible : ∀ c ∈ name, (!isSpace c) = true := fun c hc => by rw [hname c hc]; rfl
  have hend := endRe_first harches hclosed
  have hgroups : ∃ constraint, constraint.map (·.1) = operator ∧ constraint.map (·.2) = version ∧
      first (opt constraintRe) (constraintText operator version ++ archesText arches) =
        some (constraint, archesText arches) ∧
      ∀ c ∈ (constraintText operator version ++ archesText arches).head?, (!isSpace c) = false := by
    rcases hversion with ⟨rfl, rfl⟩ | ⟨o, v, rfl, rfl, hv⟩
    · refine ⟨none, rfl, rfl, ?_, ?_⟩
      · refine first_opt_none ?_
        rcases archesText_cases arches with h | ⟨t, h⟩
        · rw [h]
          rfl
        · rw [h]
          rfl
      · rcases archesText_cases arches with h | ⟨t, h⟩
        · rw [h]
          exact nofun
        · rw [h]
          exact fun c hc => Option.some.inj hc ▸ rfl
    · refine ⟨some (o, v), rfl, rfl, first_opt (constraintRe_first o hv _), ?_⟩
      exact fun c hc => Option.some.inj hc ▸ rfl
  obtain ⟨constraint, hoperator, hversion', hopt, hhead⟩ := hgroups
  have hfirst : first entryRe (name ++ (constraintText operator version ++ archesText arches)) =
      some ((name, constraint, if arches = [] then none else some ([' '].intercalate arches)),
        []) :=
    first_bind (first_run1 hne hvisible hhead) (first_bind hopt (first_bind hend rfl))
  rw [PackageRelationEntry.ofText, PackageRelationEntry.toText]
  dsimp only
  rw [List.append_assoc, hfirst, Option.map_some, reread, ← hoperator, ← hversion']
  rcases eq_or_ne arches [] with rfl | hnil
  · rfl
  · rw [if_neg hnil, if_neg hnil]

/-- A printed alternative can stand between separators. -/
theorem toText_entry_spec {e : PackageRelationEntry} (h : WellFormed e) :
    e.toText ≠ [] ∧ Trimmed e.toText ∧ Plain e.toText := by
  have hname : Trimmed e.name :=
    ⟨fun c hc => h.name c (List.mem_of_head? hc), fun c hc => h.name c (List.mem_of_getLast? hc)⟩
  have hsingle : ∀ c, isSpace c = false → Trimmed [c] := by
    intro c hc
    refine ⟨?_, ?_⟩ <;>
    · rintro _ ⟨⟩
      exact hc
  have hconstraint : constraintText e.operator e.version = [] ∨
      ∃ m, constraintText e.operator e.version = m ++ [')'] := by
    rcases h.version with ⟨ho, hv⟩ | ⟨o, v, ho, hv, -⟩
    · rw [ho, hv]
      exact .inl rfl
    · rw [ho, hv]
      exact .inr ⟨_, rfl⟩
  have harches : archesText e.arches = [] ∨ ∃ m, archesText e.arches = m ++ [']'] := by
    rw [archesText]
    split
    · exact .inl rfl
    · exact .inr ⟨_, rfl⟩
  refine ⟨?_, ?_, ?_⟩
  · rw [PackageRelationEntry.toText, List.append_assoc]
    exact List.append_ne_nil_of_left_ne_nil h.nameNe _
  · rw [PackageRelationEntry.toText]
    rcases harches with ha | ⟨m, ha⟩
    · rw [ha, List.append_nil]
      rcases hconstraint with hc | ⟨m, hc⟩
      · rw [hc, List.append_nil]
        exact hname
      · rw [hc, ← List.append_assoc]
        exact hname.append (hsingle ')' (by decide)) h.nameNe (List.cons_ne_nil _ _)
    · rw [ha, ← List.append_assoc, List.append_assoc e.name]
      exact hname.append (hsingle ']' (by decide)) h.nameNe (List.cons_ne_nil _ _)
  · have hplainArches : Plain (archesText e.arches) := by
      rw [archesText]
      split
      · exact ⟨List.not_mem_nil, List.not_mem_nil⟩
      · have hjoin : Plain ([' '].intercalate e.arches) := by
          refine ⟨fun hmem => ?_, fun hmem => ?_⟩ <;>
            rcases mem_intercalate hmem with hc | ⟨a, ha, hc⟩
          · exact absurd hc (by decide)
          · exact (h.plain a (.inr (.inr ha))).1 hc
          · exact absurd hc (by decide)
          · exact (h.plain a (.inr (.inr ha))).2 hc
        rw [plain_append, plain_append]
        exact ⟨⟨⟨by decide, by decide⟩, hjoin⟩, ⟨by decide, by decide⟩⟩
    have hplainConstraint : Plain (constraintText e.operator e.version) := by
      rcases h.version with ⟨ho, hv⟩ | ⟨o, v, ho, hv, -⟩
      · rw [ho, hv]
        exact ⟨List.not_mem_nil, List.not_mem_nil⟩
      · have hplainVersion := h.plain v (.inr (.inl hv))
        have hplainOperator : Plain o.text := by cases o <;> exact ⟨by decide, by decide⟩
        rw [ho, hv, constraintText]
        simp only [plain_append]
        exact ⟨⟨⟨⟨⟨by decide, by decide⟩, hplainOperator⟩, ⟨by decide, by decide⟩⟩, hplainVersion⟩,
          ⟨by decide, by decide⟩⟩
    rw [PackageRelationEntry.toText, plain_append, plain_append]
    exact ⟨⟨h.plain e.name (.inl rfl), hplainConstraint⟩, hplainArches⟩

/-! ## Groups and relations -/

def GroupWellFormed (g : PackageRelationGroup) : Prop := ∀ e ∈ g, WellFormed e

/-- What is read for a printed group. -/
theorem ofText_toText_group {g : PackageRelationGroup} (h : GroupWellFormed g) :
    Trimmed g.toText ∧ ',' ∉ g.toText ∧ (g = [] ↔ g.toText = []) ∧
      PackageRelationGroup.ofText g.toText = some (g.map reread) := by
  rcases eq_or_ne g [] with rfl | hne
  · exact ⟨trimmed_nil, List.not_mem_nil, iff_of_true rfl rfl, rfl⟩
  have hentry : ∀ t ∈ g.map (·.toText), t ≠ [] ∧ Trimmed t ∧ Plain t := by
    intro t ht
    obtain ⟨e, he, rfl⟩ := List.mem_map.mp ht
    exact toText_entry_spec (h e he)
  have hnil : g.map (·.toText) ≠ [] := fun hmap => hne (List.map_eq_nil_iff.mp hmap)
  have htrim : Trimmed g.toText := by
    refine trimmed_intercalate (by decide) (fun t ht => ?_) fun hlast => ?_
    · exact ⟨(hentry t ht).2.1, fun hempty => absurd hempty (hentry t ht).1⟩
    · exact (hentry [] (List.mem_of_getLast? hlast)).1 rfl
  have hcomma : ',' ∉ g.toText := by
    intro hmem
    rcases mem_intercalate hmem with hc | ⟨t, ht, hc⟩
    · exact absurd hc (by decide)
    · exact (hentry t ht).2.2.1 hc
  have htext : g.toText ≠ [] := by
    refine intercalate_ne_nil (by decide) hnil fun hblank => ?_
    exact (hentry [] (by rw [hblank]; exact List.mem_singleton.mpr rfl)).1 rfl
  refine ⟨htrim, hcomma, iff_of_false hne htext, ?_⟩
  have hsplit := @strip_splitOn_intercalate '|' [' '] [' ']
    (Text.forall_mem_of_all (by decide)) (Text.forall_mem_of_all (by decide)) (by decide) _ hnil
    fun t ht => ⟨(hentry t ht).2.1, (hentry t ht).2.2.2⟩
  rw [PackageRelationGroup.ofText, if_neg htext, strip_of_trimmed htrim]
  refine (congrArg (List.mapM PackageRelationEntry.ofText) hsplit).trans ?_
  exact mapM_map_of_forall fun e he => ofText_toText_entry (h e he)

/-- What is read for a printed relation. -/
theorem ofText_toText {r : PackageRelation} (h : ∀ g ∈ r, GroupWellFormed g) (hne : r ≠ [])
    (hlast : r.getLast? ≠ some []) :
    PackageRelation.ofText r.toText = some (PackageRelation.extend [] (r.map (·.map reread))) := by
  have hitem : ∀ t ∈ r.map (·.toText), Trimmed t ∧ ',' ∉ t := by
    intro t ht
    obtain ⟨g, hg, rfl⟩ := List.mem_map.mp ht
    obtain ⟨htrim, hcomma, -, -⟩ := ofText_toText_group (h g hg)
    exact ⟨htrim, hcomma⟩
  have hlastText : (r.map (·.toText)).getLast? ≠ some [] := by
    intro hblank
    rw [List.getLast?_map] at hblank
    obtain ⟨g, hg, htext⟩ := Option.map_eq_some_iff.mp hblank
    have hnil := (ofText_toText_group (h g (List.mem_of_getLast? hg))).2.2.1.mpr htext
    exact hlast (hnil ▸ hg)
  have hnil : r.map (·.toText) ≠ [] := fun hmap => hne (List.map_eq_nil_iff.mp hmap)
  have htrim : Trimmed r.toText := by
    refine trimmed_intercalate (by decide) (fun t ht => ⟨(hitem t ht).1, fun _ => ?_⟩) hlastText
    exact Text.forall_mem_of_option (by decide)
  have htext : r.toText ≠ [] := by
    refine intercalate_ne_nil (by decide) hnil fun hblank => hlastText ?_
    rw [hblank]
    rfl
  have hsplit := @strip_splitOn_intercalate ',' [] [' '] (Text.forall_mem_of_all (by decide))
    (Text.forall_mem_of_all (by decide)) (by decide) _ hnil hitem
  have hitems : PackageRelation.items r.toText = r.map (·.toText) := by
    rw [PackageRelation.items, strip_of_trimmed htrim]
    exact hsplit
  have hfold : ∀ (gs : List PackageRelationGroup) (acc : PackageRelation),
      (∀ g ∈ gs, GroupWellFormed g) → (gs.map (·.toText)).foldlM (fun r item =>
        (PackageRelationGroup.ofText item).map (PackageRelation.append r)) acc =
      some (PackageRelation.extend acc (gs.map (·.map reread))) := by
    intro gs
    induction gs with
    | nil => exact fun _ _ => rfl
    | cons g gs ih =>
      intro acc hgs
      rw [List.map_cons, List.foldlM_cons,
        (ofText_toText_group (hgs g List.mem_cons_self)).2.2.2]
      exact ih _ fun g' hg' => hgs g' (List.mem_cons_of_mem _ hg')
  rw [PackageRelation.ofText, if_neg htext, hitems]
  exact hfold r [] h

/-! ## Merging -/

open PackageRelationGroup PackageRelation RelationLemmas

/-- What a search looks at. -/
def keys (g : PackageRelationGroup) : List (Text × Option Text) :=
  g.map fun e => (e.name, e.version)

theorem isMatch_eq (self value : PackageRelationGroup) : self.isMatch value =
    (!(keys self).isEmpty && ((keys self).zip (keys value)).all fun p => p.1 = p.2) := by
  have hall : ((keys self).zip (keys value)).all (fun p => decide (p.1 = p.2)) =
      (self.zip value).all fun p => decide (p.1.name = p.2.name ∧ p.1.version = p.2.version) := by
    rw [keys, keys, List.zip_map, List.all_map]
    refine List.all_congr rfl fun p => ?_
    simp
  rw [PackageRelationGroup.isMatch, PackageRelationGroup.searchValue, hall, keys, List.isEmpty_map]
  cases (self.zip value).all fun p => decide (p.1.name = p.2.name ∧ p.1.version = p.2.version) with
  | true => simp
  | false => simp

theorem isMatch_congr {g g' h h' : PackageRelationGroup} (hg : keys g = keys g')
    (hh : keys h = keys h') : g.isMatch h = g'.isMatch h' := by
  rw [isMatch_eq, isMatch_eq, hg, hh]

theorem keys_updateArches (g h : PackageRelationGroup) : keys (g.updateArches h) = keys g := by
  have hkeys : ∀ g : PackageRelationGroup,
      keys g = g.alternatives.map fun a => (a.1, a.2.2) := by
    intro g
    rw [alternatives, List.map_map]
    rfl
  rw [hkeys, hkeys, updateArches_alternatives]

theorem keys_foldl_updateArches (hs : List PackageRelationGroup) (g : PackageRelationGroup) :
    keys (hs.foldl updateArches g) = keys g := by
  induction hs generalizing g with
  | nil => rfl
  | cons h hs ih => rw [List.foldl_cons, ih, keys_updateArches]

theorem keys_reread (g : PackageRelationGroup) : keys (g.map reread) = keys g := by
  rw [keys, List.map_map]
  rfl

/-- The first group takes in what it matches. -/
theorem extend_cons (i : PackageRelationGroup) (r : PackageRelation)
    (gs : List PackageRelationGroup) :
    PackageRelation.extend (i :: r) gs = (gs.filter (i.isMatch ·)).foldl updateArches i ::
      PackageRelation.extend r (unmatched i gs) := by
  induction gs generalizing i r with
  | nil => rfl
  | cons g gs ih =>
    have hstep : PackageRelation.extend (i :: r) (g :: gs) =
        PackageRelation.extend (append (i :: r) g) gs := rfl
    rw [hstep, append_cons, unmatched, List.filter_cons, List.filter_cons]
    cases hmatch : i.isMatch g with
    | true =>
      have hsame : ∀ h, (i.updateArches g).isMatch h = i.isMatch h :=
        fun h => isMatch_congr (keys_updateArches i g) rfl
      rw [if_pos rfl, if_pos rfl, ih, unmatched]
      simp only [hsame]
      rfl
    | false =>
      rw [if_neg Bool.false_ne_true, if_neg Bool.false_ne_true, ih]
      rfl

theorem mem_append_keys {r : PackageRelation} {g x : PackageRelationGroup} (hx : x ∈ append r g) :
    ∃ u ∈ r ++ [g], keys u = keys x := by
  induction r with
  | nil => exact ⟨x, hx, rfl⟩
  | cons i r ih =>
    rw [append_cons] at hx
    split at hx
    · rcases List.mem_cons.mp hx with rfl | hx
      · exact ⟨i, List.mem_cons_self, (keys_updateArches i g).symm⟩
      · exact ⟨x, List.mem_cons_of_mem _ (List.mem_append_left _ hx), rfl⟩
    · rcases List.mem_cons.mp hx with rfl | hx
      · exact ⟨x, List.mem_cons_self, rfl⟩
      · obtain ⟨u, hu, hkeys⟩ := ih hx
        exact ⟨u, List.mem_cons_of_mem _ hu, hkeys⟩

theorem mem_extend_keys {gs : List PackageRelationGroup} {r : PackageRelation}
    {x : PackageRelationGroup} (hx : x ∈ PackageRelation.extend r gs) :
    ∃ u ∈ r ++ gs, keys u = keys x := by
  induction gs generalizing r with
  | nil =>
    rw [List.append_nil]
    exact ⟨x, hx, rfl⟩
  | cons g gs ih =>
    obtain ⟨u, hu, hkeys⟩ := ih (r := append r g) hx
    rcases List.mem_append.mp hu with hu | hu
    · obtain ⟨v, hv, hkeys'⟩ := mem_append_keys hu
      refine ⟨v, ?_, hkeys'.trans hkeys⟩
      rw [List.append_cons]
      exact List.mem_append_left _ hv
    · exact ⟨u, List.mem_append_right _ (List.mem_cons_of_mem _ hu), hkeys⟩

/-- A relation that was read has no group that an earlier one would take in. -/
theorem extend_pairwise (gs : List PackageRelationGroup) :
    (PackageRelation.extend [] gs).Pairwise fun g h => g.isMatch h = false := by
  induction hn : gs.length using Nat.strong_induction_on generalizing gs with
  | _ n ih =>
    cases gs with
    | nil => exact List.Pairwise.nil
    | cons g gs =>
      have hcons : PackageRelation.extend [] (g :: gs) = PackageRelation.extend [g] gs := rfl
      rw [hcons, extend_cons]
      refine List.pairwise_cons.mpr ⟨fun x hx => ?_, ?_⟩
      · obtain ⟨u, hu, hkeys⟩ := mem_extend_keys hx
        rw [List.nil_append] at hu
        have hnot : g.isMatch u = false := by simpa using (List.mem_filter.mp hu).2
        rw [← hnot]
        exact isMatch_congr (keys_foldl_updateArches _ g) hkeys.symm
      · rw [List.length_cons] at hn
        exact ih _ (by have := length_unmatched_le g gs; omega) _ rfl

/-- Groups that do not match each other are all appended. -/
theorem extend_of_pairwise {gs : List PackageRelationGroup}
    (h : gs.Pairwise fun g h => g.isMatch h = false) : PackageRelation.extend [] gs = gs := by
  induction gs with
  | nil => rfl
  | cons g gs ih =>
    obtain ⟨hg, hgs⟩ := List.pairwise_cons.mp h
    have hcons : PackageRelation.extend [] (g :: gs) = PackageRelation.extend [g] gs := rfl
    have hnone : gs.filter (g.isMatch ·) = [] :=
      List.filter_eq_nil_iff.mpr fun x hx => by rw [hg x hx]; exact Bool.false_ne_true
    have hall : unmatched g gs = gs :=
      List.filter_eq_self.mpr fun x hx => by rw [hg x hx]; rfl
    rw [hcons, extend_cons, hnone, hall, ih hgs]
    rfl

/-! ## Merged architectures -/

theorem addArches_append (own more more' : List Text) :
    addArches own (more ++ more') = addArches (addArches own more) more' := List.foldl_append

theorem addArches_cons (own more : List Text) (a : Text) :
    addArches own (a :: more) = addArches (if a ∈ own then own else own ++ [a]) more := rfl

theorem own_prefix_addArches (own more : List Text) : own <+: addArches own more := by
  induction more generalizing own with
  | nil => exact List.prefix_refl own
  | cons a more ih =>
    rw [addArches_cons]
    split
    · exact ih own
    · exact (List.prefix_append own [a]).trans (ih _)

/-- An empty name between two others stays there. -/
theorem inner_of_prefix {ws vs : List Text} (h : ws <+: vs) (hmem : [] ∈ ws.tail.dropLast) :
    [] ∈ vs.tail.dropLast := by
  obtain ⟨us, rfl⟩ := h
  cases ws with
  | nil => cases hmem
  | cons w ws =>
    rw [List.tail_cons] at hmem
    rw [List.cons_append, List.tail_cons]
    rcases eq_or_ne us [] with rfl | hne
    · rwa [List.append_nil]
    · rw [List.dropLast_append_of_ne_nil hne]
      exact List.mem_append_left _ ((List.dropLast_sublist ws).mem hmem)

/-- A new name goes behind the own ones. -/
theorem archesClean_new {own : List Text} {a : Text} (more : List Text) (ha : a ∉ own)
    (hlast : own.getLast? ≠ some []) :
    ArchesClean own (a :: more) ↔ ArchesClean (own ++ [a]) more := by
  rcases eq_or_ne a [] with rfl | hne
  · constructor
    · rintro ⟨-, hmore⟩
      refine ⟨fun _ name hname => ?_, fun hno => absurd (by simp) hno⟩
      rcases eq_or_ne name [] with rfl | hne
      · exact List.mem_append_right _ List.mem_cons_self
      · rcases hmore ha [] more rfl name hname hne with h | h
        · exact List.mem_append_left _ h
        · cases h
    · rintro ⟨hown, -⟩
      refine ⟨fun h => absurd h hlast, fun _ pre post heq name hname hne => .inl ?_⟩
      have hmem : name ∈ more := by
        cases pre with
        | nil => exact (List.cons.inj heq).2 ▸ hname
        | cons b pre =>
          rw [(List.cons.inj heq).2]
          exact List.mem_append_right _ (List.mem_cons_of_mem _ hname)
      rcases List.mem_append.mp (hown List.getLast?_concat name hmem) with h | h
      · exact h
      · exact absurd (List.mem_singleton.mp h) hne
  · have hnot : [] ∉ own ++ [a] ↔ [] ∉ own := by
      rw [List.mem_append, List.mem_singleton, or_iff_left hne.symm]
    constructor
    · rintro ⟨-, hmore⟩
      refine ⟨fun h => ?_, fun hno pre post heq name hname hne' => ?_⟩
      · rw [List.getLast?_concat] at h
        exact absurd (Option.some.inj h) hne
      · rcases hmore (hnot.mp hno) (a :: pre) post (by rw [heq]; rfl) name hname hne' with h | h
        · exact .inl (List.mem_append_left _ h)
        · rcases List.mem_cons.mp h with rfl | h
          · exact .inl (List.mem_append_right _ List.mem_cons_self)
          · exact .inr h
    · rintro ⟨-, hmore⟩
      refine ⟨fun h => absurd h hlast, fun hno pre post heq name hname hne' => ?_⟩
      cases pre with
      | nil => exact absurd (List.cons.inj heq).1 hne
      | cons b pre =>
        obtain ⟨rfl, hrest⟩ := List.cons.inj heq
        rcases hmore (hnot.mpr hno) pre post hrest name hname hne' with h | h
        · rcases List.mem_append.mp h with h | h
          · exact .inl h
          · rw [List.mem_singleton.mp h]
            exact .inr List.mem_cons_self
        · exact .inr (List.mem_cons_of_mem _ h)

/-- Names are added without an empty one between them exactly if `ArchesClean` holds. -/
theorem archesClean_iff {own : List Text} (more : List Text) (hne : own ≠ []) (hblank : own ≠ [[]])
    (hinner : [] ∉ own.tail.dropLast) :
    ArchesClean own more ↔ [] ∉ (addArches own more).tail.dropLast := by
  induction more generalizing own with
  | nil =>
    refine iff_of_true ⟨fun _ => nofun, fun _ pre post h => ?_⟩ hinner
    exact absurd h.symm (List.append_ne_nil_of_right_ne_nil _ (List.cons_ne_nil _ _))
  | cons a more ih =>
    rw [addArches_cons]
    rcases Decidable.em (a ∈ own) with ha | ha
    · rw [if_pos ha, ← ih hne hblank hinner]
      constructor
      · rintro ⟨hown, hmore⟩
        refine ⟨fun hlast name hname => hown hlast name (List.mem_cons_of_mem _ hname), ?_⟩
        intro hno pre post heq name hname hne'
        rcases hmore hno (a :: pre) post (by rw [heq]; rfl) name hname hne' with h | h
        · exact .inl h
        · rcases List.mem_cons.mp h with rfl | h
          · exact .inl ha
          · exact .inr h
      · rintro ⟨hown, hmore⟩
        refine ⟨fun hlast name hname => ?_, fun hno pre post heq name hname hne' => ?_⟩
        · rcases List.mem_cons.mp hname with rfl | hname
          · exact ha
          · exact hown hlast name hname
        · cases pre with
          | nil =>
            rw [(List.cons.inj heq).1] at ha
            exact absurd ha hno
          | cons b pre =>
            refine (hmore hno pre post (List.cons.inj heq).2 name hname hne').imp id fun h => ?_
            exact List.mem_cons_of_mem _ h
    · rw [if_neg ha]
      obtain ⟨w, ws, rfl⟩ := List.exists_cons_of_ne_nil hne
      have htail : (w :: ws ++ [a]).tail.dropLast = ws := by
        rw [List.cons_append, List.tail_cons, List.dropLast_concat]
      rcases Decidable.em ((w :: ws).getLast? = some []) with hlast | hlast
      · -- the new name stands behind an empty one
        have hws : ws ≠ [] := by
          rintro rfl
          exact hblank (congrArg (fun w => [w]) (Option.some.inj hlast))
        have hmem : [] ∈ ws := by
          obtain ⟨v, vs, rfl⟩ := List.exists_cons_of_ne_nil hws
          rw [List.getLast?_cons_cons] at hlast
          exact List.mem_of_getLast? hlast
        refine iff_of_false (fun h => ha (h.behindOwn hlast a List.mem_cons_self)) ?_
        rw [not_not]
        exact inner_of_prefix (own_prefix_addArches _ more) (htail.symm ▸ hmem)
      · have hws : [] ∉ ws := by
          intro hmem
          have hwne := List.ne_nil_of_mem hmem
          obtain ⟨v, vs, rfl⟩ := List.exists_cons_of_ne_nil hwne
          rw [List.getLast?_cons_cons, List.getLast?_eq_some_getLast hwne] at hlast
          rw [List.tail_cons] at hinner
          rw [← List.dropLast_append_getLast hwne, List.mem_append, List.mem_singleton] at hmem
          rcases hmem with hmem | hmem
          · exact hinner hmem
          · exact hlast (congrArg some hmem.symm)
        have hlonger : w :: ws ++ [a] ≠ [[]] := by
          rw [List.cons_append]
          exact fun h => List.append_ne_nil_of_right_ne_nil ws (List.cons_ne_nil a [])
            (List.cons.inj h).2
        rw [← ih (List.append_ne_nil_of_left_ne_nil hne _) hlonger (by rw [htail]; exact hws)]
        exact archesClean_new more ha hlast

theorem getElem?_updateArches (g h : PackageRelationGroup) (k : Nat) :
    (g.updateArches h)[k]? = g[k]?.map fun e =>
      match h[k]? with
      | some j => updateEntry e j
      | none => e := by
  induction g generalizing h k with
  | nil => cases h <;> rfl
  | cons i g ih =>
    cases h with
    | nil => simp [updateArches]
    | cons j h =>
      cases k with
      | zero => rfl
      | succ k => exact ih h k

/-- The architectures of an alternative, with those of other lists. -/
def takeIn (more : List Text) (e : PackageRelationEntry) : PackageRelationEntry :=
  if e.arches = [] then e else { e with arches := addArches e.arches more }

theorem takeIn_updateEntry (more : List Text) (i j : PackageRelationEntry) :
    takeIn more (updateEntry i j) = takeIn (j.arches ++ more) i := by
  rw [updateEntry]
  rcases eq_or_ne i.arches [] with h | h
  · rw [if_pos h, takeIn, takeIn, if_pos h, if_pos h]
  · have hne : addArches i.arches j.arches ≠ [] := by
      obtain ⟨us, hus⟩ := own_prefix_addArches i.arches j.arches
      rw [← hus]
      exact List.append_ne_nil_of_left_ne_nil h us
    rw [if_neg h, takeIn, takeIn, if_neg h, if_neg hne, addArches_append]

/-- An alternative of a group that took in others. -/
theorem getElem?_foldl_updateArches (hs : List PackageRelationGroup) (g : PackageRelationGroup)
    (k : Nat) : (hs.foldl updateArches g)[k]? =
      g[k]?.map (takeIn ((hs.filterMap fun h => h[k]?).flatMap (·.arches))) := by
  induction hs generalizing g with
  | nil =>
    have hsame : takeIn [] = id := by
      funext e
      rw [takeIn]
      split <;> rfl
    rw [List.filterMap_nil, List.flatMap_nil, hsame, Option.map_id]
    rfl
  | cons h hs ih =>
    rw [List.foldl_cons, ih, getElem?_updateArches, Option.map_map]
    refine congrArg (fun f => g[k]?.map f) (funext fun e => ?_)
    rw [Function.comp_apply]
    cases hk : h[k]? with
    | none => rw [List.filterMap_cons, hk]
    | some j =>
      dsimp only
      rw [List.filterMap_cons, hk, takeIn_updateEntry]
      rfl

/-- The lists of an alternative that is printed and read are the same. -/
def EntryClean (e : PackageRelationEntry) : Prop := [] ∉ e.arches.tail.dropLast

theorem reread_eq_iff {e : PackageRelationEntry} (h : WellFormed e) :
    reread e = e ↔ EntryClean e := by
  have harches : reread e = e ↔
      (if e.arches = [] then [] else splitBlanks ([' '].intercalate e.arches)) = e.arches := by
    constructor
    · exact fun heq => congrArg PackageRelationEntry.arches heq
    · intro heq
      rw [reread, heq]
  rw [harches, EntryClean]
  rcases eq_or_ne e.arches [] with hnil | hne
  · rw [if_pos hnil, hnil]
    exact iff_of_true rfl List.not_mem_nil
  · rw [if_neg hne]
    exact splitBlanks_intercalate_iff hne fun a ha c hc => (h.arches a ha c hc).1

theorem groupClean_iff {g : PackageRelationGroup} (hs : List PackageRelationGroup)
    (hg : GroupWellFormed g) (hclean : ∀ e ∈ g, EntryClean e) :
    GroupClean g hs ↔ ∀ e ∈ hs.foldl updateArches g, EntryClean e := by
  have hone : ∀ (k : Nat) (e : PackageRelationEntry), g[k]? = some e →
      ((e.arches ≠ [] → ArchesClean e.arches ((hs.filterMap fun h => h[k]?).flatMap (·.arches))) ↔
        EntryClean (takeIn ((hs.filterMap fun h => h[k]?).flatMap (·.arches)) e)) := by
    intro k e he
    have hmem := List.mem_of_getElem? he
    rcases eq_or_ne e.arches [] with hnil | hne
    · rw [takeIn, if_pos hnil]
      exact iff_of_true (fun h => absurd hnil h) (hclean e hmem)
    · rw [takeIn, if_neg hne, forall_prop_of_true hne]
      exact archesClean_iff _ hne (hg e hmem).archesNe (hclean e hmem)
  constructor
  · intro h e he
    obtain ⟨k, hk⟩ := List.mem_iff_getElem?.mp he
    rw [getElem?_foldl_updateArches] at hk
    obtain ⟨e₀, he₀, rfl⟩ := Option.map_eq_some_iff.mp hk
    exact (hone k e₀ he₀).mp (h k e₀ he₀)
  · intro h k e he
    refine (hone k e he).mpr (h _ (List.mem_of_getElem? (i := k) ?_))
    rw [getElem?_foldl_updateArches, he]
    rfl

/-- The lists of the merged groups, told from the groups as they are written. -/
theorem groupsClean_iff {gs : List PackageRelationGroup} (hwf : ∀ g ∈ gs, GroupWellFormed g)
    (hclean : ∀ g ∈ gs, ∀ e ∈ g, EntryClean e) :
    GroupsClean gs ↔ ∀ g ∈ PackageRelation.extend [] gs, ∀ e ∈ g, EntryClean e := by
  induction hn : gs.length using Nat.strong_induction_on generalizing gs with
  | _ n ih =>
    cases gs with
    | nil =>
      rw [GroupsClean]
      exact iff_of_true trivial nofun
    | cons g gs =>
      have hcons : PackageRelation.extend [] (g :: gs) = PackageRelation.extend [g] gs := rfl
      have hsub : ∀ g' ∈ unmatched g gs, g' ∈ g :: gs :=
        fun g' hg' => List.mem_cons_of_mem _ (List.mem_of_mem_filter hg')
      rw [List.length_cons] at hn
      have hrest := ih (unmatched g gs).length (by have := length_unmatched_le g gs; omega)
        (fun g' hg' => hwf g' (hsub g' hg')) (fun g' hg' => hclean g' (hsub g' hg')) rfl
      rw [GroupsClean, hcons, extend_cons, List.forall_mem_cons, hrest,
        groupClean_iff _ (hwf g List.mem_cons_self) (hclean g List.mem_cons_self)]

/-- What the parts of the groups are like. -/
theorem wellFormed_updateEntry {i j : PackageRelationEntry} (hi : WellFormed i)
    (hj : WellFormed j) : WellFormed (updateEntry i j) := by
  rw [updateEntry]
  split
  · exact hi
  · next hne =>
    refine ⟨hi.nameNe, hi.name, hi.version, fun a ha => ?_, ?_, fun t ht => ?_⟩
    · rcases mem_addArches.mp ha with ha | ha
      · exact hi.arches a ha
      · exact hj.arches a ha
    · obtain ⟨us, hus⟩ := own_prefix_addArches i.arches j.arches
      intro hblank
      dsimp only at hblank
      rw [← hus] at hblank
      rcases List.append_eq_singleton_iff.mp hblank with ⟨h, -⟩ | ⟨h, -⟩
      · exact hne h
      · exact hi.archesNe h
    · rcases ht with rfl | ht | ht
      · exact hi.plain _ (.inl rfl)
      · exact hi.plain t (.inr (.inl ht))
      · rcases mem_addArches.mp ht with ha | ha
        · exact hi.plain t (.inr (.inr ha))
        · exact hj.plain t (.inr (.inr ha))

theorem wellFormed_updateArches {g h : PackageRelationGroup} (hg : GroupWellFormed g)
    (hh : GroupWellFormed h) : GroupWellFormed (g.updateArches h) := by
  induction g generalizing h with
  | nil => cases h <;> exact hg
  | cons i g ih =>
    cases h with
    | nil => exact hg
    | cons j h =>
      intro e he
      rcases List.mem_cons.mp he with rfl | he
      · exact wellFormed_updateEntry (hg i List.mem_cons_self) (hh j List.mem_cons_self)
      · exact ih (fun e he => hg e (List.mem_cons_of_mem _ he))
          (fun e he => hh e (List.mem_cons_of_mem _ he)) e he

theorem wellFormed_extend {gs : List PackageRelationGroup} {r : PackageRelation}
    (hr : ∀ g ∈ r, GroupWellFormed g) (hgs : ∀ g ∈ gs, GroupWellFormed g) :
    ∀ g ∈ PackageRelation.extend r gs, GroupWellFormed g := by
  induction gs generalizing r with
  | nil => exact hr
  | cons g gs ih =>
    refine ih ?_ fun g' hg' => hgs g' (List.mem_cons_of_mem _ hg')
    have hg := hgs g List.mem_cons_self
    clear ih hgs
    induction r with
    | nil =>
      intro g' hg'
      rw [append_nil, List.mem_singleton] at hg'
      rw [hg']
      exact hg
    | cons i r ih =>
      intro g' hg'
      have hi := hr i List.mem_cons_self
      have hr' := fun g hg => hr g (List.mem_cons_of_mem _ hg)
      rw [append_cons] at hg'
      split at hg'
      · rcases List.mem_cons.mp hg' with rfl | hg'
        · exact wellFormed_updateArches hi hg
        · exact hr' g' hg'
      · rcases List.mem_cons.mp hg' with rfl | hg'
        · exact hi
        · exact ih hr' g' hg'

/-! ## Reading a relation -/

/-- The groups are read one by one. -/
theorem ofText_eq {text : Text} (hne : text ≠ []) :
    PackageRelation.ofText text = (writtenGroups text).map (PackageRelation.extend []) := by
  have hfold : ∀ (ls : List Text) (acc : PackageRelation),
      ls.foldlM (fun r item => (PackageRelationGroup.ofText item).map (PackageRelation.append r))
        acc = (ls.mapM PackageRelationGroup.ofText).map (PackageRelation.extend acc) := by
    intro ls
    induction ls with
    | nil => exact fun _ => rfl
    | cons l ls ih =>
      intro acc
      rw [List.foldlM_cons, List.mapM_cons]
      cases PackageRelationGroup.ofText l with
      | none => rfl
      | some g =>
        refine (ih (append acc g)).trans ?_
        cases ls.mapM PackageRelationGroup.ofText <;> rfl
  rw [PackageRelation.ofText, if_neg hne]
  exact hfold _ []

theorem group_ofText_spec {item : Text} {g : PackageRelationGroup} (hcomma : ',' ∉ item)
    (h : PackageRelationGroup.ofText item = some g) :
    (∀ e ∈ g, WellFormed e ∧ EntryClean e) ∧ (item ≠ [] → g ≠ []) := by
  rw [PackageRelationGroup.ofText] at h
  split at h
  · next hitem =>
    cases h
    exact ⟨nofun, fun hne => absurd hitem hne⟩
  · refine ⟨fun e he => ?_, fun _ hnil => ?_⟩
    · obtain ⟨value, hvalue, hread⟩ := mem_mapM h he
      obtain ⟨piece, hpiece, rfl⟩ := List.mem_map.mp hvalue
      refine wellFormed_of_ofText hread ⟨fun hmem => ?_, fun hmem => ?_⟩
      · have hpieceItem : ',' ∈ strip item := by
          have hjoin := @List.intercalate_splitOn _ (strip item) _ _ '|'
          rw [← hjoin]
          exact mem_intercalate_of_mem hpiece (mem_of_mem_strip hmem)
        exact hcomma (mem_of_mem_strip hpieceItem)
      · exact not_mem_of_mem_splitOn hpiece (mem_of_mem_strip hmem)
    · obtain ⟨piece, pieces, hpieces⟩ :=
        List.exists_cons_of_ne_nil (List.splitOn_ne_nil '|' (strip item))
      rw [hpieces] at h
      obtain ⟨e, he, -⟩ := exists_of_mapM h List.mem_cons_self
      rw [hnil] at he
      cases he

/-- The groups of a text, as they are written. -/
theorem writtenGroups_spec {text : Text} {gs : List PackageRelationGroup}
    (h : writtenGroups text = some gs) :
    (∀ g ∈ gs, ∀ e ∈ g, WellFormed e ∧ EntryClean e) ∧
      (HasDependency text → ∃ g ∈ gs, g ≠ []) := by
  have hcomma : ∀ item ∈ items text, ',' ∉ item := by
    intro item hitem hmem
    obtain ⟨piece, hpiece, rfl⟩ := List.mem_map.mp hitem
    exact not_mem_of_mem_splitOn hpiece (mem_of_mem_strip hmem)
  refine ⟨fun g hg => ?_, ?_⟩
  · obtain ⟨item, hitem, hread⟩ := mem_mapM h hg
    exact (group_ofText_spec (hcomma item hitem) hread).1
  · rintro ⟨item, hitem, hne⟩
    obtain ⟨g, hg, hread⟩ := exists_of_mapM h hitem
    exact ⟨g, hg, (group_ofText_spec (hcomma item hitem) hread).2 hne⟩

theorem append_nonempty {g : PackageRelationGroup} {r : PackageRelation}
    (h : ∃ i ∈ r ++ [g], i ≠ []) : ∃ i ∈ append r g, i ≠ [] := by
  induction r with
  | nil => exact h
  | cons i r ih =>
    obtain ⟨j, hj, hne⟩ := h
    rw [append_cons]
    split
    · next hmatch =>
      refine ⟨i.updateArches g, List.mem_cons_self, fun hnil => ?_⟩
      have hkeys := keys_updateArches i g
      rw [hnil] at hkeys
      rw [isMatch_eq, ← hkeys] at hmatch
      exact absurd hmatch Bool.false_ne_true
    · rcases List.mem_cons.mp hj with rfl | hj
      · exact ⟨j, List.mem_cons_self, hne⟩
      · obtain ⟨k, hk, hkne⟩ := ih ⟨j, hj, hne⟩
        exact ⟨k, List.mem_cons_of_mem _ hk, hkne⟩

theorem extend_nonempty {gs : List PackageRelationGroup} {r : PackageRelation}
    (h : ∃ g ∈ r ++ gs, g ≠ []) : ∃ g ∈ PackageRelation.extend r gs, g ≠ [] := by
  induction gs generalizing r with
  | nil =>
    rw [List.append_nil] at h
    exact h
  | cons g gs ih =>
    refine ih (r := append r g) ?_
    obtain ⟨i, hi, hne⟩ := h
    rw [List.append_cons, List.mem_append] at hi
    rcases hi with hi | hi
    · obtain ⟨k, hk, hkne⟩ := append_nonempty ⟨i, hi, hne⟩
      exact ⟨k, List.mem_append_left _ hk, hkne⟩
    · exact ⟨i, List.mem_append_right _ hi, hne⟩

theorem map_eq_self_iff {α : Type} {f : α → α} {l : List α} :
    l.map f = l ↔ ∀ x ∈ l, f x = x := by
  conv_lhs => rw [← List.map_id l, List.map_map]
  rw [List.map_inj_left]
  rfl

/-- An empty group stands only in front of the others. -/
theorem getLast?_ne_of_pairwise {r : PackageRelation}
    (hpairwise : r.Pairwise fun g h => g.isMatch h = false) (h : ∃ g ∈ r, g ≠ []) :
    r.getLast? ≠ some [] := by
  intro hlast
  obtain ⟨r', rfl⟩ := List.getLast?_eq_some_iff.mp hlast
  obtain ⟨g, hg, hne⟩ := h
  obtain ⟨-, -, hcross⟩ := List.pairwise_append.mp hpairwise
  rcases List.mem_append.mp hg with hg | hg
  · have hmatch := hcross g hg [] List.mem_cons_self
    rw [isMatch_eq] at hmatch
    cases g with
    | nil => exact hne rfl
    | cons e g => exact absurd hmatch (by simp [keys])
  · exact hne (List.mem_singleton.mp hg)

end RelationTextLemmas

open RelationTextLemmas

end DebianKernel.Debian
