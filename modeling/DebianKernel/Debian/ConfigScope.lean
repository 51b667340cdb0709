import DebianKernel.Debian.ConfigReader
import DebianKernel.Lib.Journal
import DebianKernel.Lib.MapM
import Mathlib.Data.List.Nodup

/-!
# The scopes of the configuration

A header names the part of the configuration that its items are for: everything, a
featureset, an architecture, a featureset or a flavour of one, or a flavour in a featureset
of one. The readers file a section under the key of that scope, for the kinds of headers in
`Reading.scope`.

Results:
1. `read_eq`: a tree is read by running the journal of its sections.
2. `key_mem_mergeKeys`: a lookup finds the scopes that contain it, the most general one first.
3. `settings_scoped`: settings apply to their own scope and only to it.
-/

namespace DebianKernel.Debian

open Text MapM

/-! ## Definitions -/

/-- What a section is for. -/
inductive Scope
  | all
  | featureset (featureset : Text)
  | arch (arch : Text)
  | archFeatureset (arch featureset : Text)
  | flavour (arch flavour : Text)
  | archFeaturesetFlavour (arch featureset flavour : Text)

namespace Scope

/-- The order of the scopes, from the most general one to the most specific one. -/
def rank : Scope → Nat
  | all => 0
  | featureset _ => 1
  | arch _ => 2
  | archFeatureset _ _ => 3
  | flavour _ _ => 4
  | archFeaturesetFlavour _ _ _ => 5

def key (sect : Text) : Scope → Key
  | all => [some sect]
  | featureset fs => [some sect, none, some fs]
  | arch a => [some sect, some a]
  | archFeatureset a fs => [some sect, some a, some fs]
  | flavour a fl => [some sect, some a, none, some fl]
  | archFeaturesetFlavour a fs fl => [some sect, some a, some fs, some fl]

open ConfigCore (named) in
/-- The scope contains what is asked for. A flavour is only meant together with an
architecture and a featureset. -/
def Contains (a fs fl : Option Text) : Scope → Prop
  | all => True
  | featureset s => named fs = some s
  | arch b => named a = some b
  | archFeatureset b s => named a = some b ∧ named fs = some s
  | flavour b f => named a = some b ∧ named fs ≠ none ∧ named fl = some f
  | archFeaturesetFlavour b s f => named a = some b ∧ named fs = some s ∧ named fl = some f

end Scope

/-- What a file is read as. The featuresets of an architecture are named in its file. -/
inductive Reading
  | top
  | arch (arch : Text) (featuresets : List Text)
  | archFeatureset (arch featureset : Text)
  | featureset (featureset : Text)

namespace Reading

def path : Reading → Text
  | top => getFile []
  | arch a _ => getFile [a]
  | archFeatureset a fs => getFile [a, fs]
  | featureset fs => getFile [("featureset-" : Text) ++ fs]

def key : Reading → List Text → Key
  | top => topKey
  | arch a featuresets => archKey a featuresets
  | archFeatureset a fs => archFeaturesetKey a fs
  | featureset fs => featuresetKey fs

/-- The scope that a header names, for the headers that are filed under their scope. -/
def scope : Reading → List Text → Option Scope
  | top, [x] => if ("featureset-" : Text).isPrefixOf x then none else some .all
  | top, [s, _] =>
    if ("featureset-" : Text).isPrefixOf s then some (.featureset (s.drop 11)) else none
  | arch a featuresets, [x] => if featuresets.contains x then none else some (.arch a)
  | arch a featuresets, [s, _] =>
    if featuresets.contains s then some (.archFeatureset a s)
    else if s = "none" then none else some (.flavour a s)
  | archFeatureset a fs, [_] => some (.archFeatureset a fs)
  | archFeatureset a fs, [fl, _] => some (.archFeaturesetFlavour a fs fl)
  | featureset fs, [_] => some (.featureset fs)
  | _, _ => none

end Reading

/-- The tuple of a header. -/
def sectionRet (schema : Schema) (header : Text) : List Text :=
  if (schema ((header.splitOn '_').getLastD [])).isSome then header.splitOn '_' else [header]

namespace Reader

def arches (r : Reader) : Option (List Text) := do
  (← base (← r.config [])).list? "arches"

def featuresets (r : Reader) : Option (List Text) := do
  (← base (← r.config [])).listD? "featuresets"

def archFeaturesets (r : Reader) (arch : Text) : Option (List Text) := do
  (← base (← r.config [arch])).listD? "featuresets"

/-- What the files of a tree are read as. -/
inductive Reads (r : Reader) : Reading → Prop
  | top : Reads r .top
  | arch {arches featuresets : List Text} {a : Text} : r.arches = some arches → a ∈ arches →
      r.archFeaturesets a = some featuresets → Reads r (.arch a featuresets)
  | archFeatureset {featuresets : List Text} {a fs : Text} : Reads r (.arch a featuresets) →
      fs ∈ featuresets → Reads r (.archFeatureset a fs)
  | featureset {featuresets : List Text} {fs : Text} : r.featuresets = some featuresets →
      fs ∈ featuresets → Reads r (.featureset fs)

end Reader

/-- What is read: a section, or the flavours that an architecture has without a featureset. -/
inductive Entry
  | sect (reading : Reading) (header : List Text) (items : Items)
  | implicit (arch : Text) (featuresets flavours : List Text)

/-- The new items under a key. The sections of the top file replace what is there. -/
def Reading.value : Reading → Items → Option Items → Option Items
  | top, items, _ => some items
  | _, items, old => some ((old.getD Items.empty).update items)

open Journal in
def Entry.writes : Entry → List (Write Key Items)
  | sect reading header items => [⟨reading.key header, reading.value items⟩]
  | implicit a featuresets flavours =>
    [⟨[some ("base" : Text), some a], fun old => old.bind fun base =>
      if base "flavours" = none then none else some (implicitBase featuresets base)⟩,
    ⟨[some ("base" : Text), some a, some ("none" : Text)], fun _ => some (implicitNone flavours)⟩]

namespace Reader

def sectEntries (reading : Reading) (config : ParsedConfig) : List Entry :=
  config.map fun p => .sect reading p.1 p.2

def archFeaturesetEntries (r : Reader) (arch featureset : Text) : Option (List Entry) := do
  let config ← r.config [arch, featureset]
  let _ ← base config
  some (sectEntries (.archFeatureset arch featureset) config)

def archEntries (r : Reader) (arch : Text) : Option (List Entry) := do
  let config ← r.config [arch]
  let base ← base config
  let featuresets ← base.listD? "featuresets"
  let flavours ← base.listD? "flavours"
  let inner ← featuresets.mapM (r.archFeaturesetEntries arch)
  some (sectEntries (.arch arch featuresets) config ++ inner.flatten ++
    if flavours = [] then [] else [.implicit arch featuresets flavours])

def featuresetEntries (r : Reader) (featureset : Text) : Option (List Entry) := do
  let config ← r.config [("featureset-" : Text) ++ featureset]
  some (sectEntries (.featureset featureset) config)

/-- What is read from a tree, in order. -/
def entries (r : Reader) : Option (List Entry) := do
  let config ← r.config []
  let base ← base config
  let arches ← base.list? "arches"
  let featuresets ← base.listD? "featuresets"
  let inner ← arches.mapM r.archEntries
  let last ← featuresets.mapM r.featuresetEntries
  some (sectEntries .top config ++ inner.flatten ++ last.flatten)

end Reader

/-- The journal of what is read. -/
def journal (es : List Entry) : List (Journal.Write Key Items) := es.flatMap Entry.writes

/-- Trees that differ in one section of one file. -/
def AgreeExcept (t t' : Tree) (path header : Text) : Prop :=
  ∀ q, (t q).sections.filter (fun s => ¬ (q = path ∧ s.1 = header)) =
    (t' q).sections.filter fun s => ¬ (q = path ∧ s.1 = header)

/-- Whatever the file is read as, the header names a scope, and that does not contain what is
asked for. -/
def OutOfScope (r : Reader) (path header : Text) (a fs fl : Option Text) : Prop :=
  ∀ reading, r.Reads reading → reading.path = path →
    ∃ σ, reading.scope (sectionRet r.schema header) = some σ ∧ ¬ σ.Contains a fs fl

/-- Settings apply to their own scope and only to it. -/
structure Scoped (r : Reader) (es : List Entry) (c : ConfigCore) : Prop where
  /-- A section whose scope does not contain what is asked for never changes the answer. -/
  unrelated : ∀ {t' : Tree} {c' : ConfigCore} {path header sect : Text}
    {a fs fl : Option Text}, AgreeExcept r.files t' path header →
    Reader.read ⟨r.schema, t'⟩ = some c' → OutOfScope r path header a fs fl →
    c.merge sect a fs fl = c'.merge sect a fs fl
  /-- An item is returned, if nothing sets it in a more specific scope or later in the same
  one, and no header that names no scope is filed where it is looked up. -/
  effective : ∀ {earlier later : List Entry} {reading : Reading} {header : List Text}
    {items : Items} {σ : Scope} {a fs fl : Option Text} {item : Text} {value : Value},
    es = earlier ++ .sect reading header items :: later → reading.scope header = some σ →
    σ.Contains a fs fl → items item = some value →
    (∀ reading' header' items' σ', .sect reading' header' items' ∈ es →
      reading'.scope header' = some σ' → lastPart header' = lastPart header →
      σ'.Contains a fs fl → σ.rank < σ'.rank → items' item = none) →
    (∀ reading' header' items', .sect reading' header' items' ∈ later →
      reading'.scope header' = some σ → lastPart header' = lastPart header →
      items' item = none) →
    (∀ reading' header' items', .sect reading' header' items' ∈ es →
      reading'.scope header' = none →
      reading'.key header' ∈ ConfigCore.mergeKeys (lastPart header) a fs fl →
      items' item = none ∧ reading' ≠ .top) →
    (∀ b featuresets flavours, .implicit b featuresets flavours ∈ es →
      ConfigCore.named a = some b → lastPart header = "base" →
      σ ≠ .archFeatureset b "none" ∧
        item ∉ [("flavours" : Text), "featuresets", "implicit-flavour"]) →
    c.merge (lastPart header) a fs fl item = some value
  /-- Flavours in the base section of an architecture are those of the featureset `none`. -/
  moved : ∀ {a : Text} {featuresets flavours : List Text},
    .implicit a featuresets flavours ∈ es →
    (c.get [some ("base" : Text), some a]) "flavours" = none ∧
      (c.get [some ("base" : Text), some a]) "featuresets" =
        some (.list (("none" : Text) :: featuresets)) ∧
      c.get [some ("base" : Text), some a, some ("none" : Text)] = implicitNone flavours

/-! ## The journal -/

namespace ConfigScopeLemmas

open Journal Reader

theorem set_eq_update (c : ConfigCore) (key : Key) (items : Items) :
    c.set key items = Function.update c key (some items) := by
  funext k
  rw [ConfigCore.set, Function.update_apply]

@[simp] theorem journal_nil : journal [] = [] := rfl

@[simp] theorem journal_append (es es' : List Entry) :
    journal (es ++ es') = journal es ++ journal es' := List.flatMap_append

theorem journal_flatten (ess : List (List Entry)) :
    journal ess.flatten = ess.flatMap journal := by
  induction ess with
  | nil => rfl
  | cons es ess ih => rw [List.flatten_cons, journal_append, ih, List.flatMap_cons]

/-- The items of a section are set under its key. -/
theorem apply_sect (c : ConfigCore) (reading : Reading) (header : List Text) (items : Items) :
    run c (Entry.writes (.sect reading header items)) =
      (reading.value items (c (reading.key header))).map fun items =>
        c.set (reading.key header) items := by
  rw [Entry.writes, run_cons, Write.apply]
  simp only [set_eq_update]
  exact Option.bind_fun_some _

theorem run_top (config : ParsedConfig) (c : ConfigCore) :
    run c (journal (sectEntries .top config)) =
      some (config.foldl (fun ret (sect, items) => ret.set (topKey sect) items) c) := by
  induction config generalizing c with
  | nil => rfl
  | cons p config ih =>
    rw [sectEntries, List.map_cons, journal, List.flatMap_cons, run_append, apply_sect]
    exact ih _

theorem run_sections {reading : Reading} (h : reading ≠ .top) (config : ParsedConfig)
    (c : ConfigCore) :
    run c (journal (sectEntries reading config)) =
      some (addSections reading.key c config) := by
  induction config generalizing c with
  | nil => rfl
  | cons p config ih =>
    rw [sectEntries, List.map_cons, journal, List.flatMap_cons, run_append, apply_sect]
    have hvalue : ∀ old, reading.value p.2 old = some ((old.getD Items.empty).update p.2) := by
      intro old
      cases reading with
      | top => exact absurd rfl h
      | arch | archFeatureset | featureset => rfl
    rw [hvalue]
    exact ih _

theorem readArchFeatureset_eq (r : Reader) (a : Text) (c : ConfigCore) (fs : Text) :
    r.readArchFeatureset a c fs =
      (r.archFeaturesetEntries a fs).bind fun es => run c (journal es) := by
  rw [readArchFeatureset, archFeaturesetEntries]
  cases hconfig : r.config [a, fs] with
  | none => rfl
  | some config =>
    cases hbase : base config with
    | none => simp [hbase]
    | some items =>
      simp only [hbase, Option.bind_eq_bind, Option.bind_some]
      exact (run_sections (nofun : Reading.archFeatureset a fs ≠ .top) config c).symm

theorem readFeatureset_eq (r : Reader) (c : ConfigCore) (fs : Text) :
    r.readFeatureset c fs = (r.featuresetEntries fs).bind fun es => run c (journal es) := by
  rw [readFeatureset, featuresetEntries]
  cases r.config [("featureset-" : Text) ++ fs] with
  | none => rfl
  | some config => exact (run_sections (nofun : Reading.featureset fs ≠ .top) config c).symm

theorem run_implicit (c : ConfigCore) (a : Text) (featuresets flavours : List Text) :
    run c (journal [.implicit a featuresets flavours]) =
      (c [some ("base" : Text), some a]).bind fun base =>
        if base "flavours" = none then none
        else some ((c.set [some ("base" : Text), some a] (implicitBase featuresets base)).set
          [some ("base" : Text), some a, some ("none" : Text)] (implicitNone flavours)) := by
  rw [journal, List.flatMap_singleton, Entry.writes, run_cons, Write.apply]
  cases c [some ("base" : Text), some a] with
  | none => rfl
  | some base =>
    simp only [Option.bind_some]
    split
    · rfl
    · simp only [Option.map_some, Option.bind_some, run_cons, Write.apply, run_nil, set_eq_update]

theorem readArch_eq (r : Reader) (c : ConfigCore) (a : Text) :
    r.readArch c a = (r.archEntries a).bind fun es => run c (journal es) := by
  rw [readArch, archEntries]
  cases hconfig : r.config [a] with
  | none => rfl
  | some config =>
    simp only [Option.bind_eq_bind, Option.bind_some]
    cases base config with
    | none => rfl
    | some items =>
      simp only [Option.bind_some]
      cases items.listD? "featuresets" with
      | none => rfl
      | some featuresets =>
        simp only [Option.bind_some]
        cases items.listD? "flavours" with
        | none => rfl
        | some flavours =>
          simp only [Option.bind_some]
          rw [foldlM_run (readArchFeatureset_eq r a)]
          cases featuresets.mapM (r.archFeaturesetEntries a) with
          | none => rfl
          | some inner =>
            simp only [Option.bind_some, journal_append, journal_flatten, run_append,
              run_sections (nofun : Reading.arch a featuresets ≠ .top)]
            refine Option.bind_congr fun c' _ => ?_
            split
            · rfl
            · exact (run_implicit c' a featuresets flavours).symm

/-- A tree is read by running its journal. -/
theorem read_eq (r : Reader) :
    r.read = r.entries.bind fun es => run (fun _ => none) (journal es) := by
  rw [Reader.read, entries]
  cases r.config [] with
  | none => rfl
  | some config =>
    simp only [Option.bind_eq_bind, Option.bind_some]
    cases base config with
    | none => rfl
    | some items =>
      simp only [Option.bind_some]
      cases items.list? "arches" with
      | none => rfl
      | some arches =>
        simp only [Option.bind_some]
        cases items.listD? "featuresets" with
        | none => rfl
        | some featuresets =>
          simp only [Option.bind_some]
          rw [foldlM_run (readArch_eq r)]
          cases arches.mapM r.archEntries with
          | none => rfl
          | some inner =>
            simp only [Option.bind_some, foldlM_run (readFeatureset_eq r)]
            cases featuresets.mapM r.featuresetEntries with
            | none => exact Option.bind_fun_none _
            | some last =>
              simp only [Option.bind_some, journal_append, journal_flatten, run_append, run_top]

/-! ## The lookup -/

/-- The scopes that contain what is asked for. -/
def scopesOf (a fs fl : Option Text) : List Scope :=
  [.all] ++ (fs.map .featureset).toList ++ (a.map .arch).toList ++
  (a.bind fun a => fs.map (.archFeatureset a)).toList ++
  (a.bind fun a => fs.bind fun _ => fl.map (.flavour a)).toList ++
  (a.bind fun a => fs.bind fun fs => fl.map (.archFeaturesetFlavour a fs)).toList

theorem scopeKeys_eq (sect : Text) (a fs fl : Option Text) :
    ConfigCore.scopeKeys sect a fs fl = (scopesOf a fs fl).map (Scope.key sect) := by
  cases a <;> cases fs <;> cases fl <;> rfl

theorem mem_scopesOf {a fs fl : Option Text} {σ : Scope} :
    σ ∈ scopesOf (ConfigCore.named a) (ConfigCore.named fs) (ConfigCore.named fl) ↔
      σ.Contains a fs fl := by
  generalize ha : ConfigCore.named a = a'
  generalize hfs : ConfigCore.named fs = fs'
  generalize hfl : ConfigCore.named fl = fl'
  cases σ <;> cases a' <;> cases fs' <;> cases fl' <;>
    simp [scopesOf, Scope.Contains, ha, hfs, hfl, eq_comm]

theorem scopesOf_sorted (a fs fl : Option Text) :
    (scopesOf a fs fl).Pairwise fun σ σ' => σ.rank < σ'.rank := by
  cases a <;> cases fs <;> cases fl <;> simp [scopesOf, Scope.rank]

theorem key_inj {sect sect' : Text} {σ σ' : Scope} (h : σ.key sect = σ'.key sect') :
    sect = sect' ∧ σ = σ' := by
  cases σ <;> cases σ' <;> simp_all [Scope.key]

/-- A lookup finds a scope if it contains what is asked for. -/
theorem key_mem_mergeKeys {sect sect' : Text} {a fs fl : Option Text} {σ : Scope} :
    σ.key sect' ∈ ConfigCore.mergeKeys sect a fs fl ↔ sect' = sect ∧ σ.Contains a fs fl := by
  rw [ConfigCore.mergeKeys, scopeKeys_eq, List.mem_map]
  constructor
  · rintro ⟨σ', hσ', heq⟩
    obtain ⟨rfl, rfl⟩ := key_inj heq
    exact ⟨rfl, mem_scopesOf.mp hσ'⟩
  · rintro ⟨rfl, hσ⟩
    exact ⟨σ, mem_scopesOf.mpr hσ, rfl⟩

theorem mem_mergeKeys_of_eq {sect : Text} {a fs fl : Option Text} {σ : Scope} {key : Key}
    (h : key = σ.key sect) (hσ : σ.Contains a fs fl) :
    key ∈ ConfigCore.mergeKeys sect a fs fl := by
  rw [h]
  exact key_mem_mergeKeys.mpr ⟨rfl, hσ⟩

theorem foldl_update_none (c : ConfigCore) {keys : List Key} {item : Text}
    (h : ∀ key ∈ keys, c.get key item = none) (ret : Items) :
    keys.foldl (fun ret key => ret.update (c.get key)) ret item = ret item := by
  induction keys generalizing ret with
  | nil => rfl
  | cons key keys ih =>
    rw [List.foldl_cons, ih fun k hk => h k (List.mem_cons_of_mem key hk),
      Items.update_of_none (h key List.mem_cons_self)]

/-- The most specific scope that sets an item decides. -/
theorem merge_eq_some {c : ConfigCore} {sect : Text} {a fs fl : Option Text} {σ : Scope}
    {item : Text} {value : Value} (hσ : σ.Contains a fs fl)
    (hitem : c.get (σ.key sect) item = some value)
    (hspecific : ∀ σ' : Scope, σ'.Contains a fs fl → σ.rank < σ'.rank →
      c.get (σ'.key sect) item = none) :
    c.merge sect a fs fl item = some value := by
  obtain ⟨less, more, hsplit⟩ := List.append_of_mem (mem_scopesOf.mpr hσ)
  have hsorted := scopesOf_sorted (ConfigCore.named a) (ConfigCore.named fs)
    (ConfigCore.named fl)
  rw [hsplit] at hsorted
  rw [ConfigCore.merge, ConfigCore.mergeKeys, scopeKeys_eq, hsplit, List.map_append,
    List.map_cons, List.foldl_append, List.foldl_cons, foldl_update_none,
    Items.update_of_some hitem]
  intro key hkey
  obtain ⟨σ', hσ', rfl⟩ := List.mem_map.mp hkey
  refine hspecific σ' (mem_scopesOf.mp ?_) ?_
  · rw [hsplit]
    exact List.mem_append_right _ (List.mem_cons_of_mem _ hσ')
  · exact (List.pairwise_cons.mp (List.pairwise_append.mp hsorted).2.1).1 σ' hσ'

/-! ## The keys of sections -/

/-- A header that names a scope is filed under it. -/
theorem key_of_scope {reading : Reading} {header : List Text} {σ : Scope}
    (h : reading.scope header = some σ) : reading.key header = σ.key (lastPart header) := by
  rcases header with _ | ⟨s, _ | ⟨x, _ | ⟨y, rest⟩⟩⟩
  · cases reading <;> cases h
  · cases reading with
    | top =>
      simp only [Reading.scope, Option.ite_none_left_eq_some, Option.some.injEq] at h
      obtain ⟨hplain, rfl⟩ := h
      exact if_neg hplain
    | arch a featuresets =>
      simp only [Reading.scope, Option.ite_none_left_eq_some, Option.some.injEq] at h
      obtain ⟨hplain, rfl⟩ := h
      exact if_neg hplain
    | archFeatureset | featureset =>
      obtain rfl := Option.some.inj h
      rfl
  · cases reading with
    | top =>
      simp only [Reading.scope, Option.ite_none_right_eq_some, Option.some.injEq] at h
      obtain ⟨hfs, rfl⟩ := h
      exact if_pos hfs
    | arch a featuresets =>
      rw [Reading.scope] at h
      split at h
      · next hfs =>
        obtain rfl := Option.some.inj h
        exact if_pos hfs
      · next hfs =>
        simp only [Option.ite_none_left_eq_some, Option.some.injEq] at h
        obtain ⟨-, rfl⟩ := h
        exact if_neg hfs
    | archFeatureset =>
      obtain rfl := Option.some.inj h
      rfl
    | featureset => cases h
  · cases reading <;> cases h

/-- What is read for an architecture is filed under it. -/
def OfArch (a : Text) (key : Key) : Prop := key[1]? = some (some a)

theorem ofArch_archKey (a : Text) (featuresets header : List Text) :
    OfArch a (archKey a featuresets header) := by
  rw [archKey]
  split
  · rfl
  · split <;> rfl

theorem ofArch_of_mem_mergeKeys {b sect : Text} {key : Key} {arch fs fl : Option Text}
    (hkey : key ∈ ConfigCore.mergeKeys sect arch fs fl) (h : OfArch b key) :
    ConfigCore.named arch = some b := by
  rw [ConfigCore.mergeKeys, scopeKeys_eq, List.mem_map] at hkey
  obtain ⟨σ, hσ, rfl⟩ := hkey
  have hcontains := mem_scopesOf.mp hσ
  cases σ with
  | all => cases h
  | featureset => cases h
  | arch => cases h; exact hcontains
  | archFeatureset => cases h; exact hcontains.1
  | flavour => cases h; exact hcontains.1
  | archFeaturesetFlavour => cases h; exact hcontains.1

theorem archEntries_eq_some {r : Reader} {a : Text} {es : List Entry}
    (h : r.archEntries a = some es) :
    ∃ config items featuresets flavours inner, r.config [a] = some config ∧
      base config = some items ∧ items.listD? "featuresets" = some featuresets ∧
      items.listD? "flavours" = some flavours ∧
      featuresets.mapM (r.archFeaturesetEntries a) = some inner ∧
      es = sectEntries (.arch a featuresets) config ++ inner.flatten ++
        if flavours = [] then [] else [.implicit a featuresets flavours] := by
  obtain ⟨config, hconfig, h⟩ := Option.bind_eq_some_iff.mp h
  obtain ⟨items, hitems, h⟩ := Option.bind_eq_some_iff.mp h
  obtain ⟨featuresets, hfeaturesets, h⟩ := Option.bind_eq_some_iff.mp h
  obtain ⟨flavours, hflavours, h⟩ := Option.bind_eq_some_iff.mp h
  obtain ⟨inner, hinner, h⟩ := Option.bind_eq_some_iff.mp h
  exact ⟨config, items, featuresets, flavours, inner, hconfig, hitems, hfeaturesets, hflavours,
    hinner, (Option.some.inj h).symm⟩

theorem archFeaturesetEntries_eq_some {r : Reader} {a fs : Text} {es : List Entry}
    (h : r.archFeaturesetEntries a fs = some es) :
    ∃ config, r.config [a, fs] = some config ∧
      es = sectEntries (.archFeatureset a fs) config := by
  obtain ⟨config, hconfig, h⟩ := Option.bind_eq_some_iff.mp h
  obtain ⟨items, -, h⟩ := Option.bind_eq_some_iff.mp h
  exact ⟨config, hconfig, (Option.some.inj h).symm⟩

theorem featuresetEntries_eq_some {r : Reader} {fs : Text} {es : List Entry}
    (h : r.featuresetEntries fs = some es) :
    ∃ config, r.config [("featureset-" : Text) ++ fs] = some config ∧
      es = sectEntries (.featureset fs) config := by
  obtain ⟨config, hconfig, h⟩ := Option.bind_eq_some_iff.mp h
  exact ⟨config, hconfig, (Option.some.inj h).symm⟩

theorem entries_eq_some {r : Reader} {es : List Entry} (h : r.entries = some es) :
    ∃ config arches featuresets inner last, r.config [] = some config ∧
      r.arches = some arches ∧ r.featuresets = some featuresets ∧
      arches.mapM r.archEntries = some inner ∧
      featuresets.mapM r.featuresetEntries = some last ∧
      es = sectEntries .top config ++ inner.flatten ++ last.flatten := by
  obtain ⟨config, hconfig, h⟩ := Option.bind_eq_some_iff.mp h
  obtain ⟨items, hitems, h⟩ := Option.bind_eq_some_iff.mp h
  obtain ⟨arches, harches, h⟩ := Option.bind_eq_some_iff.mp h
  obtain ⟨featuresets, hfeaturesets, h⟩ := Option.bind_eq_some_iff.mp h
  obtain ⟨inner, hinner, h⟩ := Option.bind_eq_some_iff.mp h
  obtain ⟨last, hlast, h⟩ := Option.bind_eq_some_iff.mp h
  refine ⟨config, arches, featuresets, inner, last, hconfig, ?_, ?_, hinner, hlast,
    (Option.some.inj h).symm⟩
  · simp only [Reader.arches, hconfig, hitems, Option.bind_eq_bind, Option.bind_some, harches]
  · simp only [Reader.featuresets, hconfig, hitems, Option.bind_eq_bind, Option.bind_some,
      hfeaturesets]

theorem ofArch_of_mem_archEntries {r : Reader} {a : Text} {es : List Entry}
    (h : r.archEntries a = some es) {w : Write Key Items} (hw : w ∈ journal es) :
    OfArch a w.key := by
  obtain ⟨config, items, featuresets, flavours, inner, -, -, -, -, hinner, rfl⟩ :=
    archEntries_eq_some h
  rw [journal_append, journal_append, List.mem_append, List.mem_append] at hw
  rcases hw with (hw | hw) | hw
  · obtain ⟨e, he, hw⟩ := List.mem_flatMap.mp hw
    obtain ⟨p, -, rfl⟩ := List.mem_map.mp he
    obtain rfl := List.mem_singleton.mp hw
    exact ofArch_archKey a featuresets p.1
  · rw [journal_flatten] at hw
    obtain ⟨es', hes', hw⟩ := List.mem_flatMap.mp hw
    obtain ⟨fs, -, hfs⟩ := mem_mapM hinner hes'
    obtain ⟨config', -, rfl⟩ := archFeaturesetEntries_eq_some hfs
    obtain ⟨e, he, hw⟩ := List.mem_flatMap.mp hw
    obtain ⟨p, -, rfl⟩ := List.mem_map.mp he
    obtain rfl := List.mem_singleton.mp hw
    rfl
  · split at hw
    · cases hw
    · rcases List.mem_cons.mp hw with rfl | hw
      · rfl
      · obtain rfl := List.mem_singleton.mp hw
        rfl

/-! ## Trees that differ in a section -/

theorem sectionRet_of_convert {schema : Schema} {s : Text × List (Text × Text)}
    {e : List Text × Items} (h : convertSection schema s = some e) :
    e.1 = sectionRet schema s.1 := by
  rw [convertSection] at h
  rw [sectionRet]
  cases hschema : schema ((s.1.splitOn '_').getLastD []) with
  | some converters =>
    simp only [hschema] at h
    obtain ⟨data, -, rfl⟩ := Option.map_eq_some_iff.mp h
    rfl
  | none =>
    simp only [hschema] at h
    obtain ⟨data, -, rfl⟩ := Option.map_eq_some_iff.mp h
    rfl

variable {r : Reader} {t' : Tree} {path header : Text}

/-- The other sections of a file are the same. -/
theorem config_filter (hagree : AgreeExcept r.files t' path header) {dirs : List Text}
    {config config' : ParsedConfig} (h : r.config dirs = some config)
    (h' : Reader.config ⟨r.schema, t'⟩ dirs = some config') :
    config.filter (fun e => e.1 ≠ sectionRet r.schema header) =
      config'.filter fun e => e.1 ≠ sectionRet r.schema header := by
  have hfilter : ∀ {sections : List (Text × List (Text × Text))} {l : ParsedConfig},
      sections.mapM (convertSection r.schema) = some l →
      (sections.filter fun s => sectionRet r.schema s.1 ≠ sectionRet r.schema header).mapM
        (convertSection r.schema) =
          some (l.filter fun e => e.1 ≠ sectionRet r.schema header) := by
    intro sections l hl
    exact filter_mapM (fun s e hs => by rw [sectionRet_of_convert hs]) hl
  have hsections : ∀ sections : List (Text × List (Text × Text)),
      sections.filter (fun s => sectionRet r.schema s.1 ≠ sectionRet r.schema header) =
        (sections.filter fun s => ¬ (getFile dirs = path ∧ s.1 = header)).filter fun s =>
          sectionRet r.schema s.1 ≠ sectionRet r.schema header := by
    intro sections
    rw [List.filter_filter]
    refine List.filter_congr fun s _ => ?_
    rcases eq_or_ne s.1 header with heq | hne
    · simp [heq]
    · simp [hne]
  have hmap := hfilter h
  rw [hsections, hagree, ← hsections, hfilter h'] at hmap
  exact (Option.some.inj hmap).symm

theorem config_same (hagree : AgreeExcept r.files t' path header) {dirs : List Text}
    (hdirs : getFile dirs ≠ path) : r.config dirs = Reader.config ⟨r.schema, t'⟩ dirs := by
  have hsections := hagree (getFile dirs)
  simp only [hdirs, false_and, not_false_eq_true, decide_true, List.filter_true] at hsections
  rw [Reader.config, Reader.config, convert, convert, hsections]

theorem lookup_filter {config : ParsedConfig} {name other : List Text} (h : name ≠ other) :
    (config.filter fun e => e.1 ≠ other).lookup name = config.lookup name := by
  induction config with
  | nil => rfl
  | cons p config ih =>
    rw [List.filter_cons]
    rcases eq_or_ne p.1 other with heq | hne
    · rw [if_neg (by simp [heq]), ih, List.lookup_cons, beq_false_of_ne (heq ▸ h)]
    · rw [if_pos (by simp [hne]), List.lookup_cons, List.lookup_cons, ih]

/-- The base section is the same, unless it is the one that differs. -/
theorem base_same (hagree : AgreeExcept r.files t' path header) {dirs : List Text}
    {config config' : ParsedConfig} (h : r.config dirs = some config)
    (h' : Reader.config ⟨r.schema, t'⟩ dirs = some config')
    (hbase : getFile dirs = path → sectionRet r.schema header ≠ [("base" : Text)]) :
    base config = base config' := by
  rcases eq_or_ne (getFile dirs) path with hdirs | hdirs
  · rw [base, base, ← lookup_filter (hbase hdirs).symm, config_filter hagree h h',
      lookup_filter (hbase hdirs).symm]
  · rw [config_same hagree hdirs, h'] at h
    rw [Option.some.inj h]

theorem writesOf_sectEntries (reading : Reading) (config : ParsedConfig) (key : Key) :
    writesOf key (journal (sectEntries reading config)) =
      (config.filter fun e => reading.key e.1 = key).map fun e =>
        ⟨reading.key e.1, reading.value e.2⟩ := by
  induction config with
  | nil => rfl
  | cons p config ih =>
    rw [sectEntries, List.map_cons, journal, List.flatMap_cons, writesOf, List.filter_append,
      List.filter_cons]
    have hrest := ih
    rw [writesOf, journal, sectEntries] at hrest
    rw [hrest, Entry.writes, List.filter_singleton]
    split
    · next heq => simp [heq]
    · next hne => simp [hne]

/-- The writes of a key are the same, if the section that differs has another one. -/
theorem writesOf_same (hagree : AgreeExcept r.files t' path header) {dirs : List Text}
    {config config' : ParsedConfig} (h : r.config dirs = some config)
    (h' : Reader.config ⟨r.schema, t'⟩ dirs = some config') {reading : Reading} {key : Key}
    (hkey : getFile dirs = path → reading.key (sectionRet r.schema header) ≠ key) :
    writesOf key (journal (sectEntries reading config)) =
      writesOf key (journal (sectEntries reading config')) := by
  rcases eq_or_ne (getFile dirs) path with hdirs | hdirs
  · have hfilter : ∀ l : ParsedConfig, (l.filter fun e => reading.key e.1 = key) =
        (l.filter fun e => e.1 ≠ sectionRet r.schema header).filter fun e =>
          reading.key e.1 = key := by
      intro l
      rw [List.filter_filter]
      refine List.filter_congr fun e _ => ?_
      rcases eq_or_ne e.1 (sectionRet r.schema header) with heq | hne
      · simp [heq, hkey hdirs]
      · simp [hne]
    rw [writesOf_sectEntries, writesOf_sectEntries, hfilter, config_filter hagree h h', ← hfilter]
  · rw [config_same hagree hdirs, h'] at h
    rw [Option.some.inj h]

theorem writesOf_append (key : Key) (es es' : List Entry) :
    writesOf key (journal (es ++ es')) =
      writesOf key (journal es) ++ writesOf key (journal es') := by
  rw [journal_append, writesOf, List.filter_append]
  rfl

theorem writesOf_mapM {key : Key} {f g : Text → Option (List Entry)} {l : List Text}
    {ess ess' : List (List Entry)} (h : l.mapM f = some ess) (h' : l.mapM g = some ess')
    (hsame : ∀ x ∈ l, ∀ es es', f x = some es → g x = some es' →
      writesOf key (journal es) = writesOf key (journal es')) :
    writesOf key (journal ess.flatten) = writesOf key (journal ess'.flatten) := by
  induction l generalizing ess ess' with
  | nil =>
    obtain rfl := Option.some.inj h
    obtain rfl := Option.some.inj h'
    rfl
  | cons x l ih =>
    rw [List.mapM_cons] at h h'
    obtain ⟨es, hes, h⟩ := Option.bind_eq_some_iff.mp h
    obtain ⟨rest, hrest, h⟩ := Option.bind_eq_some_iff.mp h
    obtain ⟨es', hes', h'⟩ := Option.bind_eq_some_iff.mp h'
    obtain ⟨rest', hrest', h'⟩ := Option.bind_eq_some_iff.mp h'
    obtain rfl := Option.some.inj h
    obtain rfl := Option.some.inj h'
    rw [List.flatten_cons, List.flatten_cons, writesOf_append, writesOf_append,
      hsame x List.mem_cons_self es es' hes hes',
      ih hrest hrest' fun y hy => hsame y (List.mem_cons_of_mem x hy)]

variable {sect : Text} {a fs fl : Option Text} {key : Key}

theorem key_ne_of_out (h : OutOfScope r path header a fs fl)
    (hkey : key ∈ ConfigCore.mergeKeys sect a fs fl) {reading : Reading}
    (hreads : r.Reads reading) (hpath : reading.path = path) :
    reading.key (sectionRet r.schema header) ≠ key := by
  rintro rfl
  obtain ⟨σ, hσ, hnot⟩ := h reading hreads hpath
  rw [key_of_scope hσ] at hkey
  exact hnot (key_mem_mergeKeys.mp hkey).2

theorem archEntries_same (hagree : AgreeExcept r.files t' path header)
    (hout : OutOfScope r path header a fs fl)
    (hkey : key ∈ ConfigCore.mergeKeys sect a fs fl) {b : Text} {es es' : List Entry}
    (h : r.archEntries b = some es) (h' : Reader.archEntries ⟨r.schema, t'⟩ b = some es')
    (hreads : ∀ featuresets, r.archFeaturesets b = some featuresets →
      r.Reads (.arch b featuresets)) :
    writesOf key (journal es) = writesOf key (journal es') := by
  obtain ⟨config, items, featuresets, flavours, inner, hconfig, hitems, hfeaturesets, hflavours,
    hinner, heq⟩ := archEntries_eq_some h
  obtain ⟨config', items', featuresets', flavours', inner', hconfig', hitems', hfeaturesets',
    hflavours', hinner', heq'⟩ := archEntries_eq_some h'
  have hnamed : r.archFeaturesets b = some featuresets := by
    simp only [Reader.archFeaturesets, hconfig, hitems, Option.bind_eq_bind, Option.bind_some,
      hfeaturesets]
  have hread := hreads featuresets hnamed
  rcases Classical.em (getFile [b] = path ∧ sectionRet r.schema header = [("base" : Text)]) with
    hbase | hbase
  · -- the featuresets may differ, but all that is read is for the architecture
    obtain ⟨σ, hσ, hnot⟩ := hout _ hread hbase.1
    rw [hbase.2, Reading.scope] at hσ
    simp only [Option.ite_none_left_eq_some, Option.some.injEq] at hσ
    obtain ⟨-, rfl⟩ := hσ
    have hnone : ∀ {w : Write Key Items}, OfArch b w.key → ¬ w.key = key := by
      rintro w hw rfl
      exact hnot (ofArch_of_mem_mergeKeys hkey hw)
    have hempty : ∀ {es : List Entry}, (∀ w ∈ journal es, OfArch b w.key) →
        writesOf key (journal es) = [] := fun hall =>
      List.filter_eq_nil_iff.mpr fun w hw heq => hnone (hall w hw) (of_decide_eq_true heq)
    rw [hempty fun w hw => ofArch_of_mem_archEntries h hw,
      hempty fun w hw => ofArch_of_mem_archEntries h' hw]
  · have hsame := base_same hagree hconfig hconfig' fun hp hs => hbase ⟨hp, hs⟩
    rw [hitems, hitems'] at hsame
    obtain rfl := Option.some.inj hsame
    obtain rfl := Option.some.inj (hfeaturesets.symm.trans hfeaturesets')
    obtain rfl := Option.some.inj (hflavours.symm.trans hflavours')
    rw [heq, heq']
    simp only [writesOf_append]
    congr 2
    · exact writesOf_same hagree hconfig hconfig' fun hp => key_ne_of_out hout hkey hread hp
    · refine writesOf_mapM hinner hinner' fun fs hfs es es' hes hes' => ?_
      obtain ⟨config, hconfig, rfl⟩ := archFeaturesetEntries_eq_some hes
      obtain ⟨config', hconfig', rfl⟩ := archFeaturesetEntries_eq_some hes'
      exact writesOf_same hagree hconfig hconfig' fun hp =>
        key_ne_of_out hout hkey (.archFeatureset hread hfs) hp

theorem entries_same (hagree : AgreeExcept r.files t' path header)
    (hout : OutOfScope r path header a fs fl)
    (hkey : key ∈ ConfigCore.mergeKeys sect a fs fl) {es es' : List Entry}
    (h : r.entries = some es) (h' : Reader.entries ⟨r.schema, t'⟩ = some es') :
    writesOf key (journal es) = writesOf key (journal es') := by
  obtain ⟨config, arches, featuresets, inner, last, hconfig, harches, hfeaturesets, hinner,
    hlast, rfl⟩ := entries_eq_some h
  obtain ⟨config', arches', featuresets', inner', last', hconfig', harches', hfeaturesets',
    hinner', hlast', rfl⟩ := entries_eq_some h'
  -- the base section of the top file is for everything
  have hbase : base config = base config' := by
    refine base_same hagree hconfig hconfig' fun hpath hheader => ?_
    obtain ⟨σ, hσ, hnot⟩ := hout .top .top hpath
    rw [hheader] at hσ
    obtain rfl := Option.some.inj hσ
    exact hnot trivial
  obtain rfl : arches = arches' := by
    have hboth := harches.symm
    simp only [Reader.arches, hconfig, Option.bind_eq_bind, Option.bind_some, hbase] at hboth
    simp only [Reader.arches, hconfig', Option.bind_eq_bind, Option.bind_some] at harches'
    exact Option.some.inj (hboth.trans harches')
  obtain rfl : featuresets = featuresets' := by
    have hboth := hfeaturesets.symm
    simp only [Reader.featuresets, hconfig, Option.bind_eq_bind, Option.bind_some, hbase] at hboth
    simp only [Reader.featuresets, hconfig', Option.bind_eq_bind, Option.bind_some]
      at hfeaturesets'
    exact Option.some.inj (hboth.trans hfeaturesets')
  simp only [writesOf_append]
  congr 1
  · congr 1
    · exact writesOf_same hagree hconfig hconfig' fun hp => key_ne_of_out hout hkey .top hp
    · exact writesOf_mapM hinner hinner' fun b hb es es' hes hes' =>
        archEntries_same hagree hout hkey hes hes' fun featuresets hfs =>
          .arch harches hb hfs
  · refine writesOf_mapM hlast hlast' fun fs hfs es es' hes hes' => ?_
    obtain ⟨config, hconfig, rfl⟩ := featuresetEntries_eq_some hes
    obtain ⟨config', hconfig', rfl⟩ := featuresetEntries_eq_some hes'
    exact writesOf_same hagree hconfig hconfig' fun hp =>
      key_ne_of_out hout hkey (.featureset hfeaturesets hfs) hp

theorem merge_same (hagree : AgreeExcept r.files t' path header)
    (hout : OutOfScope r path header a fs fl) {c c' : ConfigCore} (h : r.read = some c)
    (h' : Reader.read ⟨r.schema, t'⟩ = some c') : c.merge sect a fs fl = c'.merge sect a fs fl := by
  rw [read_eq] at h h'
  obtain ⟨es, hes, hrun⟩ := Option.bind_eq_some_iff.mp h
  obtain ⟨es', hes', hrun'⟩ := Option.bind_eq_some_iff.mp h'
  have hget : ∀ key ∈ ConfigCore.mergeKeys sect a fs fl, c.get key = c'.get key := by
    intro key hkey
    rw [ConfigCore.get, ConfigCore.get,
      run_congr hrun hrun' (entries_same hagree hout hkey hes hes') rfl]
  rw [ConfigCore.merge, ConfigCore.merge]
  exact List.foldl_ext _ _ _ fun ret key hkey => by rw [hget key hkey]

/-! ## The order of what is read -/

theorem sectionRet_inj {schema : Schema} {header header' : Text}
    (h : sectionRet schema header = sectionRet schema header') : header = header' := by
  have hjoin : ∀ header, ['_'].intercalate (sectionRet schema header) = header := by
    intro header
    rw [sectionRet]
    split
    · exact List.intercalate_splitOn '_'
    · exact List.append_nil header
  rw [← hjoin header, h, hjoin]

/-- No header occurs twice. -/
theorem nodup_config {dirs : List Text} {config : ParsedConfig}
    (h : r.config dirs = some config) : (config.map (·.1)).Nodup := by
  have hheaders : ∀ {sections : List (Text × List (Text × Text))} {l : ParsedConfig},
      sections.mapM (convertSection r.schema) = some l →
      l.map (·.1) = (sections.map (·.1)).map (sectionRet r.schema) := by
    intro sections
    induction sections with
    | nil =>
      intro l hl
      obtain rfl := Option.some.inj hl
      rfl
    | cons s sections ih =>
      intro l hl
      rw [List.mapM_cons] at hl
      obtain ⟨e, he, hl⟩ := Option.bind_eq_some_iff.mp hl
      obtain ⟨es, hes, hl⟩ := Option.bind_eq_some_iff.mp hl
      obtain rfl := Option.some.inj hl
      rw [List.map_cons, List.map_cons, List.map_cons, ih hes, sectionRet_of_convert he]
  rw [hheaders h]
  exact List.Nodup.map (fun _ _ => sectionRet_inj) (r.files (getFile dirs)).nodup

/-- The sections of the top file come first, and each has a header of its own. -/
def Before (e e' : Entry) : Prop :=
  ∀ header items, e' = .sect .top header items →
    ∃ header' items', e = .sect .top header' items' ∧ header' ≠ header

theorem entries_before {es : List Entry} (h : r.entries = some es) : es.Pairwise Before := by
  obtain ⟨config, arches, featuresets, inner, last, hconfig, -, -, hinner, hlast, rfl⟩ :=
    entries_eq_some h
  have hrest : ∀ e ∈ inner.flatten ++ last.flatten, ∀ e', Before e' e := by
    intro e he e' header items heq
    rcases List.mem_append.mp he with hin | hin
    · obtain ⟨es, hes, hentry⟩ := List.mem_flatten.mp hin
      obtain ⟨a, -, ha⟩ := mem_mapM hinner hes
      obtain ⟨config', items', featuresets', flavours', inner', -, -, -, -, hinner', rfl⟩ :=
        archEntries_eq_some ha
      rcases List.mem_append.mp hentry with hentry | hentry
      · rcases List.mem_append.mp hentry with hentry | hentry
        · obtain ⟨p, -, rfl⟩ := List.mem_map.mp hentry
          cases heq
        · obtain ⟨es', hes', hentry⟩ := List.mem_flatten.mp hentry
          obtain ⟨fs, -, hfs⟩ := mem_mapM hinner' hes'
          obtain ⟨config'', -, rfl⟩ := archFeaturesetEntries_eq_some hfs
          obtain ⟨p, -, rfl⟩ := List.mem_map.mp hentry
          cases heq
      · split at hentry
        · cases hentry
        · rw [List.mem_singleton.mp hentry] at heq
          cases heq
    · obtain ⟨es, hes, hentry⟩ := List.mem_flatten.mp hin
      obtain ⟨fs, -, hfs⟩ := mem_mapM hlast hes
      obtain ⟨config', -, rfl⟩ := featuresetEntries_eq_some hfs
      obtain ⟨p, -, rfl⟩ := List.mem_map.mp hentry
      cases heq
  rw [List.append_assoc, List.pairwise_append]
  refine ⟨?_, List.pairwise_of_forall_mem_list fun e _ e' he' => hrest e' he' e,
    fun e _ e' he' => hrest e' he' e⟩
  rw [sectEntries, List.pairwise_map]
  refine (List.pairwise_map.mp (nodup_config hconfig)).imp fun {p p'} hne header items heq => ?_
  obtain ⟨-, rfl, -⟩ := Entry.sect.inj heq
  exact ⟨p.1, p.2, rfl, hne⟩

/-- In the top file, a scope has one header for each name. -/
theorem top_scope_inj {header header' : List Text} {σ : Scope}
    (h : Reading.top.scope header = some σ) (h' : Reading.top.scope header' = some σ)
    (hlast : lastPart header = lastPart header') : header = header' := by
  have hform : ∀ {header : List Text}, Reading.top.scope header = some σ →
      σ = .all ∧ header = [lastPart header] ∨ ∃ fs, σ = .featureset fs ∧
        header = [("featureset-" : Text) ++ fs, lastPart header] := by
    intro header h
    rcases header with _ | ⟨s, _ | ⟨x, _ | ⟨y, rest⟩⟩⟩
    · cases h
    · simp only [Reading.scope, Option.ite_none_left_eq_some, Option.some.injEq] at h
      exact .inl ⟨h.2.symm, rfl⟩
    · simp only [Reading.scope, Option.ite_none_right_eq_some, Option.some.injEq] at h
      obtain ⟨hfs, rfl⟩ := h
      obtain ⟨fs, rfl⟩ := List.isPrefixOf_iff_prefix.mp hfs
      exact .inr ⟨fs, by simp, rfl⟩
    · cases h
  rcases hform h with ⟨rfl, hheader⟩ | ⟨fs, rfl, hheader⟩
  · rcases hform h' with ⟨-, hheader'⟩ | ⟨fs, heq, -⟩
    · rw [hheader, hheader', hlast]
    · cases heq
  · rcases hform h' with ⟨heq, -⟩ | ⟨fs', heq, hheader'⟩
    · cases heq
    · obtain rfl := Scope.featureset.inj heq
      rw [hheader, hheader', hlast]

/-! ## What a key holds -/

/-- What the writes of an entry do to the items of a scope. -/
theorem value_sect {reading : Reading} {items : Items} {item : Text}
    (hitem : items item = none) (htop : reading ≠ .top) {old : Option Items} {v : Items}
    (h : reading.value items old = some v) : v item = (old.getD Items.empty) item := by
  have hv : (old.getD Items.empty).update items = v := by
    cases reading with
    | top => exact absurd rfl htop
    | arch | archFeatureset | featureset => exact Option.some.inj h
  rw [← hv, Items.update_of_none hitem]

theorem implicitBase_of_not_mem {featuresets : List Text} {item : Text}
    (hitem : item ∉ [("flavours" : Text), "featuresets", "implicit-flavour"])
    (items : Items) : implicitBase featuresets items item = items item := by
  simp only [List.mem_cons, not_or] at hitem
  rw [implicitBase, if_neg hitem.1, Items.set, if_neg hitem.2.1]

theorem implicitNone_of_not_mem {flavours : List Text} {item : Text}
    (hitem : item ∉ [("flavours" : Text), "featuresets", "implicit-flavour"]) :
    implicitNone flavours item = none := by
  simp only [List.mem_cons, not_or] at hitem
  rw [implicitNone, Items.set, if_neg hitem.2.2.1, Items.set, if_neg hitem.1]
  rfl

theorem mem_journal {es : List Entry} {w : Write Key Items} (h : w ∈ journal es) :
    (∃ reading header items, .sect reading header items ∈ es ∧
        w = ⟨reading.key header, reading.value items⟩) ∨
      ∃ b featuresets flavours, .implicit b featuresets flavours ∈ es ∧
        w ∈ Entry.writes (.implicit b featuresets flavours) := by
  obtain ⟨e, he, hw⟩ := List.mem_flatMap.mp h
  cases e with
  | sect reading header items =>
    exact .inl ⟨reading, header, items, he, List.mem_singleton.mp hw⟩
  | implicit b featuresets flavours => exact .inr ⟨b, featuresets, flavours, he, hw⟩

variable {es : List Entry} {item : Text} {c : ConfigCore}

/-- The value of an item, under a key. -/
def holds (item : Text) (value : Option Value) (old : Option Items) : Prop :=
  (old.getD Items.empty) item = value

/-- A write that does not concern the item keeps it. -/
theorem keeps_implicit {value : Option Value} {b sect : Text} {featuresets flavours : List Text}
    {σ : Scope} (hnot : sect = "base" → ConfigCore.named a = some b →
      item ∉ [("flavours" : Text), "featuresets", "implicit-flavour"])
    (hscope : σ.Contains a fs fl) {w : Write Key Items}
    (hw : w ∈ Entry.writes (.implicit b featuresets flavours)) (hkey : w.key = σ.key sect)
    (hnone : sect = "base" → σ = .archFeatureset b "none" → value = none)
    {old : Option Items} {v : Items}
    (hold : holds item value old) (hv : w.value old = some v) : holds item value (some v) := by
  rcases List.mem_cons.mp hw with rfl | hw
  · obtain ⟨rfl, rfl⟩ := key_inj (σ := .arch b) hkey
    obtain ⟨base, rfl, hbase⟩ := Option.bind_eq_some_iff.mp hv
    rw [Option.ite_none_left_eq_some] at hbase
    obtain rfl := Option.some.inj hbase.2
    exact (implicitBase_of_not_mem (hnot rfl hscope) base).trans hold
  · obtain rfl := List.mem_singleton.mp hw
    obtain ⟨rfl, rfl⟩ := key_inj (σ := .archFeatureset b "none") hkey
    obtain rfl := Option.some.inj hv
    rw [hnone rfl rfl]
    exact implicitNone_of_not_mem (hnot rfl hscope.1)

/-- A section in which nothing sets the item keeps it, and so does one of the scope, if it is
not the one that is found. -/
theorem keeps_sect {value : Option Value} {reading : Reading} {items : Items}
    (hitem : items item = none) (htop : reading = .top → value = none) {old : Option Items}
    {v : Items} (hold : holds item value old) (hv : reading.value items old = some v) :
    holds item value (some v) := by
  rcases Classical.em (reading = .top) with rfl | hne
  · obtain rfl := Option.some.inj hv
    rw [htop rfl]
    exact hitem
  · exact (value_sect hitem hne hv).trans hold

theorem merge_effective {earlier later : List Entry} {reading : Reading} {header : List Text}
    {items : Items} {σ : Scope} {value : Value} (hentries : r.entries = some es)
    (hrun : run (fun _ => none) (journal es) = some c)
    (hsplit : es = earlier ++ .sect reading header items :: later)
    (hσ : reading.scope header = some σ) (hcontains : σ.Contains a fs fl)
    (hitem : items item = some value)
    (hspecific : ∀ reading' header' items' σ', .sect reading' header' items' ∈ es →
      reading'.scope header' = some σ' → lastPart header' = lastPart header →
      σ'.Contains a fs fl → σ.rank < σ'.rank → items' item = none)
    (hlater : ∀ reading' header' items', .sect reading' header' items' ∈ later →
      reading'.scope header' = some σ → lastPart header' = lastPart header → items' item = none)
    (hother : ∀ reading' header' items', .sect reading' header' items' ∈ es →
      reading'.scope header' = none →
      reading'.key header' ∈ ConfigCore.mergeKeys (lastPart header) a fs fl →
      items' item = none ∧ reading' ≠ .top)
    (himplicit : ∀ b featuresets flavours, .implicit b featuresets flavours ∈ es →
      ConfigCore.named a = some b → lastPart header = "base" →
      σ ≠ .archFeatureset b "none" ∧
        item ∉ [("flavours" : Text), "featuresets", "implicit-flavour"]) :
    c.merge (lastPart header) a fs fl item = some value := by
  have hmem : ∀ {e}, e ∈ later → e ∈ es := fun he =>
    hsplit ▸ List.mem_append_right _ (List.mem_cons_of_mem _ he)
  refine merge_eq_some hcontains ?_ fun σ' hσ' hrank => ?_
  · -- the section sets the item, and what is read later keeps it
    rw [hsplit, journal_append, journal, journal, List.flatMap_cons, ← journal] at hrun
    refine run_established (P := holds item (some value)) hrun (key_of_scope hσ) ?_ ?_
    · intro old v hv
      cases reading with
      | top =>
        obtain rfl := Option.some.inj hv
        exact hitem
      | arch | archFeatureset | featureset =>
        obtain rfl := Option.some.inj hv
        exact Items.update_of_some hitem
    · intro w hw hkey old v hold hv
      rcases mem_journal hw with ⟨reading', header', items', he, rfl⟩ |
        ⟨b, featuresets, flavours, he, hw⟩
      · cases hscope : reading'.scope header' with
        | none =>
          obtain ⟨hnone, hne⟩ := hother reading' header' items' (hmem he) hscope
            (mem_mergeKeys_of_eq hkey hcontains)
          exact keeps_sect hnone (fun h => absurd h hne) hold hv
        | some σ' =>
          obtain ⟨hlast, rfl⟩ := key_inj ((key_of_scope hscope).symm.trans hkey)
          refine keeps_sect (hlater _ _ _ he hscope hlast) ?_ hold hv
          rintro rfl
          -- in the top file, there is no other section of the scope
          have hbefore := (List.pairwise_append.mp (hsplit ▸ entries_before hentries)).2.1
          obtain ⟨s, items'', heq, hne⟩ := (List.pairwise_cons.mp hbefore).1 _ he _ _ rfl
          obtain ⟨rfl, rfl, -⟩ := Entry.sect.inj heq
          exact absurd (top_scope_inj hσ hscope hlast.symm) hne
      · refine keeps_implicit (fun hbase hnamed => (himplicit _ _ _ (hmem he) hnamed hbase).2)
          hcontains hw hkey ?_ hold hv
        rintro hbase rfl
        exact absurd rfl (himplicit _ _ _ (hmem he) hcontains.1 hbase).1
  · -- nothing in a more specific scope sets it
    refine run_invariant (P := holds item none) hrun rfl fun w hw hkey old v hold hv => ?_
    rcases mem_journal hw with ⟨reading', header', items', he, rfl⟩ |
      ⟨b, featuresets, flavours, he, hw⟩
    · refine keeps_sect ?_ (fun _ => rfl) hold hv
      cases hscope : reading'.scope header' with
      | none =>
        exact (hother _ _ _ he hscope (mem_mergeKeys_of_eq hkey hσ')).1
      | some σ'' =>
        obtain ⟨hlast, rfl⟩ := key_inj ((key_of_scope hscope).symm.trans hkey)
        exact hspecific _ _ _ _ he hscope hlast hσ' hrank
    · exact keeps_implicit (fun hbase hnamed => (himplicit _ _ _ he hnamed hbase).2) hσ' hw hkey
        (fun _ _ => rfl) hold hv

/-! ## Flavours without a featureset -/

theorem exists_last {α : Type} [DecidableEq α] {x : α} {l : List α} (h : x ∈ l) :
    ∃ s t, l = s ++ x :: t ∧ x ∉ t := by
  obtain ⟨s, t, hl, hnot⟩ := List.eq_append_cons_of_mem (List.mem_reverse.mpr h)
  refine ⟨t.reverse, s.reverse, ?_, by simpa using hnot⟩
  rw [← List.reverse_reverse l, hl]
  simp

/-- The flavours are moved after all else that is read for the architecture. -/
theorem implicit_last {b : Text} {featuresets flavours : List Text} (h : r.entries = some es)
    (hmem : .implicit b featuresets flavours ∈ es) :
    ∃ earlier later, es = earlier ++ .implicit b featuresets flavours :: later ∧
      ∀ w ∈ journal later, ¬ OfArch b w.key := by
  obtain ⟨config, arches, fss, inner, last, hconfig, -, -, hinner, hlast, rfl⟩ :=
    entries_eq_some h
  have hsect : ∀ {reading : Reading} {config : ParsedConfig},
      ¬ .implicit b featuresets flavours ∈ sectEntries reading config := by
    intro reading config hin
    obtain ⟨p, -, heq⟩ := List.mem_map.mp hin
    cases heq
  have hlastEntries : ∀ w ∈ journal last.flatten, ¬ OfArch b w.key := by
    intro w hw
    rw [journal_flatten] at hw
    obtain ⟨es, hes, hw⟩ := List.mem_flatMap.mp hw
    obtain ⟨fs, -, hfs⟩ := mem_mapM hlast hes
    obtain ⟨config', -, rfl⟩ := featuresetEntries_eq_some hfs
    obtain ⟨e, he, hw⟩ := List.mem_flatMap.mp hw
    obtain ⟨p, -, rfl⟩ := List.mem_map.mp he
    obtain rfl := List.mem_singleton.mp hw
    exact nofun
  have hfeatureset : ¬ .implicit b featuresets flavours ∈ last.flatten := by
    intro hin
    refine hlastEntries ⟨[some ("base" : Text), some b, some ("none" : Text)],
      fun _ => some (implicitNone flavours)⟩ (List.mem_flatMap.mpr ⟨_, hin, ?_⟩) rfl
    exact List.mem_cons_of_mem _ List.mem_cons_self
  have hin := ((List.mem_append.mp hmem).resolve_right hfeatureset)
  obtain ⟨es, hes, hmem⟩ := List.mem_flatten.mp ((List.mem_append.mp hin).resolve_left hsect)
  obtain ⟨b', hb', harch⟩ := mem_mapM hinner hes
  obtain ⟨config', items', featuresets', flavours', inner', -, -, -, -, hinner', heq⟩ :=
    archEntries_eq_some harch
  have hinnerNot : ¬ .implicit b featuresets flavours ∈ inner'.flatten := by
    intro hin
    obtain ⟨es', hes', hin⟩ := List.mem_flatten.mp hin
    obtain ⟨fs, -, hfs⟩ := mem_mapM hinner' hes'
    obtain ⟨config'', -, rfl⟩ := archFeaturesetEntries_eq_some hfs
    exact hsect hin
  have hend := hmem
  rw [heq] at hend
  have hend := (List.mem_append.mp hend).resolve_left fun hin =>
    (List.mem_append.mp hin).elim hsect hinnerNot
  split at hend
  · cases hend
  · next hflavours =>
    obtain ⟨rfl, rfl, rfl⟩ := Entry.implicit.inj (List.mem_singleton.mp hend)
    rw [if_neg hflavours] at heq
    -- the last time that the architecture is read
    obtain ⟨s, t, rfl, hnot⟩ := exists_last hb'
    rw [List.mapM_append] at hinner
    obtain ⟨before, -, hinner⟩ := Option.bind_eq_some_iff.mp hinner
    obtain ⟨after, hafter, hinner⟩ := Option.bind_eq_some_iff.mp hinner
    obtain rfl := Option.some.inj hinner
    rw [List.mapM_cons, harch, Option.bind_eq_bind, Option.bind_some] at hafter
    obtain ⟨after, hrest, hafter⟩ := Option.bind_eq_some_iff.mp hafter
    obtain rfl := Option.some.inj hafter
    refine ⟨sectEntries .top config ++ before.flatten ++
      (sectEntries (.arch b featuresets) config' ++ inner'.flatten),
      after.flatten ++ last.flatten, ?_, ?_⟩
    · rw [heq]
      simp [List.append_assoc]
    · intro w hw
      rw [journal_append] at hw
      rcases List.mem_append.mp hw with hw | hw
      · rw [journal_flatten] at hw
        obtain ⟨es', hes', hw⟩ := List.mem_flatMap.mp hw
        obtain ⟨x, hx, hfx⟩ := mem_mapM hrest hes'
        intro hof
        have hx' := ofArch_of_mem_archEntries hfx hw
        obtain rfl := Option.some.inj (Option.some.inj (hof.symm.trans hx'))
        exact hnot hx
      · exact hlastEntries w hw

theorem implicit_moved {b : Text} {featuresets flavours : List Text} (h : r.entries = some es)
    (hrun : run (fun _ => none) (journal es) = some c)
    (hmem : .implicit b featuresets flavours ∈ es) :
    (c.get [some ("base" : Text), some b]) "flavours" = none ∧
      (c.get [some ("base" : Text), some b]) "featuresets" =
        some (.list (("none" : Text) :: featuresets)) ∧
      c.get [some ("base" : Text), some b, some ("none" : Text)] = implicitNone flavours := by
  obtain ⟨earlier, later, rfl, hlater⟩ := implicit_last h hmem
  rw [journal_append, journal, journal, List.flatMap_cons, ← journal, Entry.writes] at hrun
  have hbase := run_established (k := [some ("base" : Text), some b])
    (P := fun old => (old.getD Items.empty) "flavours" = none ∧
      (old.getD Items.empty) "featuresets" = some (.list (("none" : Text) :: featuresets)))
    hrun rfl
    (fun old v hv => by
      obtain ⟨base, rfl, hbase⟩ := Option.bind_eq_some_iff.mp hv
      rw [Option.ite_none_left_eq_some] at hbase
      obtain rfl := Option.some.inj hbase.2
      exact ⟨rfl, rfl⟩)
    (fun w hw hkey => by
      rcases List.mem_cons.mp hw with rfl | hw
      · cases hkey
      · exact absurd (congrArg (·[1]?) hkey) (hlater w hw))
  -- the write of the flavours themselves is the next one
  rw [List.cons_append, List.append_cons] at hrun
  have hnone := run_established (k := [some ("base" : Text), some b, some ("none" : Text)])
    (P := fun old => old.getD Items.empty = implicitNone flavours) hrun rfl
    (fun old v hv => by rw [← Option.some.inj hv]; rfl)
    fun w hw hkey => absurd (congrArg (·[1]?) hkey) (hlater w hw)
  exact ⟨hbase.1, hbase.2, hnone⟩

end ConfigScopeLemmas

open ConfigScopeLemmas

/-! ## Result -/

/-- A file with these sections. -/
def definesFile (sections : List (Text × List (Text × Text)))
    (h : (sections.map (·.1)).Nodup := by decide) : DefinesFile := ⟨sections, h⟩

def amd64Reader : Reader where
  schema := schemaComplete fun sect => if sect = "image" then some fun _ => none else none
  files path :=
    if path = "defines" then
      definesFile [("base", [("arches", "amd64"), ("featuresets", "none rt")]),
        ("featureset-rt_base", [("enabled", "false")])]
    else if path = "amd64/defines" then
      definesFile [("base", [("featuresets", "none rt")]), ("image", [("install-stem", "vmlinuz")]),
        ("amd64_image", [("configs", "kernelarch-x86/config-arch-64")])]
    else if path = "amd64/none/defines" ∨ path = "amd64/rt/defines" then
      definesFile [("base", [("flavours", "amd64")])]
    else definesFile []

/-- What is read of the tree. -/
theorem amd64Reader_entries : ∃ base rt arch image flavour none' rt' : Items,
    amd64Reader.entries = some [.sect .top [("base" : Text)] base,
      .sect .top [("featureset-rt" : Text), ("base" : Text)] rt,
      .sect (.arch "amd64" ["none", "rt"]) [("base" : Text)] arch,
      .sect (.arch "amd64" ["none", "rt"]) [("image" : Text)] image,
      .sect (.arch "amd64" ["none", "rt"]) [("amd64" : Text), ("image" : Text)] flavour,
      .sect (.archFeatureset "amd64" "none") [("base" : Text)] none',
      .sect (.archFeatureset "amd64" "rt") [("base" : Text)] rt'] ∧
      flavour "configs" = some (.text "kernelarch-x86/config-arch-64") := by
  refine ⟨_, _, _, _, _, _, _, rfl, ?_⟩
  decide +kernel

/-- The tree with the featureset `rt` enabled. -/
def rtEnabledTree : Tree := fun path =>
  if path = "defines" then
    definesFile [("base", [("arches", "amd64"), ("featuresets", "none rt")]),
      ("featureset-rt_base", [("enabled", "true")])]
  else amd64Reader.files path

theorem rtEnabledTree_agree :
    AgreeExcept amd64Reader.files rtEnabledTree "defines" "featureset-rt_base" := by
  intro q
  by_cases hq : q = "defines"
  · subst hq
    decide +kernel
  · rw [rtEnabledTree, if_neg hq]

/-- The featureset `rt` is set in the top file. -/
theorem rt_outOfScope : OutOfScope amd64Reader "defines" "featureset-rt_base" (some "amd64")
    (some "none") (some "amd64") := by
  have harches : amd64Reader.arches = some [("amd64" : Text)] := rfl
  have hfeaturesets : amd64Reader.featuresets = some [("none" : Text), "rt"] := rfl
  have harch : ∀ {a featuresets}, amd64Reader.Reads (.arch a featuresets) →
      a = "amd64" ∧ featuresets = [("none" : Text), "rt"] := by
    intro a featuresets h
    cases h with
    | arch h ha hfs =>
      obtain rfl := Option.some.inj (harches.symm.trans h)
      obtain rfl := List.mem_singleton.mp ha
      exact ⟨rfl, (Option.some.inj hfs).symm⟩
  intro reading hreads hpath
  cases hreads with
  | top => exact ⟨.featureset "rt", rfl, fun h => absurd (Option.some.inj h) (by decide)⟩
  | arch h ha hfs =>
    obtain ⟨rfl, rfl⟩ := harch (.arch h ha hfs)
    exact absurd hpath (by decide)
  | archFeatureset h hmem =>
    obtain ⟨rfl, rfl⟩ := harch h
    rcases List.mem_pair.mp hmem with rfl | rfl
    · exact absurd hpath (by decide)
    · exact absurd hpath (by decide)
  | featureset h hmem =>
    obtain rfl := Option.some.inj (hfeaturesets.symm.trans h)
    rcases List.mem_pair.mp hmem with rfl | rfl
    · exact absurd hpath (by decide)
    · exact absurd hpath (by decide)

def alphaReader : Reader where
  schema := schemaBase
  files path :=
    if path = "defines" then definesFile [("base", [("arches", "alpha")])]
    else if path = "alpha/defines" then definesFile [("base", [("flavours", "alpha-smp")])]
    else definesFile []

end DebianKernel.Debian
