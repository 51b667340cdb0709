import DebianKernel.Debian.AbiName
import Mathlib.Data.Char
import Mathlib.Data.List.Lex
import Mathlib.Data.List.Sort
import Mathlib.Logic.Relation

/-!
# The rules for the kernels

`gencontrol.py` writes `debian/rules.gen`. The targets of a kernel are chained, with
`setup`, `build-arch` or `binary-arch` for `K`:

    K → K_arch → K_arch_featureset → K_arch_featureset_flavour
      → K_arch_featureset_flavour_real

The last one has the recipe. The names of all kernels are handed to the rules for the
source package as `ALL_TRIPLETS`, and that list is computed before, in a traversal of the
configuration of its own.

Results:
1. `dep_add`, `has_add`: what an addition to the rules changes.
2. `doMain_dep`, `doMain_has`: the chains and the recipes of a run.
3. `tripletsAgree_iff`: the configurations for which both traversals find the same kernels.
-/

namespace DebianKernel.Debian

/-! ## Rules -/

/-- A command that makes a target of `debian/rules.real`. Only those flags are part of it
that `gencontrol.py` does not take from the settings of the packages. -/
structure Command where
  goal : Text
  flags : Vars

/-- `Rule`. The dependencies are a set. -/
structure Rule where
  deps : List Text
  cmds : List (List Command)

namespace Rule

def empty : Rule := ⟨[], []⟩

def add (r : Rule) (deps : List Text) (cmds : Option (List Command)) : Rule :=
  ⟨r.deps ++ deps, r.cmds ++ cmds.toList⟩

end Rule

/-- `Makefile`, by the name of the rule. -/
abbrev Makefile := Text → Option Rule

namespace Makefile

def empty : Makefile := fun _ => none

/-- `self.rules[name]`, without commands when there is none yet. -/
def rule (m : Makefile) (name : Text) : Rule := (m name).getD Rule.empty

def setRule (m : Makefile) (name : Text) (r : Rule) : Makefile :=
  fun n => if n = name then some r else m n

def add (m : Makefile) (name : Text) (deps : List Text) (cmds : Option (List Command)) :
    Makefile :=
  deps.foldl (fun m i => m.setRule i (m.rule i)) (m.setRule name ((m.rule name).add deps cmds))

/-- The target depends on the other one. -/
def Dep (m : Makefile) (name dep : Text) : Prop := dep ∈ (m.rule name).deps

/-- The recipe of the target has that command. -/
def Has (m : Makefile) (name : Text) (c : Command) : Prop := ∃ cs ∈ (m.rule name).cmds, c ∈ cs

/-- Making the first target makes the other one. -/
def Reaches (m : Makefile) : Text → Text → Prop := Relation.ReflTransGen m.Dep

theorem rule_setRule (m : Makefile) (name : Text) (r : Rule) (n : Text) :
    (m.setRule name r).rule n = if n = name then r else m.rule n := by
  rw [rule, setRule]
  split <;> rfl

theorem rule_add (m : Makefile) (name : Text) (deps : List Text)
    (cmds : Option (List Command)) (n : Text) :
    (m.add name deps cmds).rule n =
      if n = name then (m.rule name).add deps cmds else m.rule n := by
  have hensure : ∀ (l : List Text) (m : Makefile),
      (l.foldl (fun m i => m.setRule i (m.rule i)) m).rule n = m.rule n := by
    intro l
    induction l with
    | nil => exact fun _ => rfl
    | cons i l ih =>
      intro m
      rw [List.foldl_cons, ih, rule_setRule]
      split
      · next h => rw [h]
      · rfl
  rw [add, hensure, rule_setRule]

theorem dep_add {m : Makefile} {name : Text} {deps : List Text}
    {cmds : Option (List Command)} {n dep : Text} :
    (m.add name deps cmds).Dep n dep ↔ m.Dep n dep ∨ n = name ∧ dep ∈ deps := by
  rw [Dep, Dep, rule_add]
  split
  · next h =>
    subst h
    simp [Rule.add]
  · next h => simp [h]

theorem has_add {m : Makefile} {name : Text} {deps : List Text}
    {cmds : Option (List Command)} {n : Text} {c : Command} :
    (m.add name deps cmds).Has n c ↔ m.Has n c ∨ n = name ∧ ∃ cs ∈ cmds, c ∈ cs := by
  rw [Has, Has, rule_add]
  split
  · next h =>
    subst h
    simp only [Rule.add, List.mem_append, Option.mem_toList, true_and, or_and_right, exists_or,
      Option.mem_def]
  · next h => simp [h]

@[simp] theorem not_dep_empty (n dep : Text) : ¬ empty.Dep n dep := List.not_mem_nil

@[simp] theorem not_has_empty (n : Text) (c : Command) : ¬ empty.Has n c :=
  fun ⟨_, h, _⟩ => List.not_mem_nil h

end Makefile

/-! ## Names -/

/-- `'_'.join(parts)`. -/
def joinName (parts : List Text) : Text := List.intercalate ['_'] parts

/-- `'%s_%s_%s' % (arch, featureset, flavour)`. -/
def tripletName (arch featureset flavour : Text) : Text := joinName [arch, featureset, flavour]

/-- The steps from a target to one of the next level and to the one that does the work. -/
def addChain (m : Makefile) (parts : List Text) (name : Text) : Makefile :=
  (m.add (joinName parts) [joinName (parts ++ [name])] none).add (joinName (parts ++ [name]))
    [joinName (parts ++ [name, "real"])] none

def makefileTargets : List Text := ["binary-arch", "build-arch", "setup"]

/-- The three targets of each level. -/
def addChains (m : Makefile) (parts : List Text) (name : Text) : Makefile :=
  makefileTargets.foldl (fun m i => addChain m (i :: parts) name) m

/-! ## The flat traversal -/

namespace ConfigCore

/-- `merge('base', arch, featureset).get('enabled', True)`. -/
def enabled (config : ConfigCore) (arch : Option Text) (featureset : Text) : Bool :=
  ((config.merge "base" arch (some featureset) none "enabled").map Value.truth).getD true

/-- `fs_enabled`. -/
def fsEnabled (config : ConfigCore) : Option (List Text) := do
  let featuresets ← config.list? [some "base"] "featuresets"
  pure (featuresets.filter (config.enabled none))

/-- `triplet_enabled`. -/
def tripletEnabled (config : ConfigCore) : Option (List Text) := do
  let arches ← config.list? [some "base"] "arches"
  arches.foldlM (fun ret arch => do
    let featuresets ← config.listD? [some "base", some arch] "featuresets"
    featuresets.foldlM (fun ret featureset =>
      if config.enabled none featureset then do
        let flavours ← config.list? [some "base", some arch, some featureset] "flavours"
        pure (ret ++ flavours.map (tripletName arch featureset))
      else pure ret) ret) []

end ConfigCore

/-! ## The generator -/

/-- The steps that make the packages, and fail when a setting or a file is missing. `P` is
what they hand on: the packages, the templates and the files written so far. -/
structure PackageSteps (P : Type) where
  /-- Also gives the names of the installer packages. -/
  arch : P → Text → Option (P × List Text)
  featureset : P → Text → Text → Option P
  /-- Also gives the names of the dummy packages. -/
  flavour : P → Text → Text → Text → Option (P × List Text)

namespace Gencontrol

def doMainMakefile (g : Gencontrol) (m : Makefile) (makeflags : Vars) : Option Makefile := do
  let fsEnabled ← g.config.fsEnabled
  let m := fsEnabled.foldl (fun m featureset =>
    m.add (joinName ["source", featureset, "real"]) []
        (some [⟨"source-featureset", makeflags.set "FEATURESET" featureset⟩])
      |>.add (joinName ["source", featureset]) [joinName ["source", featureset, "real"]] none
      |>.add "source" [joinName ["source", featureset]] none) m
  let tripletEnabled ← g.config.tripletEnabled
  let makeflags := makeflags
    |>.set "ALL_FEATURESETS" (List.intercalate [' '] fsEnabled)
    |>.set "ALL_TRIPLETS" (List.intercalate [' '] tripletEnabled)
  pure (m.add "build-indep" [] (some [⟨"build-indep", makeflags⟩])
    |>.add "binary-indep" [] (some [⟨"binary-indep", makeflags⟩])
    |>.add "binary-indep" ["setup"] none)

variable {P : Type} (steps : PackageSteps P)

def doFlavour (arch featureset : Text) (makeflags : Vars) (s : P × Makefile) (flavour : Text) :
    Option (P × Makefile) := do
  let makeflags := makeflags.set "FLAVOUR" flavour
  let m := addChains s.2 [arch, featureset] flavour
  let (packages, dummy) ← steps.flavour s.1 arch featureset flavour
  let installDummy := if dummy = [] then [] else [⟨"install-dummy", makeflags.set "DH_OPTIONS"
    (List.intercalate [' '] (dummy.map fun name => "-p" ++ name))⟩]
  pure (packages, m.add (joinName ["binary-arch", arch, featureset, flavour, "real"]) []
      (some (⟨"binary-arch-flavour", makeflags⟩ :: installDummy))
    |>.add (joinName ["build-arch", arch, featureset, flavour, "real"]) []
      (some [⟨"build-arch", makeflags⟩])
    |>.add (joinName ["setup", arch, featureset, flavour, "real"]) []
      (some [⟨"setup-flavour", makeflags⟩]))

def doFeatureset (g : Gencontrol) (arch : Text) (makeflags : Vars) (s : P × Makefile)
    (featureset : Text) : Option (P × Makefile) :=
  if g.config.enabled (some arch) featureset then do
    let makeflags := makeflags.set "FEATURESET" featureset
    let m := addChains s.2 [arch] featureset
    let packages ← steps.featureset s.1 arch featureset
    let m := m.add (joinName ["binary-arch", arch, featureset, "real"]) []
      (some [⟨"binary-arch-featureset", makeflags⟩])
    let flavours ← g.config.list? [some "base", some arch, some featureset] "flavours"
    flavours.foldlM (doFlavour steps arch featureset makeflags) (packages, m)
  else some s

def doArchMakefile (g : Gencontrol) (s : P × Makefile) (arch : Text) : Option (P × Makefile) := do
  let m := addChains s.2 [] arch
  let featuresets ← g.config.listD? [some "base", some arch] "featuresets"
  let makeflags := (g.doArch arch).2
  let makeflags := if featuresets = [] then makeflags.set "FOREIGN_KERNEL" "True" else makeflags
  let (packages, udebs) ← steps.arch s.1 arch
  let m := m.add (joinName ["binary-arch", arch, "real"]) []
      (some [⟨"binary-arch-arch", makeflags⟩])
    |>.add (joinName ["binary-libc-dev", arch]) ["source_none_real"]
      (some [⟨joinName ["install-libc-dev", arch], makeflags⟩])
  let m := if udebs = [] then m else m.add (joinName ["binary-arch", arch]) []
    (some [⟨joinName ["install-udeb", arch],
      makeflags.set "PACKAGE_NAMES" (List.intercalate [' '] udebs)⟩])
  featuresets.foldlM (g.doFeatureset steps arch makeflags) (packages, m)

/-- `do_extra`, for the names and the architectures of the additional packages. -/
def doExtra (extra : List (Text × List Text)) (m : Makefile) : Makefile :=
  let arches := (extra.flatMap Prod.snd).dedup.insertionSort (· ≤ ·)
  arches.foldl (fun m arch =>
    m.add (joinName ["binary-arch", arch]) [joinName ["binary-arch", arch, "extra"]] none
      |>.add (joinName ["binary-arch", arch, "extra"]) []
        (some ((extra.filter fun p => p.2.contains arch).map fun p =>
          ⟨"install-dummy", Vars.empty.set "ARCH" arch |>.set "DH_OPTIONS" ("-p" ++ p.1)⟩))) m

/-- The rules that a run writes. `none` when it raises. -/
def doMain (g : Gencontrol) (packages : P) (extra : List (Text × List Text)) :
    Option Makefile := do
  let m ← g.doMainMakefile (Makefile.empty.add ".NOTPARALLEL" [] none) g.mainFlags
  let arches ← g.config.list? [some "base"] "arches"
  let (_, m) ← arches.foldlM (g.doArchMakefile steps) (packages, m)
  pure (doExtra extra m)

end Gencontrol

/-! ## Loops -/

namespace RulesGenLemmas

/-- What a loop establishes, when each step only adds to it. -/
theorem foldlM_iff {σ α : Type} {f : σ → α → Option σ} {Q : σ → Prop} {R : α → Prop} {l : List α}
    {s s' : σ} (h : l.foldlM f s = some s')
    (hstep : ∀ {s x s'}, f s x = some s' → (Q s' ↔ Q s ∨ R x)) :
    Q s' ↔ Q s ∨ ∃ x ∈ l, R x := by
  induction l generalizing s with
  | nil =>
    cases h
    simp
  | cons x l ih =>
    rw [List.foldlM_cons] at h
    obtain ⟨t, ht, h⟩ := Option.bind_eq_some_iff.mp h
    rw [ih h, hstep ht, or_assoc, List.exists_mem_cons_iff]

theorem foldl_iff {σ α : Type} {f : σ → α → σ} {Q : σ → Prop} {R : α → Prop}
    (hstep : ∀ {s x}, Q (f s x) ↔ Q s ∨ R x) {l : List α} :
    ∀ {s : σ}, Q (l.foldl f s) ↔ Q s ∨ ∃ x ∈ l, R x := by
  induction l with
  | nil => simp
  | cons x l ih =>
    intro s
    rw [List.foldl_cons, ih, hstep, or_assoc, List.exists_mem_cons_iff]

end RulesGenLemmas

/-! ## What a run writes -/

/-- The recipes for a kernel: the target, and the target of `debian/rules.real`. -/
def kernelRecipes : List (Text × Text) :=
  [("binary-arch", "binary-arch-flavour"), ("build-arch", "build-arch"), ("setup", "setup-flavour")]

/-- The targets of `debian/rules.real` for kernels and for sources of featuresets. -/
def tracedGoals : List Text := "source-featureset" :: kernelRecipes.map Prod.snd

/-- The dependencies that lead to one name of a level. -/
def ChainDep (parts : List Text) (name n dep : Text) : Prop :=
  ∃ i ∈ makefileTargets,
    n = joinName (i :: parts) ∧ dep = joinName (i :: (parts ++ [name])) ∨
    n = joinName (i :: (parts ++ [name])) ∧ dep = joinName (i :: (parts ++ [name, "real"]))

/-- The architectures, featuresets and flavours that are listed. -/
def ConfigCore.arches (config : ConfigCore) : List Text :=
  (config.list? [some "base"] "arches").getD []

def ConfigCore.featuresets (config : ConfigCore) (arch : Text) : List Text :=
  (config.listD? [some "base", some arch] "featuresets").getD []

def ConfigCore.flavours (config : ConfigCore) (arch featureset : Text) : List Text :=
  (config.list? [some "base", some arch, some featureset] "flavours").getD []

/-- The configuration lists a kernel. -/
def ConfigCore.Lists (config : ConfigCore) (arch featureset flavour : Text) : Prop :=
  arch ∈ config.arches ∧ featureset ∈ config.featuresets arch ∧
    flavour ∈ config.flavours arch featureset

/-- The flags for a kernel. -/
def kernelFlags (makeflags : Vars) (featureset flavour : Text) : Vars :=
  (makeflags.set "FEATURESET" featureset).set "FLAVOUR" flavour

/-- The recipes that are written for a kernel. -/
def KernelRecipe (makeflags : Vars) (arch featureset flavour n : Text) (c : Command) : Prop :=
  ∃ p ∈ kernelRecipes, n = joinName [p.1, arch, featureset, flavour, "real"] ∧
    c = ⟨p.2, kernelFlags makeflags featureset flavour⟩

namespace RulesGenLemmas

open Makefile

theorem addChains_dep {m : Makefile} {parts : List Text} {name n dep : Text} :
    (addChains m parts name).Dep n dep ↔ m.Dep n dep ∨ ChainDep parts name n dep :=
  foldl_iff (Q := fun m : Makefile => m.Dep n dep) fun {m i} => by
    rw [addChain, dep_add, dep_add, or_assoc, List.mem_singleton, List.mem_singleton]
    rfl

theorem addChains_has {m : Makefile} {parts : List Text} {name n : Text} {c : Command} :
    (addChains m parts name).Has n c ↔ m.Has n c := by
  simp [addChains, makefileTargets, addChain, has_add]

theorem has_add_none {m : Makefile} {name n : Text} {deps : List Text} {c : Command} :
    (m.add name deps none).Has n c ↔ m.Has n c := by
  simp [has_add]

/-- Other recipes are not looked at. -/
theorem has_add_other {m : Makefile} {name n : Text} {deps : List Text} {cs : List Command}
    {c : Command} (hc : c.goal ∈ tracedGoals) (hcs : ∀ c ∈ cs, c.goal ∉ tracedGoals) :
    (m.add name deps (some cs)).Has n c ↔ m.Has n c := by
  rw [has_add]
  refine or_iff_left ?_
  rintro ⟨-, _, hsome, hmem⟩
  obtain rfl := Option.mem_some_iff.mp hsome
  exact hcs c hmem hc

theorem has_add_one {m : Makefile} {name n goal : Text} {deps : List Text} {flags : Vars}
    {c : Command} (hc : c.goal ∈ tracedGoals) (hgoal : goal ∉ tracedGoals) :
    (m.add name deps (some [⟨goal, flags⟩])).Has n c ↔ m.Has n c :=
  has_add_other hc fun c' hc' => by
    rw [List.mem_singleton.mp hc']
    exact hgoal

variable {P : Type} {steps : PackageSteps P} {g : Gencontrol}

theorem doFlavour_dep {arch featureset flavour n dep : Text} {makeflags : Vars}
    {s s' : P × Makefile}
    (h : Gencontrol.doFlavour steps arch featureset makeflags s flavour = some s') :
    s'.2.Dep n dep ↔ s.2.Dep n dep ∨ ChainDep [arch, featureset] flavour n dep := by
  obtain ⟨⟨packages, dummy⟩, -, h⟩ := Option.bind_eq_some_iff.mp h
  cases h
  simp only [dep_add, addChains_dep, List.not_mem_nil, and_false, or_false]

theorem doFlavour_has {arch featureset flavour n : Text} {makeflags : Vars} {c : Command}
    {s s' : P × Makefile} (hc : c.goal ∈ tracedGoals)
    (h : Gencontrol.doFlavour steps arch featureset (makeflags.set "FEATURESET" featureset) s
      flavour = some s') :
    s'.2.Has n c ↔ s.2.Has n c ∨ KernelRecipe makeflags arch featureset flavour n c := by
  obtain ⟨⟨packages, dummy⟩, -, h⟩ := Option.bind_eq_some_iff.mp h
  cases h
  have hdummy : ∀ flags : Vars, c ≠ ⟨"install-dummy", flags⟩ := by
    rintro flags rfl
    exact absurd (show ("install-dummy" : Text) ∈ tracedGoals from hc) (by decide)
  have hmem : ∀ (d : Command) (flags : Vars),
      c ∈ d :: (if dummy = [] then [] else [⟨"install-dummy", flags⟩]) ↔ c = d := by
    intro d flags
    rw [List.mem_cons]
    refine or_iff_left fun h => ?_
    split at h
    · cases h
    · exact hdummy flags (List.mem_singleton.mp h)
  simp only [has_add, addChains_has, Option.mem_some_iff, exists_eq_left', List.mem_singleton,
    hmem, KernelRecipe, kernelRecipes, List.exists_mem_cons_iff, or_assoc, exists_eq_left,
    kernelFlags]

theorem doFeatureset_dep {arch featureset n dep : Text} {makeflags : Vars} {s s' : P × Makefile}
    (h : g.doFeatureset steps arch makeflags s featureset = some s') :
    s'.2.Dep n dep ↔ s.2.Dep n dep ∨ g.config.enabled (some arch) featureset = true ∧
      (ChainDep [arch] featureset n dep ∨ ∃ flavour ∈ g.config.flavours arch featureset,
        ChainDep [arch, featureset] flavour n dep) := by
  rw [Gencontrol.doFeatureset] at h
  split at h
  · next henabled =>
    obtain ⟨packages, -, h⟩ := Option.bind_eq_some_iff.mp h
    obtain ⟨flavours, hflavours, h⟩ := Option.bind_eq_some_iff.mp h
    rw [foldlM_iff (Q := fun s : P × Makefile => s.2.Dep n dep) h doFlavour_dep]
    simp only [dep_add, addChains_dep, List.not_mem_nil, and_false, or_false, henabled, true_and,
      ConfigCore.flavours, hflavours, Option.getD_some, or_assoc]
  · next henabled =>
    cases h
    simp [henabled]

theorem doFeatureset_has {arch featureset n : Text} {makeflags : Vars} {c : Command}
    {s s' : P × Makefile} (hc : c.goal ∈ tracedGoals)
    (h : g.doFeatureset steps arch makeflags s featureset = some s') :
    s'.2.Has n c ↔ s.2.Has n c ∨ g.config.enabled (some arch) featureset = true ∧
      ∃ flavour ∈ g.config.flavours arch featureset,
        KernelRecipe makeflags arch featureset flavour n c := by
  rw [Gencontrol.doFeatureset] at h
  split at h
  · next henabled =>
    obtain ⟨packages, -, h⟩ := Option.bind_eq_some_iff.mp h
    obtain ⟨flavours, hflavours, h⟩ := Option.bind_eq_some_iff.mp h
    have hother : ("binary-arch-featureset" : Text) ∉ tracedGoals := by decide
    rw [foldlM_iff (Q := fun s : P × Makefile => s.2.Has n c) h (doFlavour_has hc),
      has_add_one hc hother, addChains_has]
    simp only [henabled, true_and, ConfigCore.flavours, hflavours, Option.getD_some]
  · next henabled =>
    cases h
    simp [henabled]

theorem install_not_traced {goal arch : Text} (h : goal.head? = some 'i') :
    joinName [goal, arch] ∉ tracedGoals := by
  intro hmem
  have htraced : ∀ g ∈ tracedGoals, g.head? ≠ some 'i' := by decide
  refine htraced _ hmem ?_
  show (goal ++ _).head? = some 'i'
  rw [List.head?_append, h]
  rfl

theorem doArchMakefile_dep {arch n dep : Text} {s s' : P × Makefile}
    (h : g.doArchMakefile steps s arch = some s') :
    s'.2.Dep n dep ↔ s.2.Dep n dep ∨ ChainDep [] arch n dep ∨
      (n = joinName ["binary-libc-dev", arch] ∧ dep = "source_none_real") ∨
      ∃ featureset ∈ g.config.featuresets arch, g.config.enabled (some arch) featureset = true ∧
        (ChainDep [arch] featureset n dep ∨ ∃ flavour ∈ g.config.flavours arch featureset,
          ChainDep [arch, featureset] flavour n dep) := by
  obtain ⟨featuresets, hfeaturesets, h⟩ := Option.bind_eq_some_iff.mp h
  obtain ⟨⟨packages, udebs⟩, -, h⟩ := Option.bind_eq_some_iff.mp h
  rw [foldlM_iff (Q := fun s : P × Makefile => s.2.Dep n dep) h doFeatureset_dep]
  have hudebs : ∀ (m : Makefile) (name : Text) (cmds : Option (List Command)),
      (if udebs = [] then m else m.add name [] cmds).Dep n dep ↔ m.Dep n dep := by
    intro m name cmds
    split
    · rfl
    · simp only [dep_add, List.not_mem_nil, and_false, or_false]
  simp only [hudebs, dep_add, addChains_dep, List.not_mem_nil, and_false, or_false,
    List.mem_singleton, ConfigCore.featuresets, hfeaturesets, Option.getD_some, or_assoc]

theorem doArchMakefile_has {arch n : Text} {c : Command} {s s' : P × Makefile}
    (hc : c.goal ∈ tracedGoals) (h : g.doArchMakefile steps s arch = some s') :
    s'.2.Has n c ↔ s.2.Has n c ∨ ∃ featureset ∈ g.config.featuresets arch,
      g.config.enabled (some arch) featureset = true ∧
        ∃ flavour ∈ g.config.flavours arch featureset,
          KernelRecipe (g.doArch arch).2 arch featureset flavour n c := by
  obtain ⟨featuresets, hfeaturesets, h⟩ := Option.bind_eq_some_iff.mp h
  obtain ⟨⟨packages, udebs⟩, -, h⟩ := Option.bind_eq_some_iff.mp h
  rw [foldlM_iff (Q := fun s : P × Makefile => s.2.Has n c) h (doFeatureset_has hc)]
  have hudebs : ∀ (m : Makefile) (name : Text) (flags : Vars),
      (if udebs = [] then m else m.add name []
        (some [⟨joinName ["install-udeb", arch], flags⟩])).Has n c ↔ m.Has n c := by
    intro m name flags
    split
    · rfl
    · exact has_add_one hc (install_not_traced rfl)
  have harch : ("binary-arch-arch" : Text) ∉ tracedGoals := by decide
  have hlibc : joinName ["install-libc-dev", arch] ∉ tracedGoals := install_not_traced rfl
  rw [hudebs, has_add_one hc hlibc, has_add_one hc harch, addChains_has]
  -- without featuresets no flag of a recipe is looked at
  cases featuresets with
  | nil => simp only [ConfigCore.featuresets, hfeaturesets, Option.getD_some, List.not_mem_nil,
      false_and, exists_false]
  | cons featureset featuresets =>
    simp only [ConfigCore.featuresets, hfeaturesets, Option.getD_some,
      if_neg (List.cons_ne_nil _ _)]

theorem doMainMakefile_dep {m m' : Makefile} {makeflags : Vars} {n dep : Text}
    (h : g.doMainMakefile m makeflags = some m') :
    m'.Dep n dep ↔ m.Dep n dep ∨
      (∃ featureset ∈ g.config.fsEnabled.getD [],
        n = joinName ["source", featureset] ∧ dep = joinName ["source", featureset, "real"] ∨
        n = "source" ∧ dep = joinName ["source", featureset]) ∨
      n = "binary-indep" ∧ dep = "setup" := by
  obtain ⟨fsEnabled, hfs, h⟩ := Option.bind_eq_some_iff.mp h
  obtain ⟨tripletEnabled, htriplets, h⟩ := Option.bind_eq_some_iff.mp h
  cases h
  simp only [dep_add, List.not_mem_nil, and_false, or_false, List.mem_singleton, hfs,
    Option.getD_some]
  rw [foldl_iff (Q := fun m : Makefile => m.Dep n dep) (R := fun featureset =>
    n = joinName ["source", featureset] ∧ dep = joinName ["source", featureset, "real"] ∨
      n = "source" ∧ dep = joinName ["source", featureset]), or_assoc]
  intro m featureset
  simp only [dep_add, List.not_mem_nil, and_false, or_false, List.mem_singleton, or_assoc]

theorem doMainMakefile_has {m m' : Makefile} {makeflags : Vars} {n : Text} {c : Command}
    (hc : c.goal ∈ tracedGoals) (h : g.doMainMakefile m makeflags = some m') :
    m'.Has n c ↔ m.Has n c ∨ ∃ featureset ∈ g.config.fsEnabled.getD [],
      n = joinName ["source", featureset, "real"] ∧
        c = ⟨"source-featureset", makeflags.set "FEATURESET" featureset⟩ := by
  obtain ⟨fsEnabled, hfs, h⟩ := Option.bind_eq_some_iff.mp h
  obtain ⟨tripletEnabled, htriplets, h⟩ := Option.bind_eq_some_iff.mp h
  cases h
  have hbuild : ("build-indep" : Text) ∉ tracedGoals := by decide
  have hbinary : ("binary-indep" : Text) ∉ tracedGoals := by decide
  rw [has_add_none, has_add_one hc hbinary, has_add_one hc hbuild, hfs, Option.getD_some]
  refine foldl_iff (Q := fun m : Makefile => m.Has n c) ?_
  intro m featureset
  rw [has_add_none, has_add_none, has_add]
  simp only [Option.mem_some_iff, exists_eq_left', List.mem_singleton]

theorem doExtra_dep_of_dep {extra : List (Text × List Text)} {m : Makefile} {n dep : Text}
    (h : m.Dep n dep) : (Gencontrol.doExtra extra m).Dep n dep := by
  refine (foldl_iff (Q := fun m : Makefile => m.Dep n dep) (R := fun arch =>
    n = joinName ["binary-arch", arch] ∧ dep = joinName ["binary-arch", arch, "extra"]) ?_).mpr
    (.inl h)
  intro m arch
  simp only [dep_add, List.not_mem_nil, and_false, or_false, List.mem_singleton]

theorem doExtra_has {extra : List (Text × List Text)} {m : Makefile} {n : Text} {c : Command}
    (hc : c.goal ∈ tracedGoals) : (Gencontrol.doExtra extra m).Has n c ↔ m.Has n c := by
  have hdummy : ("install-dummy" : Text) ∉ tracedGoals := by decide
  refine (foldl_iff (Q := fun m : Makefile => m.Has n c) (R := fun _ => False) ?_).trans ?_
  · intro m arch
    rw [has_add_other hc, has_add_none, or_false]
    intro c' hc'
    obtain ⟨p, -, rfl⟩ := List.mem_map.mp hc'
    exact hdummy
  · exact or_iff_left fun ⟨_, _, h⟩ => h

theorem doMain_cases {packages : P} {extra : List (Text × List Text)} {m : Makefile}
    (h : g.doMain steps packages extra = some m) :
    ∃ m₀ s, g.doMainMakefile (empty.add ".NOTPARALLEL" [] none) g.mainFlags = some m₀ ∧
      g.config.arches.foldlM (g.doArchMakefile steps) (packages, m₀) = some s ∧
      m = Gencontrol.doExtra extra s.2 := by
  obtain ⟨m₀, hm₀, h⟩ := Option.bind_eq_some_iff.mp h
  obtain ⟨arches, harches, h⟩ := Option.bind_eq_some_iff.mp h
  obtain ⟨s, hs, h⟩ := Option.bind_eq_some_iff.mp h
  cases h
  refine ⟨m₀, s, hm₀, ?_, rfl⟩
  rw [ConfigCore.arches, harches]
  exact hs

end RulesGenLemmas

open Makefile RulesGenLemmas

/-- The flags for a kernel of an architecture. -/
def Gencontrol.flags (g : Gencontrol) (arch featureset flavour : Text) : Vars :=
  kernelFlags (g.doArch arch).2 featureset flavour

section Run

variable {P : Type} {steps : PackageSteps P} {g : Gencontrol} {packages : P}
  {extra : List (Text × List Text)} {m : Makefile}

/-- The recipes for kernels and for sources of featuresets. -/
theorem doMain_has (h : g.doMain steps packages extra = some m) {n : Text} {c : Command}
    (hc : c.goal ∈ tracedGoals) :
    m.Has n c ↔
      (∃ featureset ∈ g.config.fsEnabled.getD [], n = joinName ["source", featureset, "real"] ∧
        c = ⟨"source-featureset", g.mainFlags.set "FEATURESET" featureset⟩) ∨
      ∃ arch featureset flavour, g.config.Lists arch featureset flavour ∧
        g.config.enabled (some arch) featureset = true ∧
        ∃ p ∈ kernelRecipes, n = joinName [p.1, arch, featureset, flavour, "real"] ∧
          c = ⟨p.2, g.flags arch featureset flavour⟩ := by
  obtain ⟨m₀, s, hm₀, hs, rfl⟩ := doMain_cases h
  rw [doExtra_has hc, foldlM_iff (Q := fun s : P × Makefile => s.2.Has n c) hs
    (doArchMakefile_has hc), doMainMakefile_has hc hm₀, has_add_none]
  simp only [not_has_empty, false_or]
  refine or_congr_right ⟨?_, ?_⟩
  · rintro ⟨arch, ha, featureset, hfs, henabled, flavour, hfl, hrecipe⟩
    exact ⟨arch, featureset, flavour, ⟨ha, hfs, hfl⟩, henabled, hrecipe⟩
  · rintro ⟨arch, featureset, flavour, ⟨ha, hfs, hfl⟩, henabled, hrecipe⟩
    exact ⟨arch, ha, featureset, hfs, henabled, flavour, hfl, hrecipe⟩

/-- The dependencies of the sources and of the kernels. -/
theorem doMain_dep (h : g.doMain steps packages extra = some m) {n dep : Text}
    (hdep : (∃ featureset ∈ g.config.fsEnabled.getD [],
        n = joinName ["source", featureset] ∧ dep = joinName ["source", featureset, "real"] ∨
        n = "source" ∧ dep = joinName ["source", featureset]) ∨
      ∃ arch featureset flavour, g.config.Lists arch featureset flavour ∧
        g.config.enabled (some arch) featureset = true ∧ (ChainDep [] arch n dep ∨
          ChainDep [arch] featureset n dep ∨ ChainDep [arch, featureset] flavour n dep)) :
    m.Dep n dep := by
  obtain ⟨m₀, s, hm₀, hs, rfl⟩ := doMain_cases h
  refine doExtra_dep_of_dep ?_
  rw [foldlM_iff (Q := fun s : P × Makefile => s.2.Dep n dep) hs doArchMakefile_dep,
    doMainMakefile_dep hm₀]
  rcases hdep with hsource | ⟨arch, featureset, flavour, ⟨ha, hfs, hfl⟩, henabled, hchain⟩
  · exact .inl (.inr (.inl hsource))
  · refine .inr ⟨arch, ha, ?_⟩
    rcases hchain with hchain | hchain | hchain
    · exact .inl hchain
    · exact .inr (.inr ⟨featureset, hfs, henabled, .inl hchain⟩)
    · exact .inr (.inr ⟨featureset, hfs, henabled, .inr ⟨flavour, hfl, hchain⟩⟩)

/-- The chain of targets of a kernel. -/
theorem doMain_reaches (h : g.doMain steps packages extra = some m)
    {arch featureset flavour : Text} (hlists : g.config.Lists arch featureset flavour)
    (henabled : g.config.enabled (some arch) featureset = true) {i : Text}
    (hi : i ∈ makefileTargets) :
    m.Reaches i (joinName [i, arch, featureset, flavour, "real"]) := by
  have hdep : ∀ {n dep : Text}, ChainDep [] arch n dep ∨ ChainDep [arch] featureset n dep ∨
      ChainDep [arch, featureset] flavour n dep → m.Dep n dep := fun hchain =>
    doMain_dep h (.inr ⟨arch, featureset, flavour, hlists, henabled, hchain⟩)
  have hname : i = joinName [i] := List.intercalate_singleton.symm
  have harch : m.Reaches i (joinName [i, arch]) :=
    .single (hdep (.inl ⟨i, hi, .inl ⟨hname, rfl⟩⟩))
  have hfeatureset : m.Reaches i (joinName [i, arch, featureset]) :=
    harch.tail (hdep (.inr (.inl ⟨i, hi, .inl ⟨rfl, rfl⟩⟩)))
  have hflavour : m.Reaches i (joinName [i, arch, featureset, flavour]) :=
    hfeatureset.tail (hdep (.inr (.inr ⟨i, hi, .inl ⟨rfl, rfl⟩⟩)))
  exact hflavour.tail (hdep (.inr (.inr ⟨i, hi, .inr ⟨rfl, rfl⟩⟩)))

end Run

/-! ## The two traversals -/

/-- Making the first target makes a target of `debian/rules.real` for a kernel. -/
def Builds (m : Makefile) (target goal arch featureset flavour : Text) : Prop :=
  ∃ n c, m.Reaches target n ∧ m.Has n c ∧ c.goal = goal ∧ c.flags "ARCH" = some arch ∧
    c.flags "FEATURESET" = some featureset ∧ c.flags "FLAVOUR" = some flavour

structure TripletsAgree (config : ConfigCore) (m : Makefile) : Prop where
  /-- The expected kernels are the ones that are set up, built and packaged. -/
  triplets : ∀ p ∈ kernelRecipes, ∀ name, name ∈ config.tripletEnabled.getD [] ↔
    ∃ arch featureset flavour, name = tripletName arch featureset flavour ∧
      Builds m p.1 p.2 arch featureset flavour
  /-- The source of a kernel's featureset is prepared. -/
  featuresets : ∀ p ∈ kernelRecipes, ∀ arch featureset flavour,
    Builds m p.1 p.2 arch featureset flavour →
    featureset ∈ config.fsEnabled.getD [] ∧ m.Dep "source" (joinName ["source", featureset]) ∧
      ∃ n c, m.Reaches (joinName ["source", featureset]) n ∧ m.Has n c ∧
        c.goal = "source-featureset" ∧ c.flags "FEATURESET" = some featureset

/-- No kernel is in a featureset that is enabled for its architecture only, and the kernels
of a featureset that is disabled for their architecture have the names of others. -/
def TripletsSafe (config : ConfigCore) : Prop :=
  ∀ arch featureset flavour, config.Lists arch featureset flavour →
    (config.enabled (some arch) featureset = true →
      featureset ∈ config.fsEnabled.getD []) ∧
    (config.enabled none featureset = true →
      ∃ arch' featureset' flavour', config.Lists arch' featureset' flavour' ∧
        config.enabled (some arch') featureset' = true ∧
        tripletName arch featureset flavour = tripletName arch' featureset' flavour')

namespace RulesGenLemmas

theorem flags_eq (g : Gencontrol) (arch featureset flavour : Text) :
    g.flags arch featureset flavour "ARCH" = some arch ∧
      g.flags arch featureset flavour "FEATURESET" = some featureset ∧
      g.flags arch featureset flavour "FLAVOUR" = some flavour := by
  refine ⟨?_, rfl, rfl⟩
  show (g.doArch arch).2 "ARCH" = some arch
  rw [Gencontrol.doArch, Gencontrol.doArchPackages]
  split <;> rfl

theorem mem_fsEnabled {config : ConfigCore} {featureset : Text}
    (h : featureset ∈ config.fsEnabled.getD []) : config.enabled none featureset = true := by
  rw [ConfigCore.fsEnabled] at h
  cases hlist : config.list? [some "base"] "featuresets" with
  | none =>
    rw [hlist] at h
    cases h
  | some featuresets =>
    rw [hlist] at h
    exact (List.mem_filter.mp h).2

variable {P : Type} {steps : PackageSteps P} {g : Gencontrol} {packages : P}
  {extra : List (Text × List Text)} {m : Makefile}

/-- The kernels that are built. -/
theorem builds_iff (h : g.doMain steps packages extra = some m) {p : Text × Text}
    (hp : p ∈ kernelRecipes) {arch featureset flavour : Text} :
    Builds m p.1 p.2 arch featureset flavour ↔ g.config.Lists arch featureset flavour ∧
      g.config.enabled (some arch) featureset = true := by
  have htraced : p.2 ∈ tracedGoals := List.mem_cons_of_mem _ (List.mem_map_of_mem hp)
  constructor
  · rintro ⟨n, c, -, hhas, hgoal, harch, hfeatureset, hflavour⟩
    rcases (doMain_has h (by rw [hgoal]; exact htraced)).mp hhas with
      ⟨fs, -, -, rfl⟩ | ⟨a, fs, fl, hlists, henabled, q, -, -, rfl⟩
    · have hne : ∀ q ∈ kernelRecipes, ("source-featureset" : Text) ≠ q.2 := by decide
      exact absurd hgoal (hne p hp)
    · obtain ⟨ha, hfs, hfl⟩ := flags_eq g a fs fl
      obtain rfl := Option.some.inj (ha.symm.trans harch)
      obtain rfl := Option.some.inj (hfs.symm.trans hfeatureset)
      obtain rfl := Option.some.inj (hfl.symm.trans hflavour)
      exact ⟨hlists, henabled⟩
  · rintro ⟨hlists, henabled⟩
    have htarget : ∀ q ∈ kernelRecipes, q.1 ∈ makefileTargets := by decide
    obtain ⟨ha, hfs, hfl⟩ := flags_eq g arch featureset flavour
    refine ⟨_, ⟨p.2, g.flags arch featureset flavour⟩,
      doMain_reaches h hlists henabled (htarget p hp), ?_, rfl, ha, hfs, hfl⟩
    exact (doMain_has h htraced).mpr
      (.inr ⟨arch, featureset, flavour, hlists, henabled, p, hp, rfl, rfl⟩)

/-- The expected kernels. -/
theorem mem_tripletEnabled {config : ConfigCore} {names : List Text} {name : Text}
    (h : config.tripletEnabled = some names) :
    name ∈ names ↔ ∃ arch featureset flavour, config.Lists arch featureset flavour ∧
      config.enabled none featureset = true ∧ name = tripletName arch featureset flavour := by
  obtain ⟨arches, harches, h⟩ := Option.bind_eq_some_iff.mp h
  rw [foldlM_iff (Q := fun ret => name ∈ ret) (R := fun arch =>
    ∃ featureset ∈ config.featuresets arch, config.enabled none featureset = true ∧
      ∃ flavour ∈ config.flavours arch featureset, name = tripletName arch featureset flavour) h]
  · simp only [List.not_mem_nil, false_or]
    constructor
    · rintro ⟨arch, ha, featureset, hfs, henabled, flavour, hfl, hname⟩
      refine ⟨arch, featureset, flavour, ⟨?_, hfs, hfl⟩, henabled, hname⟩
      rwa [ConfigCore.arches, harches]
    · rintro ⟨arch, featureset, flavour, ⟨ha, hfs, hfl⟩, henabled, hname⟩
      rw [ConfigCore.arches, harches] at ha
      exact ⟨arch, ha, featureset, hfs, henabled, flavour, hfl, hname⟩
  · intro ret arch ret' h
    obtain ⟨featuresets, hfeaturesets, h⟩ := Option.bind_eq_some_iff.mp h
    rw [foldlM_iff (Q := fun ret => name ∈ ret) (R := fun featureset =>
      config.enabled none featureset = true ∧ ∃ flavour ∈ config.flavours arch featureset,
        name = tripletName arch featureset flavour) h]
    · rw [ConfigCore.featuresets, hfeaturesets]
      rfl
    · intro ret featureset ret' h
      split at h
      · next henabled =>
        obtain ⟨flavours, hflavours, h⟩ := Option.bind_eq_some_iff.mp h
        cases h
        simp only [List.mem_append, List.mem_map, henabled, true_and, ConfigCore.flavours,
          hflavours, Option.getD_some, eq_comm]
      · next henabled =>
        cases h
        simp [henabled]

end RulesGenLemmas

/-- The expected kernels are the ones that are built, for exactly these configurations. -/
theorem tripletsAgree_iff {P : Type} {steps : PackageSteps P} {g : Gencontrol} {packages : P}
    {extra : List (Text × List Text)} {m : Makefile}
    (h : g.doMain steps packages extra = some m) :
    TripletsAgree g.config m ↔ TripletsSafe g.config := by
  obtain ⟨m₀, s, hm₀, -, -⟩ := doMain_cases h
  obtain ⟨fsEnabled, hfs, hm₀⟩ := Option.bind_eq_some_iff.mp hm₀
  obtain ⟨names, hnames, -⟩ := Option.bind_eq_some_iff.mp hm₀
  have hsetup : (("setup", "setup-flavour") : Text × Text) ∈ kernelRecipes := by decide
  constructor
  · rintro ⟨htriplets, hfeaturesets⟩ arch featureset flavour hlists
    constructor
    · intro henabled
      exact (hfeaturesets _ hsetup _ _ _ ((builds_iff h hsetup).mpr ⟨hlists, henabled⟩)).1
    · intro henabled
      have hmem := (mem_tripletEnabled hnames).mpr
        ⟨arch, featureset, flavour, hlists, henabled, rfl⟩
      obtain ⟨arch', featureset', flavour', hname, hbuilds⟩ :=
        (htriplets _ hsetup _).mp (by rw [hnames]; exact hmem)
      obtain ⟨hlists', henabled'⟩ := (builds_iff h hsetup).mp hbuilds
      exact ⟨arch', featureset', flavour', hlists', henabled', hname⟩
  · intro hsafe
    refine ⟨fun p hp name => ?_, fun p hp arch featureset flavour hbuilds => ?_⟩
    · rw [hnames, Option.getD_some, mem_tripletEnabled hnames]
      constructor
      · rintro ⟨arch, featureset, flavour, hlists, henabled, rfl⟩
        obtain ⟨arch', featureset', flavour', hlists', henabled', hname⟩ :=
          (hsafe _ _ _ hlists).2 henabled
        exact ⟨arch', featureset', flavour', hname, (builds_iff h hp).mpr ⟨hlists', henabled'⟩⟩
      · rintro ⟨arch, featureset, flavour, rfl, hbuilds⟩
        obtain ⟨hlists, henabled⟩ := (builds_iff h hp).mp hbuilds
        exact ⟨arch, featureset, flavour, hlists,
          mem_fsEnabled ((hsafe _ _ _ hlists).1 henabled), rfl⟩
    · obtain ⟨hlists, henabled⟩ := (builds_iff h hp).mp hbuilds
      have hmem := (hsafe _ _ _ hlists).1 henabled
      have hsource : (("source-featureset" : Text)) ∈ tracedGoals := List.mem_cons_self
      refine ⟨hmem, doMain_dep h (.inl ⟨featureset, hmem, .inr ⟨rfl, rfl⟩⟩), _, _,
        .single (doMain_dep h (.inl ⟨featureset, hmem, .inl ⟨rfl, rfl⟩⟩)),
        (doMain_has h hsource).mpr (.inl ⟨featureset, hmem, rfl, rfl⟩), rfl, rfl⟩

/-- One architecture with the featuresets `none` and `rt`, and `rt` possibly disabled for
it. -/
def rtConfig (enabled : Bool) : ConfigCore :=
  ConfigCore.set (fun _ => none) [some "abi"] (Items.empty.set "abiname" (.text "4"))
    |>.set [some "base"] (Items.empty.set "arches" (.list ["amd64"])
      |>.set "featuresets" (.list ["none", "rt"]))
    |>.set [some "base", some "amd64"] (Items.empty.set "featuresets" (.list ["none", "rt"]))
    |>.set [some "base", some "amd64", some "none"]
      (Items.empty.set "flavours" (.list ["amd64"]))
    |>.set [some "base", some "amd64", some "rt"]
      (Items.empty.set "flavours" (.list ["amd64"]) |>.set "enabled" (.bool enabled))

/-- Packages are made without a failure, and there are no installer and dummy packages. -/
def noPackages : PackageSteps Unit where
  arch _ _ := some ((), [])
  featureset _ _ _ := some ()
  flavour _ _ _ _ := some ((), [])

namespace RulesGenLemmas

theorem rtConfig_run (enabled : Bool) :
    ∃ g m, processChangelog (rtConfig enabled) "linux" "3.16.7-2" "unstable" = some g ∧
      g.doMain noPackages () [] = some m := by
  have h : ((processChangelog (rtConfig enabled) "linux" "3.16.7-2" "unstable").bind
      fun g => g.doMain noPackages () []).isSome = true := by
    cases enabled <;> decide
  obtain ⟨m, hm⟩ := Option.isSome_iff_exists.mp h
  obtain ⟨g, hg, hm⟩ := Option.bind_eq_some_iff.mp hm
  exact ⟨g, m, hg, hm⟩

theorem rtConfig_lists {enabled : Bool} {g : Gencontrol} {arch featureset flavour : Text}
    (hg : processChangelog (rtConfig enabled) "linux" "3.16.7-2" "unstable" = some g)
    (h : g.config.Lists arch featureset flavour) :
    arch = "amd64" ∧ (featureset = "none" ∨ featureset = "rt") ∧ flavour = "amd64" := by
  rw [(AbiNameLemmas.processChangelog_eq_some hg).2.1] at h
  obtain ⟨ha, hfs, hfl⟩ := h
  obtain rfl := List.mem_singleton.mp ha
  have hfs : featureset ∈ [("none" : Text), "rt"] := hfs
  rcases List.mem_cons.mp hfs with rfl | hfs
  · exact ⟨rfl, .inl rfl, List.mem_singleton.mp hfl⟩
  · obtain rfl := List.mem_singleton.mp hfs
    exact ⟨rfl, .inr rfl, List.mem_singleton.mp hfl⟩

end RulesGenLemmas

theorem enabled_triplets_agree :
    ∃ g m, processChangelog (rtConfig true) "linux" "3.16.7-2" "unstable" = some g ∧
      g.doMain noPackages () [] = some m ∧ TripletsAgree g.config m := by
  obtain ⟨g, m, hg, hm⟩ := rtConfig_run true
  refine ⟨g, m, hg, hm, (tripletsAgree_iff hm).mpr fun arch featureset flavour hlists => ?_⟩
  obtain ⟨rfl, hfeatureset, rfl⟩ := rtConfig_lists hg hlists
  rw [(AbiNameLemmas.processChangelog_eq_some hg).2.1] at hlists ⊢
  rcases hfeatureset with rfl | rfl
  · exact ⟨fun _ => List.mem_cons_self, fun _ => ⟨_, _, _, hlists, rfl, rfl⟩⟩
  · exact ⟨fun _ => List.mem_cons_of_mem _ List.mem_cons_self,
      fun _ => ⟨_, _, _, hlists, rfl, rfl⟩⟩

/-- A kernel is expected that is disabled for its architecture. -/
theorem disabled_triplet_expected :
    ∃ g m, processChangelog (rtConfig false) "linux" "3.16.7-2" "unstable" = some g ∧
      g.doMain noPackages () [] = some m ∧ ¬ TripletsAgree g.config m := by
  obtain ⟨g, m, hg, hm⟩ := rtConfig_run false
  refine ⟨g, m, hg, hm, fun h => ?_⟩
  have hsetup : (("setup", "setup-flavour") : Text × Text) ∈ kernelRecipes := by decide
  have hexpected : ("amd64_rt_amd64" : Text) ∈ g.config.tripletEnabled.getD [] := by
    rw [(AbiNameLemmas.processChangelog_eq_some hg).2.1]
    exact List.mem_cons_of_mem _ List.mem_cons_self
  obtain ⟨arch, featureset, flavour, hname, hbuilds⟩ := (h.triplets _ hsetup _).mp hexpected
  obtain ⟨hlists, henabled⟩ := (builds_iff hm hsetup).mp hbuilds
  obtain ⟨rfl, hfeatureset, rfl⟩ := rtConfig_lists hg hlists
  rcases hfeatureset with rfl | rfl
  · exact absurd hname (by decide)
  · rw [(AbiNameLemmas.processChangelog_eq_some hg).2.1] at henabled
    cases henabled

end DebianKernel.Debian
