import DebianKernel.Debian.Config
import DebianKernel.Lib.Pattern

/-!
# The ABI name

Three programs compute the ABI name of an architecture: `gencontrol.py` from the changelog
and the configuration, `buildcheck.py` and `abiupdate.py` from the configuration that
`gencontrol.py` dumps.

Results:
1. `makeflags_abiname`, `buildcheckAbiname_eq`: what the programs compute.
2. `abiname_agree_iff`: they agree unless the version is a pre-release and the
   architecture has an ABI name of its own.
3. `abiname_differs`: a configuration and a version for which they do not.
-/

namespace DebianKernel.Debian

open Pattern

/-! ## Versions -/

/-- `Version`. -/
structure Version where
  epoch : Option Nat
  upstream : Text
  revision : Option Text

/-- `_version_re`. -/
def versionRe : Pattern Version := do
  let epoch ← opt (do let e ← run1 Char.isDigit; lit ":"; pure e)
  let upstream ← lazyRun1 (· ≠ '\n')
  let revision ← opt (do lit "-"; run1 (· ≠ '-'))
  atEnd
  pure ⟨epoch.map (Nat.ofDigitChars 10 · 0), upstream, revision⟩

def Version.completeNoepoch (v : Version) : Text :=
  match v.revision with
  | some revision => v.upstream ++ ['-'] ++ revision
  | none => v.upstream

def Version.complete (v : Version) : Text :=
  match v.epoch with
  | some epoch => Nat.toDigits 10 epoch ++ [':'] ++ v.completeNoepoch
  | none => v.completeNoepoch

/-- The groups of `_version_linux_re`. -/
structure LinuxGroups where
  version : Text
  update : Text
  modifier : Option Text
  dfsg : Option Text
  experimental : Bool
  backports : Bool
  other : Bool

/-- `_version_linux_re`. -/
def versionLinuxRe : Pattern LinuxGroups := do
  let major ← run1 Char.isDigit
  lit "."
  let minor ← run1 Char.isDigit
  let stable ← opt (do lit "."; run1 Char.isDigit)
  let pre ← opt (do
    lit "-"
    let name ← run1 fun c => 'a' ≤ c ∧ c ≤ 'z'
    let number ← run1 Char.isDigit
    pure (name ++ number))
  let modifier ← opt (do lit "~"; lazyRun1 (· ≠ '\n'))
  let dfsg ← opt (do lit ".dfsg."; run1 Char.isDigit)
  lit "-"
  let _ ← run1 Char.isDigit
  let _ ← opt (do lit "."; run1 Char.isDigit)
  let revision ← opt (alt (do lit "~exp"; let _ ← run1 Char.isDigit; pure 0)
    (alt (do
        lit "~bpo"
        let n ← run1 Char.isDigit
        look fun _ => n.length = 2
        lit "+"
        let _ ← run1 Char.isDigit
        pure 1)
      (do let _ ← run1 (· ≠ '-'); pure 2)))
  atEnd
  pure {
    version := major ++ ['.'] ++ minor
    update := (stable.elim [] ('.' :: ·)) ++ (pre.elim [] ('-' :: ·))
    modifier := modifier
    dfsg := dfsg
    experimental := revision = some 0
    backports := revision = some 1
    other := revision = some 2 }

/-- `VersionLinux`. -/
structure VersionLinux extends Version where
  linuxModifier : Option Text
  linuxVersion : Text
  linuxUpstream : Text
  linuxUpstreamFull : Text
  linuxDfsg : Option Text
  linuxRevisionExperimental : Bool
  linuxRevisionBackports : Bool
  linuxRevisionOther : Bool

/-- `VersionLinux(version)`. `none` when it raises. -/
def VersionLinux.ofText (version : Text) : Option VersionLinux := do
  let (base, _) ← first versionRe version
  let (d, _) ← first versionLinuxRe version
  -- `assert not d['update']`
  guard (d.modifier = none ∨ d.update = [])
  let upstream := match d.modifier with
    | some modifier => d.version ++ ['-'] ++ modifier
    | none => d.version
  pure {
    base with
    linuxModifier := d.modifier
    linuxVersion := d.version
    linuxUpstream := upstream
    linuxUpstreamFull := upstream ++ d.update
    linuxDfsg := d.dfsg
    linuxRevisionExperimental := d.experimental
    linuxRevisionBackports := d.backports
    linuxRevisionOther := d.other }

/-! ## `gencontrol.py` -/

/-- `vars` and `makeflags`. -/
abbrev Vars := Text → Option Text

def Vars.empty : Vars := fun _ => none

def Vars.set (vars : Vars) (name value : Text) : Vars :=
  fun n => if n = name then some value else vars n

/-- `re.sub('^(\d+\.\d+)(?=-|$)', r'\1.0', upstream)`. -/
def abinameVersion (upstream : Text) : Text :=
  let threeRe : Pattern Text := do
    let major ← run1 Char.isDigit
    lit "."
    let minor ← run1 Char.isDigit
    look fun t => t.head? = some '-' ∨ t = [] ∨ t = ['\n']
    pure (major ++ ['.'] ++ minor)
  match first threeRe upstream with
  | some (three, rest) => three ++ ".0" ++ rest
  | none => upstream

/-- What `process_changelog` sets. -/
structure Gencontrol where
  version : VersionLinux
  abinamePart : Text
  abinameVersion : Text
  vars : Vars
  config : ConfigCore

/-- The sections that are written to the dump. -/
def versionSection (version : VersionLinux) (abinameVersion abinamePart : Text) : Items :=
  Items.empty
    |>.set "source" (.text version.complete)
    |>.set "upstream" (.text version.linuxUpstream)
    |>.set "abiname_base" (.text abinameVersion)
    |>.set "abiname" (.text (abinameVersion ++ abinamePart))

/-- Where the version is uploaded to, it may have that revision. -/
def uploadAllowed (version : VersionLinux) (distribution : Text) : Bool :=
  ¬ (distribution = "unstable" ∧ (version.linuxRevisionExperimental ∨
    version.linuxRevisionBackports ∨ version.linuxRevisionOther)) ∧
  (distribution = "experimental" → version.linuxRevisionExperimental) ∧
  (("-backports" : Text).isSuffixOf distribution → version.linuxRevisionBackports)

/-- The suffix that `process_changelog` computes. `none` for a `KeyError`. -/
def mainAbinamePart (config : ConfigCore) (version : VersionLinux) : Option Text :=
  match version.linuxModifier with
  | some _ => some []
  | none => (config.text? [some "abi"] "abiname").map ('-' :: ·)

/-- `process_changelog`, with the source, the version and the distribution of the first
entry. `none` when it raises. -/
def processChangelog (config : ConfigCore) (source version distribution : Text) :
    Option Gencontrol := do
  let version ← VersionLinux.ofText version
  let abinamePart ← mainAbinamePart config version
  let abinameVersion := abinameVersion version.linuxUpstream
  guard (uploadAllowed version distribution)
  pure {
    version
    abinamePart
    abinameVersion
    vars := Vars.empty
      |>.set "upstreamversion" version.linuxUpstream
      |>.set "version" version.linuxVersion
      |>.set "source_upstream" version.upstream
      |>.set "source_package" source
      |>.set "abiname" (abinameVersion ++ abinamePart)
    config := config.set [some "version"] (versionSection version abinameVersion abinamePart) }

namespace Gencontrol

/-- The flags that `do_main_setup` sets. -/
def mainFlags (g : Gencontrol) : Vars :=
  Vars.empty
    |>.set "VERSION" g.version.linuxVersion
    |>.set "UPSTREAMVERSION" g.version.linuxUpstream
    |>.set "ABINAME" (g.abinameVersion ++ g.abinamePart)
    |>.set "SOURCEVERSION" g.version.complete

/-- The ABI name that `do_arch_packages` sets, in `vars` and in `makeflags`. -/
def doArchPackages (g : Gencontrol) (arch : Text) (vars makeflags : Vars) : Vars × Vars :=
  match g.version.linuxModifier with
  | none =>
    let abinamePart := match g.config.text? [some "abi", some arch] "abiname" with
      | some abiname => '-' :: abiname
      | none => g.abinamePart
    (vars.set "abiname" (g.abinameVersion ++ abinamePart),
      makeflags.set "ABINAME" (g.abinameVersion ++ abinamePart))
  | some _ => (vars, makeflags)

/-- `do_arch`, for copies of the main `vars` and `makeflags`. -/
def doArch (g : Gencontrol) (arch : Text) : Vars × Vars :=
  g.doArchPackages arch (g.vars.set "arch" arch) (g.mainFlags.set "ARCH" arch)

end Gencontrol

/-! ## `buildcheck.py` and `abiupdate.py` -/

/-- `config['version',]['abiname_base'] + '-' + config['abi', arch]['abiname']`. -/
def archAbiname (config : ConfigCore) (arch : Text) : Option Text := do
  let base ← config.text? [some "version"] "abiname_base"
  let abiname ← config.text? [some "abi", some arch] "abiname"
  pure (base ++ ['-'] ++ abiname)

/-- The name by which `CheckAbi.__init__` looks for the reference. -/
def buildcheckAbiname (config : ConfigCore) (arch : Text) : Option Text :=
  archAbiname config arch <|> config.text? [some "version"] "abiname"

/-- The name that `get_abi` of `abiupdate.py` fetches and saves. `version_abi` is read when
the program starts. -/
def abiupdateAbiname (config : ConfigCore) (arch : Text) : Option Text := do
  let versionAbi ← config.text? [some "version"] "abiname"
  archAbiname config arch <|> some versionAbi

/-! ## What the programs compute -/

namespace AbiNameLemmas

theorem processChangelog_eq_some {config : ConfigCore} {source version distribution : Text}
    {g : Gencontrol} (h : processChangelog config source version distribution = some g) :
    VersionLinux.ofText version = some g.version ∧
      g.config = config.set [some "version"]
        (versionSection g.version g.abinameVersion g.abinamePart) ∧
      g.vars "abiname" = some (g.abinameVersion ++ g.abinamePart) ∧
      (g.version.linuxModifier ≠ none → g.abinamePart = []) := by
  unfold processChangelog at h
  obtain ⟨v, hv, h⟩ := Option.bind_eq_some_iff.mp h
  obtain ⟨part, hpart, h⟩ := Option.bind_eq_some_iff.mp h
  obtain ⟨_, -, h⟩ := Option.bind_eq_some_iff.mp h
  cases h
  refine ⟨hv, rfl, rfl, ?_⟩
  show v.linuxModifier ≠ none → part = []
  intro hne
  obtain ⟨m, hm⟩ := Option.ne_none_iff_exists'.mp hne
  rw [mainAbinamePart, hm] at hpart
  exact (Option.some.inj hpart).symm

variable {g : Gencontrol} {config : ConfigCore}
  (hconfig : g.config = config.set [some "version"]
    (versionSection g.version g.abinameVersion g.abinamePart))

include hconfig

theorem version_text (item : Text) :
    g.config.text? [some "version"] item =
      match versionSection g.version g.abinameVersion g.abinamePart item with
      | some (.text t) => some t
      | _ => none := by
  rw [ConfigCore.text?, ConfigCore.get, hconfig, ConfigCore.set, if_pos rfl]
  rfl

/-- The dump has the architectures' own names as the configuration has them. -/
theorem arch_text (arch item : Text) :
    g.config.text? [some "abi", some arch] item = config.text? [some "abi", some arch] item := by
  rw [ConfigCore.text?, ConfigCore.get, hconfig, ConfigCore.set, if_neg (by simp)]
  rfl

end AbiNameLemmas

open AbiNameLemmas

/-- The suffix that `gencontrol.py` gives the ABI name of an architecture. -/
def Gencontrol.archPart (g : Gencontrol) (arch : Text) : Text :=
  match g.version.linuxModifier, g.config.text? [some "abi", some arch] "abiname" with
  | none, some abiname => '-' :: abiname
  | _, _ => g.abinamePart

/-- The build of an architecture gets the name that its packages have. -/
theorem makeflags_abiname {config : ConfigCore} {source version distribution : Text}
    {g : Gencontrol} (h : processChangelog config source version distribution = some g)
    (arch : Text) :
    (g.doArch arch).1 "abiname" = some (g.abinameVersion ++ g.archPart arch) ∧
      (g.doArch arch).2 "ABINAME" = some (g.abinameVersion ++ g.archPart arch) := by
  obtain ⟨-, -, hvars, -⟩ := processChangelog_eq_some h
  unfold Gencontrol.doArch Gencontrol.doArchPackages Gencontrol.archPart
  cases hm : g.version.linuxModifier with
  | none =>
    cases ha : g.config.text? [some "abi", some arch] "abiname" with
    | none => exact ⟨rfl, rfl⟩
    | some abiname => exact ⟨rfl, rfl⟩
  | some m => exact ⟨hvars, rfl⟩

/-- The other two programs use the architecture's own name whenever there is one. -/
theorem buildcheckAbiname_eq {config : ConfigCore} {source version distribution : Text}
    {g : Gencontrol} (h : processChangelog config source version distribution = some g)
    (arch : Text) :
    buildcheckAbiname g.config arch = some (g.abinameVersion ++
        ((config.text? [some "abi", some arch] "abiname").elim g.abinamePart ('-' :: ·))) ∧
      abiupdateAbiname g.config arch = buildcheckAbiname g.config arch := by
  obtain ⟨-, hconfig, -, -⟩ := processChangelog_eq_some h
  have hbase : g.config.text? [some "version"] "abiname_base" = some g.abinameVersion :=
    version_text hconfig _
  have hname : g.config.text? [some "version"] "abiname" =
      some (g.abinameVersion ++ g.abinamePart) := version_text hconfig _
  have harch := arch_text hconfig arch "abiname"
  unfold buildcheckAbiname abiupdateAbiname archAbiname
  rw [hbase, hname, harch]
  cases config.text? [some "abi", some arch] "abiname" with
  | none => exact ⟨rfl, rfl⟩
  | some abiname => simp

/-- All programs agree on the ABI name of an architecture, if and only if the version has
no `~` modifier or the architecture has no ABI name of its own. -/
theorem abiname_agree_iff {config : ConfigCore} {source version distribution : Text}
    {g : Gencontrol} (h : processChangelog config source version distribution = some g)
    (arch : Text) :
    ((g.doArch arch).1 "abiname" = (g.doArch arch).2 "ABINAME" ∧
        buildcheckAbiname g.config arch = (g.doArch arch).2 "ABINAME" ∧
        abiupdateAbiname g.config arch = (g.doArch arch).2 "ABINAME") ↔
      (VersionLinux.ofText version).bind (·.linuxModifier) = none ∨
        config.text? [some "abi", some arch] "abiname" = none := by
  obtain ⟨hversion, hconfig, -, hpart⟩ := processChangelog_eq_some h
  obtain ⟨hvars, hflags⟩ := makeflags_abiname h arch
  obtain ⟨hbuild, hupdate⟩ := buildcheckAbiname_eq h arch
  rw [hvars, hflags, hupdate, hbuild, hversion, Option.bind_some]
  simp only [true_and, and_self, Option.some.injEq, List.append_cancel_left_eq]
  unfold Gencontrol.archPart
  rw [arch_text hconfig]
  cases hm : g.version.linuxModifier with
  | none => cases config.text? [some "abi", some arch] "abiname" <;> simp
  | some m =>
    have hnil := hpart (by rw [hm]; exact Option.some_ne_none m)
    cases config.text? [some "abi", some arch] "abiname" with
    | none => simp
    | some abiname => simp [hnil]

/-- A configuration in which one architecture has an ABI name of its own. -/
def archConfig : ConfigCore :=
  (ConfigCore.set (fun _ => none) [some "abi"] (Items.empty.set "abiname" (.text "4"))).set
    [some "abi", some "armel"] (Items.empty.set "abiname" (.text "5"))

theorem abiname_agree_release :
    ∃ g, processChangelog archConfig "linux" "3.16.7-2" "unstable" = some g ∧
      buildcheckAbiname g.config "armel" = (g.doArch "armel").2 "ABINAME" := by
  have h : ∃ g, processChangelog archConfig "linux" "3.16.7-2" "unstable" = some g :=
    Option.isSome_iff_exists.mp (by decide)
  obtain ⟨g, h⟩ := h
  exact ⟨g, h, ((abiname_agree_iff h "armel").mpr (.inl (by decide))).2.1⟩

/-- For a release candidate the build has the name without the suffix. -/
theorem abiname_differs :
    (processChangelog archConfig "linux" "3.16~rc4-1~exp1" "experimental").map (fun g =>
      ((g.doArch "armel").2 "ABINAME", buildcheckAbiname g.config "armel",
        abiupdateAbiname g.config "armel")) =
      some (some ("3.16.0-rc4" : Text), some ("3.16.0-rc4-5" : Text),
        some ("3.16.0-rc4-5" : Text)) := by
  decide

end DebianKernel.Debian
