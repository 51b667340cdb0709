import DebianKernel.DiskId.LineUpdate

/-!
# The transition

`transition` finds the configuration files that name devices, asks, and updates them. A
failed update starts it again. What an attempt meets (the files, the devices and their
ids, the answers, the outcome of the update) is a `World`; a run is given by the worlds of
its attempts.

Results:
1. `mentioned_iff`: what the final report leaves out.
2. `attempt_spec`: how an attempt returns.
3. `transition_mentions_iff`: no device name is left unmentioned, if and only if the
   questions of the last attempt are answered so that what can be updated is updated.
-/

namespace DebianKernel.DiskId

open Text

/-! ## What an attempt meets -/

/-- An entry of `@config_files`, as far as it is read here. -/
structure ConfigEntry where
  packages : Text
  path : Option Text
  needsUpdate : Option (Text → Option Text)
  list : Option (Text → List Text)
  update : Option (Text → DeviceMap → Option Text)
  isBootLoader : Bool

/-- A configuration that `scan_config_files` found. -/
structure FoundConfig where
  config : ConfigEntry
  path : Text
  devices : List Text
  idMapText : Option Text
  installed : Bool
  unpacked : Bool
  needsUpdate : Bool

inductive Question
  | convertAuto
  | convertPlan
  | convertPlanNoRelabel
  | updateFailed
  | manual
  | manualBootLoader
  deriving DecidableEq

def Question.name : Question → Text
  | convertAuto => "linux-base/disk-id-convert-auto"
  | convertPlan => "linux-base/disk-id-convert-plan"
  | convertPlanNoRelabel => "linux-base/disk-id-convert-plan-no-relabel"
  | updateFailed => "linux-base/disk-id-update-failed"
  | manual => "linux-base/disk-id-manual"
  | manualBootLoader => "linux-base/disk-id-manual-boot-loader"

/-- A debconf command. The command `go` shows the question in front of it. -/
inductive Command
  | input (question : Question)
  | go (question : Question)
  | get (question : Question)
  | subst (question : Question) (key value : Text)

/-- The result of opening a file for reading. -/
inductive Opened
  | content (text : Text)
  /-- `ENOENT` or `ENOTDIR`. -/
  | missing (error : Text)
  | failed (error : Text)

structure World where
  openFile : Text → Opened
  /-- The lines of `dpkg-query`, for the packages. -/
  dpkgQuery : Text → List Text
  bdevRegex : Text → Bool
  /-- `-b`. -/
  isBlock : Text → Bool
  /-- The ids of a device, after `scan_devices` and `assign_new_ids`. -/
  ids : Text → List Text
  newId : Text → Option Text
  /-- The return code and the text of a debconf command. -/
  debconf : Command → Nat × Text
  /-- The status and the output of `update_all`. -/
  updateAll : DeviceMap → List FoundConfig → Int × Text

/-! ## Scanning -/

/-- The lines of `dpkg-query`: is a package wanted, installed, unpacked? -/
def dpkgStatus (ls : List Text) : Bool × Bool × Bool :=
  (ls.any fun l => ("install " : Text).isPrefixOf l,
    ls.any fun l => (" installed\n" : Text).isSuffixOf l,
    ls.any fun l => (" installed\n" : Text).isSuffixOf l || (" unpacked\n" : Text).isSuffixOf l)

/-- The devices of a list that match. A name with a wildcard need not exist. -/
def matchedBdevs (w : World) (bdevs : List Text) : List Text :=
  bdevs.filter fun bdev =>
    w.bdevRegex bdev && (bdev.any (fun c => c = '?' ∨ c = '*') || w.isBlock bdev)

/-- The body of the loop of `scan_config_files`. -/
def scanConfig (w : World) (config : ConfigEntry) : Except Text (Option FoundConfig) :=
  match config.path with
  | none => .ok none
  | some path =>
    match w.openFile path with
    | .missing _ => .ok none
    | .failed error => .error error
    | .content file =>
      let (wanted, installed, unpacked) := dpkgStatus (w.dpkgQuery config.packages)
      if !wanted && !unpacked then .ok none
      else
        match config.needsUpdate, config.list with
        | some needsUpdate, _ =>
          let idMapText := needsUpdate file
          .ok (some ⟨config, path, [], idMapText, installed, unpacked,
            idMapText ≠ none ∧ idMapText ≠ some []⟩)
        | none, some list =>
          let devices := matchedBdevs w (list file)
          .ok (some ⟨config, path, devices, none, installed, unpacked, devices ≠ []⟩)
        | none, none => .ok (some ⟨config, path, [], none, installed, unpacked, true⟩)

/-- `scan_config_files`. What it reads from the fstab only affects the ids. -/
def scanConfigFiles (configFiles : List ConfigEntry) (w : World) :
    Except Text (List FoundConfig) := do
  let found ← configFiles.mapM (scanConfig w)
  match w.openFile "/etc/fstab" with
  | .content _ => pure (found.filterMap id)
  | .missing error => throw error
  | .failed error => throw error

/-! ## Questions -/

/-- Puts and shows a question; the two texts are those of the errors. -/
def inputAndGo (w : World) (question : Question) (setting asking : Text) : Except Text Unit := do
  let (ret, seen) := w.debconf (.input question)
  if ret ≠ 0 ∧ ret ≠ 30 then
    throw ("Error setting debconf " ++ setting ++ [' '] ++ question.name ++ ": " ++ seen)
  let (ret, seen) := w.debconf (.go question)
  if ret ≠ 0 ∧ ret ≠ 30 then
    throw ("Error " ++ asking ++ [' '] ++ question.name ++ ": " ++ seen)

def substitute (w : World) (question : Question) (key value : Text) : Except Text Unit := do
  let (ret, seen) := w.debconf (.subst question key value)
  if ret ≠ 0 then
    throw ("Error setting debconf substitutions in " ++ question.name ++ ": " ++ seen)

/-- Asks a question, and gets the answer. -/
def ask (w : World) (question : Question) : Except Text Text := do
  inputAndGo w question "question" "asking debconf question"
  let (ret, answer) := w.debconf (.get question)
  if ret ≠ 0 then throw ("Error retrieving answer for " ++ question.name ++ ": " ++ answer)
  pure answer

def showNote (w : World) (question : Question) : Except Text Unit :=
  inputAndGo w question "note" "showing debconf note"

/-! ## An attempt -/

/-- The keys of `%bdev_map`. -/
def bdevKeys (found : List FoundConfig) : List Text := (found.flatMap (·.devices)).eraseDups

/-- `%update_map`, after the scan of the devices. -/
def updateMapOf (w : World) (found : List FoundConfig) : DeviceMap := fun bdev =>
  if (bdevKeys found).contains bdev then (w.ids bdev).head? else none

/-- The configuration is affected by the map, or by a mapping of its own. -/
def FoundConfig.affected (map : DeviceMap) (m : FoundConfig) : Bool :=
  m.idMapText.isSome || m.devices.any fun bdev => (map bdev).isSome

/-- What is to be updated: `%update_map` and `@auto_configs`. -/
structure Plan where
  updateMap : DeviceMap
  autoConfigs : List FoundConfig

/-- `@matched_configs`. -/
def matchedConfigs (found : List FoundConfig) : List FoundConfig := found.filter (·.needsUpdate)

/-- `@auto_configs`, before they are weeded out. -/
def autoConfigs (found : List FoundConfig) : List FoundConfig :=
  (matchedConfigs found).filter (·.config.update.isSome)

def foundBootLoader (found : List FoundConfig) : Bool :=
  found.any fun m => m.config.isBootLoader && m.unpacked

/-- The plan after the first answer. -/
def makePlan (w : World) (found : List FoundConfig) (answer : Text) : Plan :=
  if autoConfigs found ≠ [] ∧ answer = "true" then
    ⟨updateMapOf w found, (autoConfigs found).filter (·.affected (updateMapOf w found))⟩
  else ⟨fun _ => none, autoConfigs found⟩

/-- `join("\\n", ...)`. -/
def joinLines (ls : List Text) : Text := List.intercalate ("\\n" : Text) ls

/-- The devices that get a new id. -/
def relabelled (w : World) (found : List FoundConfig) : List (Text × Text) :=
  (bdevKeys found).filterMap fun bdev => (w.newId bdev).map fun id => (bdev, id)

/-- The question that shows the plan. -/
def planQuestion (w : World) (found : List FoundConfig) : Question :=
  if relabelled w found ≠ [] then .convertPlan else .convertPlanNoRelabel

/-- Shows the plan, and gets the answer. -/
def askPlan (w : World) (found : List FoundConfig) (plan : Plan) : Except Text Text := do
  let question := planQuestion w found
  if relabelled w found ≠ [] then
    substitute w question "relabel"
      (joinLines ((relabelled w found).map fun d => d.1 ++ ": " ++ d.2))
  let mapped := (bdevKeys found).filterMap fun bdev =>
    (plan.updateMap bdev).map fun id => bdev ++ ": " ++ id
  substitute w question "id_map" (joinLines (mapped ++ plan.autoConfigs.filterMap (·.idMapText)))
  substitute w question "files" (List.intercalate (", " : Text) (plan.autoConfigs.map (·.path)))
  ask w question

/-- What comes of the plan. -/
inductive Carried
  | skipped
  | refused
  | updated
  | failed
  deriving DecidableEq

/-- The second question and the update. -/
def carryOut (w : World) (found : List FoundConfig) (plan : Plan) (answer : Text) :
    Except Text Carried := do
  if plan.autoConfigs ≠ [] ∧ answer = "true" then
    let answer ← askPlan w found plan
    if answer = "true" then
      let (rc, output) := w.updateAll plan.updateMap plan.autoConfigs
      if rc ≠ 0 then
        substitute w .updateFailed "output"
          (output.flatMap fun c => if c = '\n' then ['\\', 'n'] else [c])
        inputAndGo w .updateFailed "question" "asking debconf question"
        pure .failed
      else pure .updated
    else pure .refused
  else pure .skipped

/-- An entry of `@unconv_files`: the configuration as a whole, or devices in it. -/
structure Unconverted where
  found : FoundConfig
  devices : Option (List Text)

def Unconverted.text (u : Unconverted) : Text :=
  match u.devices with
  | none => u.found.path
  | some devices => u.found.path ++ ": " ++ List.intercalate (", " : Text) devices

/-- `@unconv_files`. -/
def unconvFiles (matched : List FoundConfig) (map : DeviceMap) : List Unconverted :=
  matched.filterMap fun m =>
    if m.config.update.isNone then some ⟨m, none⟩
    else
      let unconvBdevs := m.devices.filter fun bdev => (map bdev).isNone
      if unconvBdevs ≠ [] then some ⟨m, some unconvBdevs⟩ else none

/-- What an attempt leaves when it returns: the matched configurations, the update map,
those that were rewritten, and the list that was shown. -/
structure Report where
  matched : List FoundConfig
  updateMap : DeviceMap
  rewritten : List FoundConfig
  listed : List Unconverted

inductive Outcome
  | returned (report : Report)
  | retry

/-- The notes at the end. -/
def finalNotes (w : World) (found : List FoundConfig) (listed : List Unconverted) :
    Except Text Unit := do
  if listed ≠ [] then
    substitute w .manual "unconverted" (joinLines (listed.map (·.text)))
    showNote w .manual
  if !foundBootLoader found then showNote w .manualBootLoader

/-- One pass through `transition`, up to `goto retry` or the end. -/
def attempt (configFiles : List ConfigEntry) (w : World) : Except Text Outcome := do
  let found ← scanConfigFiles configFiles w
  let matched := matchedConfigs found
  if matched = [] ∧ foundBootLoader found then pure (.returned ⟨matched, fun _ => none, [], []⟩)
  else
    let answer ← ask w .convertAuto
    let plan := makePlan w found answer
    let carried ← carryOut w found plan answer
    if carried = .failed then pure .retry
    else
      let listed := unconvFiles matched plan.updateMap
      finalNotes w found listed
      let rewritten := if carried = .updated then plan.autoConfigs else []
      pure (.returned ⟨matched, plan.updateMap, rewritten, listed⟩)

/-- `transition`: attempts, until one returns. `none` when the worlds come to an end
before that. -/
def transition (configFiles : List ConfigEntry) : List World → Except Text (Option (World × Report))
  | [] => .ok none
  | w :: ws => do
    match ← attempt configFiles w with
    | .returned report => pure (some (w, report))
    | .retry => transition configFiles ws

/-! ## Specification -/

namespace Report

variable (r : Report)

/-- The configuration is in the list, as a whole or with the device. -/
def Lists (m : FoundConfig) (bdev : Text) : Prop :=
  ∃ u ∈ r.listed, u.found = m ∧
    (u.devices = none ∧ m.config.update = none ∨
      ∃ devices, u.devices = some devices ∧ bdev ∈ devices)

/-- No deprecated device name is left unmentioned. -/
structure Mentioned : Prop where
  devices : ∀ m ∈ r.matched, ∀ bdev ∈ m.devices,
    (r.updateMap bdev ≠ none ∧ m ∈ r.rewritten) ∨ r.Lists m bdev
  idMapText : ∀ m ∈ r.matched, m.idMapText ≠ none → m ∈ r.rewritten ∨ ∃ u ∈ r.listed, u.found = m

end Report

/-- The answers let everything be updated that can be: the plan is not refused when it is
shown; and without the first consent, no configuration with a mapping of its own would
be updated. -/
def World.Consents (w : World) (found : List FoundConfig) : Prop :=
  if (w.debconf (.get .convertAuto)).2 = "true" then
    (makePlan w found "true").autoConfigs ≠ [] →
      (w.debconf (.get (planQuestion w found))).2 = "true"
  else ∀ m ∈ autoConfigs found, m.idMapText = none

namespace TransitionLemmas

/-! ### Calls that return -/

theorem bind_eq_ok {ε α β : Type} {x : Except ε α} {f : α → Except ε β} {b : β} :
    (x >>= f) = .ok b ↔ ∃ a, x = .ok a ∧ f a = .ok b := by
  cases x with
  | ok a => exact ⟨fun h => ⟨a, rfl, h⟩, fun ⟨_, ha, h⟩ => by cases ha; exact h⟩
  | error e => exact ⟨nofun, fun ⟨_, ha, _⟩ => by cases ha⟩

variable {configFiles : List ConfigEntry} {w : World} {found : List FoundConfig}

theorem ask_eq_ok {question : Question} {answer : Text} (h : ask w question = .ok answer) :
    answer = (w.debconf (.get question)).2 := by
  unfold ask at h
  obtain ⟨-, -, h⟩ := bind_eq_ok.mp h
  dsimp only at h
  split at h
  · cases h
  · cases h
    rfl

theorem askPlan_eq_ok {plan : Plan} {answer : Text} (h : askPlan w found plan = .ok answer) :
    answer = (w.debconf (.get (planQuestion w found))).2 := by
  unfold askPlan at h
  dsimp only at h
  split at h
  · obtain ⟨-, -, h⟩ := bind_eq_ok.mp h
    obtain ⟨-, -, h⟩ := bind_eq_ok.mp h
    obtain ⟨-, -, h⟩ := bind_eq_ok.mp h
    exact ask_eq_ok h
  · obtain ⟨-, -, h⟩ := bind_eq_ok.mp h
    obtain ⟨-, -, h⟩ := bind_eq_ok.mp h
    exact ask_eq_ok h

/-- What comes of a plan. -/
theorem carryOut_spec {plan : Plan} {answer : Text} {carried : Carried}
    (h : carryOut w found plan answer = .ok carried) :
    (¬ (plan.autoConfigs ≠ [] ∧ answer = "true") ∧ carried = .skipped) ∨
      ((plan.autoConfigs ≠ [] ∧ answer = "true") ∧
        ((w.debconf (.get (planQuestion w found))).2 ≠ "true" ∧ carried = .refused ∨
          (w.debconf (.get (planQuestion w found))).2 = "true" ∧
            (carried = .updated ∧ (w.updateAll plan.updateMap plan.autoConfigs).1 = 0 ∨
              carried = .failed))) := by
  unfold carryOut at h
  split at h
  · next hplan =>
    refine .inr ⟨hplan, ?_⟩
    obtain ⟨answer', hask, h⟩ := bind_eq_ok.mp h
    rw [← askPlan_eq_ok hask]
    split at h
    · next htrue =>
      refine .inr ⟨htrue, ?_⟩
      dsimp only at h
      split at h
      · obtain ⟨-, -, h⟩ := bind_eq_ok.mp h
        obtain ⟨-, -, h⟩ := bind_eq_ok.mp h
        cases h
        exact .inr rfl
      · next hrc =>
        cases h
        exact .inl ⟨rfl, not_not.mp hrc⟩
    · next hfalse =>
      cases h
      exact .inl ⟨hfalse, rfl⟩
  · next hplan =>
    cases h
    exact .inl ⟨hplan, rfl⟩

/-! ### Scanning -/

theorem mem_mapM_ok {α β ε : Type} {f : α → Except ε β} {as : List α} {bs : List β}
    (h : as.mapM f = .ok bs) {b : β} (hb : b ∈ bs) : ∃ a ∈ as, f a = .ok b := by
  induction as generalizing bs with
  | nil =>
    cases h
    cases hb
  | cons a as ih =>
    rw [List.mapM_cons] at h
    obtain ⟨b', hb', h⟩ := bind_eq_ok.mp h
    obtain ⟨bs', hbs', h⟩ := bind_eq_ok.mp h
    cases h
    cases hb with
    | head => exact ⟨a, List.mem_cons_self, hb'⟩
    | tail _ hb =>
      obtain ⟨a', ha', hf⟩ := ih hbs' hb
      exact ⟨a', List.mem_cons_of_mem _ ha', hf⟩

theorem scanConfig_idMapText {config : ConfigEntry} {m : FoundConfig}
    (h : scanConfig w config = .ok (some m)) (hid : m.idMapText ≠ none) : m.devices = [] := by
  unfold scanConfig at h
  split at h
  · cases h
  · split at h
    · cases h
    · cases h
    · dsimp only at h
      split at h
      · cases h
      · split at h
        · cases h
          rfl
        · cases h
          exact absurd rfl hid
        · cases h
          exact absurd rfl hid

/-- A configuration with a mapping of its own has no devices. -/
theorem scan_idMapText (h : scanConfigFiles configFiles w = .ok found) {m : FoundConfig}
    (hm : m ∈ found) (hid : m.idMapText ≠ none) : m.devices = [] := by
  unfold scanConfigFiles at h
  obtain ⟨results, hresults, h⟩ := bind_eq_ok.mp h
  split at h
  · cases h
    obtain ⟨result, hmem, hsome⟩ := List.mem_filterMap.mp hm
    obtain ⟨config, -, hscan⟩ := mem_mapM_ok hresults hmem
    rw [show result = some m from hsome] at hscan
    exact scanConfig_idMapText hscan hid
  · cases h
  · cases h

/-! ### An attempt -/

/-- How an attempt returns. -/
theorem attempt_spec {r : Report} (h : attempt configFiles w = .ok (.returned r)) :
    ∃ found, scanConfigFiles configFiles w = .ok found ∧
      ((matchedConfigs found = [] ∧ r = ⟨matchedConfigs found, fun _ => none, [], []⟩) ∨
        ∃ carried,
          carryOut w found (makePlan w found (w.debconf (.get .convertAuto)).2)
            (w.debconf (.get .convertAuto)).2 = .ok carried ∧ carried ≠ .failed ∧
          r = ⟨matchedConfigs found, (makePlan w found (w.debconf (.get .convertAuto)).2).updateMap,
            if carried = .updated then
              (makePlan w found (w.debconf (.get .convertAuto)).2).autoConfigs else [],
            unconvFiles (matchedConfigs found)
              (makePlan w found (w.debconf (.get .convertAuto)).2).updateMap⟩) := by
  unfold attempt at h
  obtain ⟨found, hscan, h⟩ := bind_eq_ok.mp h
  refine ⟨found, hscan, ?_⟩
  dsimp only at h
  split at h
  · next hearly =>
    cases h
    exact .inl ⟨hearly.1, rfl⟩
  · obtain ⟨answer, hask, h⟩ := bind_eq_ok.mp h
    obtain ⟨carried, hcarried, h⟩ := bind_eq_ok.mp h
    obtain rfl := ask_eq_ok hask
    refine .inr ⟨carried, hcarried, ?_⟩
    split at h
    · cases h
    · next hno =>
      obtain ⟨-, -, h⟩ := bind_eq_ok.mp h
      cases h
      exact ⟨hno, rfl⟩

/-! ### The report -/

theorem mem_unconvFiles {matched : List FoundConfig} {map : DeviceMap} {u : Unconverted} :
    u ∈ unconvFiles matched map ↔ ∃ m ∈ matched, (m.config.update = none ∧ u = ⟨m, none⟩) ∨
      (m.config.update ≠ none ∧ (m.devices.filter fun bdev => (map bdev).isNone) ≠ [] ∧
        u = ⟨m, some (m.devices.filter fun bdev => (map bdev).isNone)⟩) := by
  unfold unconvFiles
  rw [List.mem_filterMap]
  refine exists_congr fun m => and_congr_right fun _ => ?_
  cases hupdate : m.config.update with
  | none =>
    rw [if_pos Option.isNone_none, Option.some.injEq]
    exact ⟨fun h => .inl ⟨rfl, h.symm⟩, fun h => by
      obtain ⟨-, rfl⟩ | ⟨hne, -⟩ := h
      · rfl
      · exact absurd rfl hne⟩
  | some update =>
    rw [if_neg (show ¬ (some update).isNone = true from Bool.false_ne_true)]
    dsimp only
    split
    · next hne =>
      rw [Option.some.injEq]
      exact ⟨fun h => .inr ⟨nofun, hne, h.symm⟩, fun h => by
        obtain ⟨hno, -⟩ | ⟨-, -, rfl⟩ := h
        · cases hno
        · rfl⟩
    · next hnil =>
      refine ⟨nofun, ?_⟩
      intro h
      obtain ⟨hno, -⟩ | ⟨-, hne, -⟩ := h
      · cases hno
      · exact absurd hne hnil

theorem affected_iff {map : DeviceMap} {m : FoundConfig} :
    m.affected map = true ↔ m.idMapText ≠ none ∨ ∃ bdev ∈ m.devices, map bdev ≠ none := by
  unfold FoundConfig.affected
  rw [Bool.or_eq_true, Option.isSome_iff_ne_none, List.any_eq_true]
  simp only [Option.isSome_iff_ne_none]

theorem affected_none (m : FoundConfig) :
    m.affected (fun _ => none) = true ↔ m.idMapText ≠ none := by
  rw [affected_iff]
  constructor
  · rintro (h | ⟨_, _, hno⟩)
    · exact h
    · exact absurd rfl hno
  · exact .inl

section Mentioned

variable {matched rewritten : List FoundConfig} {map : DeviceMap} {m : FoundConfig}

/-- A configuration that is updated automatically is listed for its unmapped devices. -/
theorem listed_unmapped {u : Unconverted} (hu : u ∈ unconvFiles matched map)
    (hupdate : u.found.config.update ≠ none) : ∃ devices, u.devices = some devices ∧
      devices ≠ [] ∧ ∀ bdev ∈ devices, bdev ∈ u.found.devices ∧ map bdev = none := by
  obtain ⟨m, hm, ⟨hnone, rfl⟩ | ⟨-, hne, rfl⟩⟩ := mem_unconvFiles.mp hu
  · exact absurd hnone hupdate
  · refine ⟨_, rfl, hne, ?_⟩
    intro bdev hbdev
    obtain ⟨hmem, hunmapped⟩ := List.mem_filter.mp hbdev
    exact ⟨hmem, Option.isNone_iff_eq_none.mp hunmapped⟩

theorem listed_of_no_update (hm : m ∈ matched) (hupdate : m.config.update = none) :
    ⟨m, none⟩ ∈ unconvFiles matched map :=
  mem_unconvFiles.mpr ⟨m, hm, .inl ⟨hupdate, rfl⟩⟩

theorem listed_of_unmapped (hm : m ∈ matched) (hupdate : m.config.update ≠ none) {bdev : Text}
    (hbdev : bdev ∈ m.devices) (hmap : map bdev = none) :
    ∃ devices, ⟨m, some devices⟩ ∈ unconvFiles matched map ∧ bdev ∈ devices := by
  have hmem : bdev ∈ m.devices.filter fun bdev => (map bdev).isNone :=
    List.mem_filter.mpr ⟨hbdev, Option.isNone_iff_eq_none.mpr hmap⟩
  exact ⟨_, mem_unconvFiles.mpr ⟨m, hm, .inr ⟨hupdate, List.ne_nil_of_mem hmem, rfl⟩⟩, hmem⟩

/-- What the report leaves out: a configuration that is affected, and not rewritten. -/
theorem mentioned_iff (hid : ∀ m ∈ matched, m.idMapText ≠ none → m.devices = []) :
    (Report.mk matched map rewritten (unconvFiles matched map)).Mentioned ↔
      ∀ m ∈ matched, m.config.update ≠ none → m.affected map = true → m ∈ rewritten := by
  constructor
  · intro h m hm hupdate haffected
    rcases affected_iff.mp haffected with hne | ⟨bdev, hbdev, hmapped⟩
    · obtain hrewritten | ⟨u, hu, rfl⟩ := h.idMapText m hm hne
      · exact hrewritten
      · obtain ⟨devices, -, hdevices, hmem⟩ := listed_unmapped hu hupdate
        obtain ⟨bdev, hbdev⟩ := List.exists_mem_of_ne_nil _ hdevices
        have hno := (hmem bdev hbdev).1
        rw [hid _ hm hne] at hno
        cases hno
    · obtain ⟨-, hrewritten⟩ | ⟨u, hu, rfl, hlisted⟩ := h.devices m hm bdev hbdev
      · exact hrewritten
      · obtain ⟨devices, hdevices, -, hmem⟩ := listed_unmapped hu hupdate
        obtain ⟨hno, -⟩ | ⟨_, heq, hin⟩ := hlisted
        · rw [hdevices] at hno
          cases hno
        · cases hdevices.symm.trans heq
          exact absurd (hmem bdev hin).2 hmapped
  · intro h
    refine ⟨?_, ?_⟩
    · intro m hm bdev hbdev
      by_cases hupdate : m.config.update = none
      · exact .inr ⟨_, listed_of_no_update hm hupdate, rfl, .inl ⟨rfl, hupdate⟩⟩
      by_cases hmap : map bdev = none
      · obtain ⟨devices, hu, hin⟩ := listed_of_unmapped hm hupdate hbdev hmap
        exact .inr ⟨_, hu, rfl, .inr ⟨devices, rfl, hin⟩⟩
      · exact .inl ⟨hmap, h m hm hupdate (affected_iff.mpr (.inr ⟨bdev, hbdev, hmap⟩))⟩
    · intro m hm hne
      by_cases hupdate : m.config.update = none
      · exact .inr ⟨_, listed_of_no_update hm hupdate, rfl⟩
      · exact .inl (h m hm hupdate (affected_iff.mpr (.inl hne)))

end Mentioned

theorem mem_autoConfigs {m : FoundConfig} :
    m ∈ autoConfigs found ↔ m ∈ matchedConfigs found ∧ m.config.update ≠ none := by
  unfold autoConfigs
  rw [List.mem_filter, Option.isSome_iff_ne_none]

/-- With consent, the plan has the configurations that its map affects. -/
theorem makePlan_true (w : World) (found : List FoundConfig) :
    (makePlan w found "true").autoConfigs =
      (autoConfigs found).filter (·.affected (makePlan w found "true").updateMap) := by
  unfold makePlan
  split
  · rfl
  · next hno =>
    have hnil : autoConfigs found = [] := by
      by_contra hne
      exact hno ⟨hne, rfl⟩
    rw [hnil]
    rfl

theorem makePlan_false {answer : Text} (h : answer ≠ "true") :
    makePlan w found answer = ⟨fun _ => none, autoConfigs found⟩ :=
  if_neg fun hyes => h hyes.2

/-- The report of an attempt, for the outcomes of its plan. -/
theorem report_mentions_iff {answer : Text} {carried : Carried}
    (hanswer : answer = (w.debconf (.get .convertAuto)).2)
    (hid : ∀ m ∈ matchedConfigs found, m.idMapText ≠ none → m.devices = [])
    (h : carryOut w found (makePlan w found answer) answer = .ok carried)
    (hfailed : carried ≠ .failed) :
    (Report.mk (matchedConfigs found) (makePlan w found answer).updateMap
        (if carried = .updated then (makePlan w found answer).autoConfigs else [])
        (unconvFiles (matchedConfigs found) (makePlan w found answer).updateMap)).Mentioned ↔
      w.Consents found := by
  rw [mentioned_iff hid, World.Consents, ← hanswer]
  by_cases htrue : answer = "true"
  · subst htrue
    rw [if_pos rfl]
    have hautos := makePlan_true w found
    obtain ⟨hno, rfl⟩ | ⟨⟨hne, -⟩, ⟨hrefused, rfl⟩ | ⟨hconfirmed, hcarried⟩⟩ := carryOut_spec h
    · -- nothing is affected
      have hnil : (makePlan w found "true").autoConfigs = [] := by
        by_contra hne
        exact hno ⟨hne, rfl⟩
      refine ⟨fun _ hne => absurd hnil hne, fun _ m hm hupdate haffected => ?_⟩
      have hmem := List.mem_filter.mpr ⟨mem_autoConfigs.mpr ⟨hm, hupdate⟩, haffected⟩
      rw [← hautos, hnil] at hmem
      cases hmem
    · -- an affected configuration is not rewritten
      refine ⟨?_, fun hconsent => absurd (hconsent hne) hrefused⟩
      intro hall
      obtain ⟨m, hm⟩ := List.exists_mem_of_ne_nil _ hne
      rw [hautos] at hm
      obtain ⟨hauto, haffected⟩ := List.mem_filter.mp hm
      obtain ⟨hmatched, hupdate⟩ := mem_autoConfigs.mp hauto
      cases hall m hmatched hupdate haffected
    · -- all affected configurations are rewritten
      obtain ⟨rfl, -⟩ := hcarried.resolve_right hfailed
      refine ⟨fun _ _ => hconfirmed, fun _ m hm hupdate haffected => ?_⟩
      rw [if_pos rfl, hautos]
      exact List.mem_filter.mpr ⟨mem_autoConfigs.mpr ⟨hm, hupdate⟩, haffected⟩
  · rw [if_neg htrue]
    obtain ⟨-, rfl⟩ | ⟨⟨-, hyes⟩, -⟩ := carryOut_spec h
    · rw [makePlan_false htrue, if_neg (by decide)]
      constructor
      · intro hall m hm
        obtain ⟨hmatched, hupdate⟩ := mem_autoConfigs.mp hm
        by_contra hne
        cases hall m hmatched hupdate ((affected_none m).mpr hne)
      · intro hnone m hm hupdate haffected
        exact absurd (hnone m (mem_autoConfigs.mpr ⟨hm, hupdate⟩)) ((affected_none m).mp haffected)
    · exact absurd hyes htrue

/-- Only a successful update counts as rewriting. -/
theorem rewritten_updated {plan : Plan} {answer : Text} {carried : Carried}
    (h : carryOut w found plan answer = .ok carried)
    (hne : (if carried = .updated then plan.autoConfigs else []) ≠ []) :
    (w.updateAll plan.updateMap (if carried = .updated then plan.autoConfigs else [])).1 = 0 := by
  obtain ⟨-, rfl⟩ | ⟨-, ⟨-, rfl⟩ | ⟨-, ⟨rfl, hrc⟩ | rfl⟩⟩ := carryOut_spec h
  · exact absurd rfl hne
  · exact absurd rfl hne
  · rw [if_pos rfl]
    exact hrc
  · exact absurd rfl hne

/-- An attempt that returns mentions all device names if and only if its answers consent. -/
theorem attempt_mentions_iff {r : Report} (h : attempt configFiles w = .ok (.returned r)) :
    ∃ found, scanConfigFiles configFiles w = .ok found ∧ r.matched = matchedConfigs found ∧
      (r.rewritten ≠ [] → (w.updateAll r.updateMap r.rewritten).1 = 0) ∧
      (r.Mentioned ↔ w.Consents found) := by
  obtain ⟨found, hscan, ⟨hnil, rfl⟩ | ⟨carried, hcarried, hfailed, rfl⟩⟩ := attempt_spec h
  · refine ⟨found, hscan, rfl, fun hne => absurd rfl hne, fun _ => ?_,
      fun _ => ⟨fun m hm => ?_, fun m hm => ?_⟩⟩
    · have hauto : autoConfigs found = [] := by
        rw [autoConfigs, hnil]
        rfl
      unfold World.Consents
      split
      · rw [makePlan_true, hauto]
        exact fun hne => absurd rfl hne
      · rw [hauto]
        exact fun m hm => by cases hm
    · rw [show Report.matched _ = matchedConfigs found from rfl, hnil] at hm
      cases hm
    · rw [show Report.matched _ = matchedConfigs found from rfl, hnil] at hm
      cases hm
  · refine ⟨found, hscan, rfl, rewritten_updated hcarried,
      report_mentions_iff rfl (fun m hm => ?_) hcarried hfailed⟩
    exact scan_idMapText hscan (List.mem_filter.mp hm).1

end TransitionLemmas

open TransitionLemmas

/-- When the transition returns, no deprecated device name is left unmentioned, if and only
if the answers of the last attempt consent. -/
theorem transition_mentions_iff {configFiles : List ConfigEntry} {worlds : List World} {w : World}
    {r : Report} (h : transition configFiles worlds = .ok (some (w, r))) :
    w ∈ worlds ∧ ∃ found, scanConfigFiles configFiles w = .ok found ∧
      r.matched = matchedConfigs found ∧
      (r.rewritten ≠ [] → (w.updateAll r.updateMap r.rewritten).1 = 0) ∧
      (r.Mentioned ↔ w.Consents found) := by
  induction worlds with
  | nil => cases h
  | cons w' ws ih =>
    rw [transition] at h
    obtain ⟨outcome, hattempt, h⟩ := bind_eq_ok.mp h
    cases outcome with
    | returned report =>
      cases h
      exact ⟨List.mem_cons_self, attempt_mentions_iff hattempt⟩
    | retry =>
      obtain ⟨hmem, hrest⟩ := ih h
      exact ⟨List.mem_cons_of_mem _ hmem, hrest⟩

/-- The entry of the table for cryptsetup. -/
def crypttabEntry : ConfigEntry where
  packages := "cryptsetup"
  path := some "/etc/crypttab"
  needsUpdate := none
  list := some cryptsetupList
  update := some fun old map => some (cryptsetupUpdate old map)
  isBootLoader := false

/-- A swap partition with a UUID, consent to the update, and an answer to the plan. -/
def crypttabWorld (answer : Text) : World where
  openFile := fun _ => .content "swap /dev/hda2\n"
  dpkgQuery := fun _ => ["install ok installed\n"]
  bdevRegex := fun _ => true
  isBlock := fun _ => true
  ids := fun _ => ["UUID=0b"]
  newId := fun _ => none
  debconf := fun
    | .get .convertAuto => (0, "true")
    | .get .convertPlanNoRelabel => (0, answer)
    | _ => (0, [])
  updateAll := fun _ _ => (0, [])

/-- What the scan finds. -/
def crypttabFound : FoundConfig where
  config := crypttabEntry
  path := "/etc/crypttab"
  devices := ["/dev/hda2"]
  idMapText := none
  installed := true
  unpacked := true
  needsUpdate := true

theorem crypttab_mentioned :
    ∃ r, transition [crypttabEntry] [crypttabWorld "true"] = .ok (some (crypttabWorld "true", r)) ∧
      r.Mentioned := by
  obtain ⟨r, hrun⟩ : ∃ r, transition [crypttabEntry] [crypttabWorld "true"] =
      .ok (some (crypttabWorld "true", r)) := ⟨_, rfl⟩
  obtain ⟨-, found, hscan, -, -, hmentions⟩ := transition_mentions_iff hrun
  have hfound : scanConfigFiles [crypttabEntry] (crypttabWorld "true") = .ok [crypttabFound] := rfl
  obtain rfl := Except.ok.inj (hfound.symm.trans hscan)
  refine ⟨r, hrun, hmentions.mpr ?_⟩
  have hconsent : ((crypttabWorld "true").debconf (.get .convertAuto)).2 = "true" := rfl
  unfold World.Consents
  rw [if_pos hconsent]
  exact fun _ => rfl

/-- The plan is refused, and no note names the device. -/
theorem crypttab_unmentioned :
    ∃ r, transition [crypttabEntry] [crypttabWorld "false"] =
        .ok (some (crypttabWorld "false", r)) ∧ r.listed = [] ∧ ¬ r.Mentioned := by
  refine ⟨_, rfl, rfl, ?_⟩
  intro h
  obtain ⟨-, hrewritten⟩ | ⟨u, hu, -⟩ :=
    h.devices crypttabFound List.mem_cons_self "/dev/hda2" List.mem_cons_self
  · cases hrewritten
  · cases hu

end DebianKernel.DiskId
