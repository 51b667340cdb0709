import DebianKernel.DiskId.UpdateConfig

/-!
# Writing new ids

`set_new_ids` labels the devices one by one, and `update_all` goes on to the
configuration files only if it returns. Each setter runs one command, or writes one field
of a swap header, and dies when that fails; the setters for reiserfs, ufs and xfs take the
exit status the other way.

Results:
1. `setLabel_runsOne`, `setUuid_runsOne`: what each setter does, for every entry of
   `%filesystem_types`.
2. `setNewIds_of_avoids`, `setNewIds_of_not_avoids`: a run that comes to no device of
   these types, and one that does.
3. `new_ids_trustworthy_iff`: configuration is switched exactly to ids that are on the
   devices, if and only if no such device is reached.
-/

namespace DebianKernel.DiskId

open Text

/-! ## Calls -/

/-- What a setter does: a command, or a write to a field of a swap header. -/
inductive Call
  | command (args : List Text)
  | swapField (offset : Nat) (value : Text)
  deriving DecidableEq

/-- A call for a device, and whether it succeeded. -/
structure Event where
  bdev : Text
  call : Call
  ok : Bool
  deriving DecidableEq

/-- The calls so far. -/
abbrev Log := List Event

/-- What is outside: the replies can depend on everything that was called before. -/
structure Host where
  /-- `$?` after a command. -/
  system : Log → List Text → Int
  pagesize : Log → Option Nat
  opens : Log → Text → Bool
  /-- The text at a position, of at most a length. -/
  read : Log → Text → Nat → Nat → Option Text
  /-- The number of characters that were written at a position. -/
  write : Log → Text → Nat → Text → Option Nat
  /-- The text of `$!`. -/
  errno : Log → Text
  /-- `UUID::parse`, with `none` for a result that is not 0. -/
  uuidParse : Text → Option Text
  forks : Bool
  redirects : Bool
  /-- The status of a process that dies. -/
  dieStatus : Int
  dieStatus_ne : dieStatus ≠ 0

/-- Code that adds calls to the log, and returns or dies with a message. -/
abbrev Act := Log → Except Text Unit × Log

/-- `system(...) == 0 or die "$name failed: $?"`. -/
def systemOrDie (host : Host) (bdev : Text) (args : List Text) (name : Text) : Act := fun log =>
  let status := host.system log args
  (if status = 0 then .ok () else .error (name ++ " failed: " ++ toString status),
    log ++ [⟨bdev, .command args, status = 0⟩])

/-- `system(...) or die "$name failed: $?"`, which dies when the command succeeds. -/
def systemTrueOrDie (host : Host) (bdev : Text) (args : List Text) (name : Text) : Act := fun log =>
  let status := host.system log args
  (if status ≠ 0 then .ok () else .error (name ++ " failed: " ++ toString status),
    log ++ [⟨bdev, .command args, status = 0⟩])

/-! ## Setters -/

/-- A setter, for a device and a label or UUID. -/
abbrev Setter := Host → Text → Text → Act

def ext2SetLabel : Setter := fun host bdev label =>
  systemOrDie host bdev ["tune2fs", "-L", label, bdev] "tune2fs"

def ext2SetUuid : Setter := fun host bdev uuid =>
  systemOrDie host bdev ["tune2fs", "-U", uuid, bdev] "tune2fs"

def jfsSetLabel : Setter := fun host bdev label =>
  systemOrDie host bdev ["jfs_tune", "-L", label, bdev] "jfs_tune"

def jfsSetUuid : Setter := fun host bdev uuid =>
  systemOrDie host bdev ["jfs_tune", "-U", uuid, bdev] "jfs_tune"

def fatSetLabel : Setter := fun host bdev label =>
  systemOrDie host bdev ["dosfslabel", bdev, label] "dosfslabel"

def ntfsSetLabel : Setter := fun host bdev label =>
  systemOrDie host bdev ["ntfslabel", bdev, label] "ntfslabel"

def reiserfsSetLabel : Setter := fun host bdev label =>
  systemTrueOrDie host bdev ["reiserfstune", "--label", label, bdev] "reiserfstune"

def reiserfsSetUuid : Setter := fun host bdev uuid =>
  systemTrueOrDie host bdev ["reiserfstune", "--uuid", uuid, bdev] "reiserfstune"

def swapSignature : Text := "SWAPSPACE2"
def swapUuidOffset : Nat := 1036
def swapUuidLen : Nat := 16
def swapLabelOffset : Nat := 1052
def swapLabelLen : Nat := 16

/-- The checks and the write of `_swap_set_field`. -/
def swapWrite (host : Host) (log : Log) (bdev : Text) (offset : Nat) (value : Text) :
    Except Text Unit :=
  match host.pagesize log with
  | none => .error (host.errno log)
  | some pagesize =>
    if host.opens log bdev = false then .error (host.errno log)
    else if host.read log bdev (pagesize - swapSignature.length) swapSignature.length ≠
        some swapSignature then
      .error ("swap signature not found on " ++ bdev)
    else if host.write log bdev offset value ≠ some value.length then .error (host.errno log)
    else .ok ()

/-- `_swap_set_field`. -/
def swapSetField (host : Host) (bdev : Text) (offset : Nat) (value : Text) : Act := fun log =>
  let result := swapWrite host log bdev offset value
  (result, log ++ [⟨bdev, .swapField offset value, result.toBool⟩])

/-- `pack('Z' . $len, $value)`: cut or filled with zeros, with a zero at the end. -/
def packZ (len : Nat) (value : Text) : Text :=
  value.take (len - 1) ++ List.replicate (len - (value.take (len - 1)).length) '\x00'

def swapSetLabel : Setter := fun host bdev label =>
  swapSetField host bdev swapLabelOffset (packZ swapLabelLen label)

def swapSetUuid : Setter := fun host bdev uuid =>
  match host.uuidParse uuid with
  | some bin =>
    if bin.length ≠ swapUuidLen then fun log => (.error "internal error: invalid UUID string", log)
    else swapSetField host bdev swapUuidOffset bin
  | none => fun log => (.error "internal error: invalid UUID string", log)

def ufsSetLabel : Setter := fun host bdev label =>
  systemTrueOrDie host bdev ["tunefs.ufs", "-L", label, bdev] "tunefs.ufs"

def xfsSetLabel : Setter := fun host bdev label =>
  systemTrueOrDie host bdev ["xfs_admin", "-L", label, bdev] "xfs_admin"

def xfsSetUuid : Setter := fun host bdev uuid =>
  systemTrueOrDie host bdev ["xfs_admin", "-U", uuid, bdev] "xfs_admin"

/-- An entry of `%filesystem_types`. -/
structure FsType where
  name : Text
  setLabel : Setter
  setUuid : Option Setter

def fsTypes : List FsType :=
  [⟨"ext2", ext2SetLabel, some ext2SetUuid⟩,
    ⟨"ext3", ext2SetLabel, some ext2SetUuid⟩,
    ⟨"ext4", ext2SetLabel, some ext2SetUuid⟩,
    ⟨"jfs", jfsSetLabel, some jfsSetUuid⟩,
    ⟨"msdos", fatSetLabel, none⟩,
    ⟨"ntfs", ntfsSetLabel, none⟩,
    ⟨"reiserfs", reiserfsSetLabel, some reiserfsSetUuid⟩,
    ⟨"swap", swapSetLabel, some swapSetUuid⟩,
    ⟨"ufs", ufsSetLabel, none⟩,
    ⟨"vfat", fatSetLabel, none⟩,
    ⟨"xfs", xfsSetLabel, some xfsSetUuid⟩]

/-- `$filesystem_types{$type}`. -/
def filesystemType (type : Text) : Option FsType := fsTypes.find? (·.name = type)

/-! ## The run -/

/-- The fields of an entry of `%bdev_map` that are read. -/
structure BdevInfo where
  type : Option Text
  newId : Option Text

/-- The entries of `%bdev_map`, in the order of the iteration. -/
abbrev BdevMap := List (Text × BdevInfo)

/-- The id of a device, when it counts as true. -/
def BdevInfo.idToSet (info : BdevInfo) : Option Text :=
  info.newId.filter fun id => id ≠ [] ∧ id ≠ "0"

/-- The setter for an id. -/
def idSetter (info : BdevInfo) (name : Text) : Option Setter :=
  let fsType := filesystemType (info.type.getD [])
  if name = "UUID" then fsType.bind (·.setUuid)
  else if name = "LABEL" then fsType.map (·.setLabel)
  else none

/-- The body of the loop, for a device with a new id. -/
def setNewId (host : Host) (bdev : Text) (info : BdevInfo) (id : Text) : Act :=
  match idSetter info (id.takeWhile (· ≠ '=')) with
  | some setter => setter host bdev (id.dropWhile (· ≠ '=')).tail
  | none => fun log => (.error "internal error: invalid new_id type", log)

/-- `set_new_ids`. -/
def setNewIds (host : Host) : BdevMap → Act
  | [], log => (.ok (), log)
  | (bdev, info) :: rest, log =>
    match info.idToSet with
    | none => setNewIds host rest log
    | some id =>
      match setNewId host bdev info id log with
      | (.ok (), log) => setNewIds host rest log
      | (.error message, log) => (.error message, log)

/-- What is left after `update_all`: its status, the calls for new ids, the files, and
whether `update_config` was reached. -/
structure Updated where
  status : Int
  log : Log
  files : Fs
  reached : Bool

/-- `update_all`. -/
def updateAll (host : Host) (bdevs : BdevMap) (updateConfig : Fs → Except Text Unit × Fs)
    (files : Fs) : Updated :=
  if host.forks = false then ⟨-1, [], files, false⟩
  else if host.redirects = false then ⟨host.dieStatus, [], files, false⟩
  else
    match setNewIds host bdevs [] with
    | (.error _, log) => ⟨host.dieStatus, log, files, false⟩
    | (.ok (), log) =>
      match updateConfig files with
      | (.error _, files) => ⟨host.dieStatus, log, files, true⟩
      | (.ok (), files) => ⟨0, log, files, true⟩

/-! ## Specification -/

/-- A device as `assign_new_ids` leaves it: a new id is of a kind that can be set for the
type, and a UUID is one that `UUID::parse` reads. -/
def BdevInfo.Assigned (host : Host) (info : BdevInfo) : Prop :=
  ∀ id, info.newId = some id → ∃ type fsType, info.type = some type ∧
    filesystemType type = some fsType ∧
      ((∃ label : Text, id = "LABEL=" ++ label) ∨
        ∃ uuid bin : Text, id = "UUID=" ++ uuid ∧ fsType.setUuid.isSome = true ∧
          host.uuidParse uuid = some bin ∧ bin.length = swapUuidLen)

/-- The devices with a new id. -/
def newIdBdevs (bdevs : BdevMap) : List Text :=
  (bdevs.filter fun d => d.2.idToSet.isSome).map (·.1)

/-- All new ids are written: one successful call for each. -/
def AllWritten (bdevs : BdevMap) (log : Log) : Prop :=
  log.map (·.bdev) = newIdBdevs bdevs ∧ ∀ e ∈ log, e.ok = true

/-- Configuration is only switched to ids that are on the devices. -/
structure Trustworthy (host : Host) (bdevs : BdevMap) (updateConfig : Fs → Except Text Unit × Fs)
    (files : Fs) : Prop where
  returns_iff : (setNewIds host bdevs []).1 = .ok () ↔
    ∀ e ∈ (setNewIds host bdevs []).2, e.ok = true
  /-- Nothing is called behind a failure. -/
  stops : ∀ e ∈ (setNewIds host bdevs []).2.dropLast, e.ok = true
  reached_iff : host.forks = true → host.redirects = true →
    ((updateAll host bdevs updateConfig files).reached = true ↔
      AllWritten bdevs (updateAll host bdevs updateConfig files).log)
  untouched : (updateAll host bdevs updateConfig files).reached = false →
    (updateAll host bdevs updateConfig files).status ≠ 0 ∧
      (updateAll host bdevs updateConfig files).files = files

/-- The types whose setters take a failed command for a success. -/
def invertedTypes : List Text := ["reiserfs", "ufs", "xfs"]

/-- No device of these types is reached: before each of them, a call fails. -/
def AvoidsInverted (host : Host) : BdevMap → Log → Prop
  | [], _ => True
  | (bdev, info) :: rest, log =>
    match info.idToSet with
    | none => AvoidsInverted host rest log
    | some id => info.type.getD [] ∉ invertedTypes ∧
      ((setNewId host bdev info id log).1 = .ok () →
        AvoidsInverted host rest (setNewId host bdev info id log).2)

namespace SetNewIdsLemmas

/-! ### Setters -/

variable {host : Host} {bdev : Text} {log : Log}

/-- One call is made, and the code dies when it fails, or when it succeeds if `inverted`. -/
def RunsOne (act : Act) (bdev : Text) (inverted : Bool) : Prop :=
  ∀ log, ∃ call ok message, act log =
    (if ok ≠ inverted then .ok () else .error message, log ++ [⟨bdev, call, ok⟩])

theorem systemOrDie_runsOne (args : List Text) (name : Text) :
    RunsOne (systemOrDie host bdev args name) bdev false := by
  intro log
  refine ⟨.command args, host.system log args = 0,
    name ++ " failed: " ++ toString (host.system log args), ?_⟩
  unfold systemOrDie
  simp

theorem systemTrueOrDie_runsOne (args : List Text) (name : Text) :
    RunsOne (systemTrueOrDie host bdev args name) bdev true := by
  intro log
  refine ⟨.command args, host.system log args = 0,
    name ++ " failed: " ++ toString (host.system log args), ?_⟩
  unfold systemTrueOrDie
  simp

theorem swapSetField_runsOne (offset : Nat) (value : Text) :
    RunsOne (swapSetField host bdev offset value) bdev false := by
  intro log
  cases hresult : swapWrite host log bdev offset value with
  | ok u =>
    refine ⟨.swapField offset value, true, [], ?_⟩
    unfold swapSetField
    rw [hresult]
    rfl
  | error message =>
    refine ⟨.swapField offset value, false, message, ?_⟩
    unfold swapSetField
    rw [hresult]
    rfl

theorem swapSetUuid_runsOne {uuid bin : Text} (hparse : host.uuidParse uuid = some bin)
    (hlength : bin.length = swapUuidLen) : RunsOne (swapSetUuid host bdev uuid) bdev false := by
  unfold swapSetUuid
  rw [hparse]
  dsimp only
  rw [if_neg fun h => h hlength]
  exact swapSetField_runsOne _ _

theorem filesystemType_mem {type : Text} {fsType : FsType} (h : filesystemType type = some fsType) :
    fsType ∈ fsTypes ∧ fsType.name = type := by
  unfold filesystemType at h
  exact ⟨List.mem_of_find?_eq_some h, by simpa using List.find?_some h⟩

/-- What each setter for a label does. -/
theorem setLabel_runsOne {fsType : FsType} (h : fsType ∈ fsTypes) (label : Text) :
    RunsOne (fsType.setLabel host bdev label) bdev (fsType.name ∈ invertedTypes) := by
  simp only [fsTypes, List.mem_cons, List.not_mem_nil, or_false] at h
  rcases h with rfl | rfl | rfl | rfl | rfl | rfl | rfl | rfl | rfl | rfl | rfl
  all_goals first
    | exact systemOrDie_runsOne _ _
    | exact systemTrueOrDie_runsOne _ _
    | exact swapSetField_runsOne _ _

/-- What each setter for a UUID does. -/
theorem setUuid_runsOne {fsType : FsType} (h : fsType ∈ fsTypes) {setter : Setter}
    (hsetter : fsType.setUuid = some setter) {uuid bin : Text}
    (hparse : host.uuidParse uuid = some bin) (hlength : bin.length = swapUuidLen) :
    RunsOne (setter host bdev uuid) bdev (fsType.name ∈ invertedTypes) := by
  simp only [fsTypes, List.mem_cons, List.not_mem_nil, or_false] at h
  rcases h with rfl | rfl | rfl | rfl | rfl | rfl | rfl | rfl | rfl | rfl | rfl
  all_goals cases hsetter
  all_goals first
    | exact systemOrDie_runsOne _ _
    | exact systemTrueOrDie_runsOne _ _
    | exact swapSetUuid_runsOne hparse hlength

/-- The body of the loop. -/
theorem setNewId_runsOne {info : BdevInfo} {id : Text} (h : info.Assigned host)
    (hid : info.idToSet = some id) :
    RunsOne (setNewId host bdev info id) bdev (info.type.getD [] ∈ invertedTypes) := by
  have hnew : info.newId = some id := (Option.filter_eq_some_iff.mp hid).1
  obtain ⟨type, fsType, htype, hfs, hkind⟩ := h id hnew
  obtain ⟨hmem, rfl⟩ := filesystemType_mem hfs
  unfold setNewId idSetter
  rw [htype]
  dsimp only [Option.getD_some]
  rw [hfs]
  rcases hkind with ⟨label, rfl⟩ | ⟨uuid, bin, rfl, hsome, hparse, hlength⟩
  · exact setLabel_runsOne hmem label
  · obtain ⟨setter, hsetter⟩ := Option.isSome_iff_exists.mp hsome
    show RunsOne (match fsType.setUuid with
      | some setter => setter host bdev uuid
      | none => _) bdev _
    rw [hsetter]
    exact setUuid_runsOne hmem hsetter hparse hlength

/-! ### Runs -/

theorem setNewIds_skip {info : BdevInfo} (h : info.idToSet = none) (rest : BdevMap) :
    setNewIds host ((bdev, info) :: rest) log = setNewIds host rest log := by
  rw [setNewIds, h]

/-- The call for a device: the run goes on, or it ends there. -/
theorem setNewIds_next {info : BdevInfo} {id : Text} (h : info.Assigned host)
    (hid : info.idToSet = some id) (rest : BdevMap) (log : Log) :
    ∃ call ok, let log' := log ++ [⟨bdev, call, ok⟩]
      setNewId host bdev info id log =
        ((setNewId host bdev info id log).1, log') ∧
      (ok ≠ decide (info.type.getD [] ∈ invertedTypes) →
        (setNewId host bdev info id log).1 = .ok () ∧
          setNewIds host ((bdev, info) :: rest) log = setNewIds host rest log') ∧
      (ok = decide (info.type.getD [] ∈ invertedTypes) →
        (setNewId host bdev info id log).1 ≠ .ok () ∧
          ∃ message, setNewIds host ((bdev, info) :: rest) log = (.error message, log')) := by
  have hone : RunsOne (setNewId host bdev info id) bdev _ := setNewId_runsOne h hid
  obtain ⟨call, ok, message, hrun⟩ := hone log
  refine ⟨call, ok, by rw [hrun], ?_, ?_⟩
  · intro hgo
    rw [if_pos hgo] at hrun
    rw [setNewIds, hid]
    dsimp only
    rw [hrun]
    exact ⟨rfl, rfl⟩
  · intro hstop
    rw [if_neg (not_not_intro hstop)] at hrun
    rw [setNewIds, hid]
    dsimp only
    rw [hrun]
    exact ⟨nofun, message, rfl⟩



/-- A run adds calls to the log, and returns if it adds none. -/
theorem run_log {bdevs : BdevMap} (h : ∀ d ∈ bdevs, d.2.Assigned host) (log : Log) :
    ∃ more, (setNewIds host bdevs log).2 = log ++ more ∧
      (more = [] → (setNewIds host bdevs log).1 = .ok ()) := by
  induction bdevs generalizing log with
  | nil => exact ⟨[], (List.append_nil log).symm, fun _ => rfl⟩
  | cons d rest ih =>
    obtain ⟨bdev, info⟩ := d
    have hrest : ∀ d ∈ rest, d.2.Assigned host := fun d hd => h d (List.mem_cons_of_mem _ hd)
    cases hid : info.idToSet with
    | none =>
      rw [setNewIds_skip hid]
      exact ih hrest log
    | some id =>
      obtain ⟨call, ok, -, hgo, hstop⟩ := setNewIds_next (h _ List.mem_cons_self) hid rest log
      by_cases hok : ok = decide (info.type.getD [] ∈ invertedTypes)
      · obtain ⟨-, message, hrun⟩ := hstop hok
        rw [hrun]
        exact ⟨_, rfl, fun hnil => absurd hnil (List.cons_ne_nil _ _)⟩
      · rw [(hgo hok).2]
        obtain ⟨more, hlog, -⟩ := ih hrest (log ++ [⟨bdev, call, ok⟩])
        rw [hlog, List.append_assoc]
        exact ⟨_, rfl, fun hnil => absurd hnil (List.cons_ne_nil _ _)⟩

theorem newIdBdevs_skip {info : BdevInfo} (h : info.idToSet = none) (rest : BdevMap) :
    newIdBdevs ((bdev, info) :: rest) = newIdBdevs rest := by
  unfold newIdBdevs
  rw [List.filter_cons_of_neg (by rw [h]; decide)]

theorem newIdBdevs_cons {info : BdevInfo} {id : Text} (h : info.idToSet = some id)
    (rest : BdevMap) : newIdBdevs ((bdev, info) :: rest) = bdev :: newIdBdevs rest := by
  unfold newIdBdevs
  rw [List.filter_cons_of_pos (by rw [h]; rfl), List.map_cons]

/-- Successful calls, and one more. -/
theorem forall_ok_concat {e : Event} (h : ∀ e ∈ log, e.ok = true) (he : e.ok = true) :
    ∀ e' ∈ log ++ [e], e'.ok = true := by
  intro e' he'
  cases List.mem_append.mp he' with
  | inl hlog => exact h e' hlog
  | inr hlast => rw [List.mem_singleton.mp hlast]; exact he

/-- A run that reaches no inverted setter: all calls succeed, or the last one fails and
the run ends there. -/
theorem setNewIds_of_avoids {bdevs : BdevMap} (h : ∀ d ∈ bdevs, d.2.Assigned host)
    (hlog : ∀ e ∈ log, e.ok = true) (havoids : AvoidsInverted host bdevs log) :
    ((setNewIds host bdevs log).1 = .ok () ∧
        (setNewIds host bdevs log).2.map (·.bdev) = log.map (·.bdev) ++ newIdBdevs bdevs ∧
        ∀ e ∈ (setNewIds host bdevs log).2, e.ok = true) ∨
      ((∃ message, (setNewIds host bdevs log).1 = .error message) ∧
        ∃ log' e, (setNewIds host bdevs log).2 = log' ++ [e] ∧ (∀ e ∈ log', e.ok = true) ∧
          e.ok = false) := by
  induction bdevs generalizing log with
  | nil => exact .inl ⟨rfl, (List.append_nil _).symm, hlog⟩
  | cons d rest ih =>
    obtain ⟨bdev, info⟩ := d
    have hrest : ∀ d ∈ rest, d.2.Assigned host := fun d hd => h d (List.mem_cons_of_mem _ hd)
    rw [AvoidsInverted] at havoids
    cases hid : info.idToSet with
    | none =>
      rw [hid] at havoids
      rw [setNewIds_skip hid, newIdBdevs_skip hid]
      exact ih hrest hlog havoids
    | some id =>
      rw [hid] at havoids
      obtain ⟨htype, hnext⟩ := havoids
      obtain ⟨call, ok, hrun, hgo, hstop⟩ := setNewIds_next (h _ List.mem_cons_self) hid rest log
      rw [decide_eq_false htype] at hgo hstop
      cases ok with
      | true =>
        obtain ⟨hok, hcons⟩ := hgo (by decide)
        have hnext' := hnext hok
        rw [hrun] at hnext'
        rw [hcons, newIdBdevs_cons hid]
        have hih := ih hrest (forall_ok_concat hlog rfl) hnext'
        rw [List.map_append, List.append_assoc] at hih
        exact hih
      | false =>
        obtain ⟨-, message, hcons⟩ := hstop rfl
        rw [hcons]
        exact .inr ⟨⟨message, rfl⟩, log, _, rfl, hlog, rfl⟩

/-- A run that reaches an inverted setter: it dies although all calls succeeded, or it
goes on behind a failed one. -/
theorem setNewIds_of_not_avoids {bdevs : BdevMap} (h : ∀ d ∈ bdevs, d.2.Assigned host)
    (hlog : ∀ e ∈ log, e.ok = true) (havoids : ¬ AvoidsInverted host bdevs log)
    (hreturns : (setNewIds host bdevs log).1 = .ok () ↔
      ∀ e ∈ (setNewIds host bdevs log).2, e.ok = true) :
    ∃ e ∈ (setNewIds host bdevs log).2.dropLast, e.ok = false := by
  induction bdevs generalizing log with
  | nil => exact absurd trivial havoids
  | cons d rest ih =>
    obtain ⟨bdev, info⟩ := d
    have hrest : ∀ d ∈ rest, d.2.Assigned host := fun d hd => h d (List.mem_cons_of_mem _ hd)
    rw [AvoidsInverted] at havoids
    cases hid : info.idToSet with
    | none =>
      rw [hid] at havoids
      rw [setNewIds_skip hid] at hreturns ⊢
      exact ih hrest hlog havoids hreturns
    | some id =>
      rw [hid] at havoids
      obtain ⟨call, ok, hrun, hgo, hstop⟩ := setNewIds_next (h _ List.mem_cons_self) hid rest log
      by_cases htype : info.type.getD [] ∈ invertedTypes
      · rw [decide_eq_true htype] at hgo hstop
        cases ok with
        | true =>
          -- the command succeeded, and the setter dies
          obtain ⟨-, message, hcons⟩ := hstop rfl
          rw [hcons] at hreturns
          cases hreturns.mpr (forall_ok_concat hlog rfl)
        | false =>
          -- the command failed, and the run goes on
          obtain ⟨-, hcons⟩ := hgo (by decide)
          obtain ⟨more, hmore, hnil⟩ := run_log hrest (log ++ [⟨bdev, call, false⟩])
          rw [hcons, hmore] at hreturns ⊢
          have hfailed : (⟨bdev, call, false⟩ : Event) ∈ log ++ [⟨bdev, call, false⟩] :=
            List.mem_append_right _ List.mem_cons_self
          have hne : more ≠ [] := by
            intro hempty
            cases hreturns.mp (hnil hempty) _ (List.mem_append_left _ hfailed)
          refine ⟨⟨bdev, call, false⟩, ?_, rfl⟩
          rw [List.dropLast_append_of_ne_nil hne]
          exact List.mem_append_left _ hfailed
      · rw [decide_eq_false htype] at hgo hstop
        cases ok with
        | true =>
          obtain ⟨hok, hcons⟩ := hgo (by decide)
          rw [hcons] at hreturns ⊢
          refine ih hrest (forall_ok_concat hlog rfl) ?_ hreturns
          intro hyes
          refine havoids ⟨htype, ?_⟩
          intro _
          rw [hrun]
          exact hyes
        | false =>
          exact absurd ⟨htype, fun hok => absurd hok (hstop rfl).1⟩ havoids

/-! ### `update_all` -/

section

variable {bdevs : BdevMap} {updateConfig : Fs → Except Text Unit × Fs} {files : Fs}

/-- Before `update_config`, the files are as they were. -/
theorem updateAll_untouched (h : (updateAll host bdevs updateConfig files).reached = false) :
    (updateAll host bdevs updateConfig files).status ≠ 0 ∧
      (updateAll host bdevs updateConfig files).files = files := by
  unfold updateAll at h ⊢
  split
  · exact ⟨show (-1 : Int) ≠ 0 by decide, rfl⟩
  · split
    · exact ⟨host.dieStatus_ne, rfl⟩
    · next hforks hredirects =>
      rw [if_neg hforks, if_neg hredirects] at h
      split
      · exact ⟨host.dieStatus_ne, rfl⟩
      · next hids =>
        rw [hids] at h
        dsimp only at h
        split at h <;> cases h

theorem updateAll_started (hforks : host.forks = true) (hredirects : host.redirects = true) :
    (updateAll host bdevs updateConfig files).log = (setNewIds host bdevs []).2 ∧
      ((updateAll host bdevs updateConfig files).reached = true ↔
        (setNewIds host bdevs []).1 = .ok ()) := by
  unfold updateAll
  rw [if_neg (by rw [hforks]; decide), if_neg (by rw [hredirects]; decide)]
  split
  · next hids =>
    rw [hids]
    exact ⟨rfl, nofun, nofun⟩
  · next hids =>
    rw [hids]
    dsimp only
    split
    · exact ⟨rfl, fun _ => rfl, fun _ => rfl⟩
    · exact ⟨rfl, fun _ => rfl, fun _ => rfl⟩

end

end SetNewIdsLemmas

open SetNewIdsLemmas

/-- Configuration is switched exactly to ids that are on the devices, if and only if no
setter for reiserfs, ufs or xfs is reached. -/
theorem new_ids_trustworthy_iff {host : Host} {bdevs : BdevMap}
    (h : ∀ d ∈ bdevs, d.2.Assigned host) (updateConfig : Fs → Except Text Unit × Fs)
    (files : Fs) :
    Trustworthy host bdevs updateConfig files ↔ AvoidsInverted host bdevs [] := by
  have hempty : ∀ e ∈ ([] : Log), e.ok = true := fun e he => by cases he
  constructor
  · intro htrust
    by_contra hno
    obtain ⟨e, he, hfailed⟩ := setNewIds_of_not_avoids h hempty hno htrust.returns_iff
    rw [htrust.stops e he] at hfailed
    cases hfailed
  · intro havoids
    obtain ⟨hok, hbdevs, hall⟩ | ⟨⟨message, herror⟩, log', e, hlast, hall, hfailed⟩ :=
      setNewIds_of_avoids h hempty havoids
    · refine ⟨⟨fun _ => hall, fun _ => hok⟩, fun e he => hall e (List.dropLast_subset _ he),
        ?_, updateAll_untouched⟩
      intro hforks hredirects
      obtain ⟨hlog, hreached⟩ := updateAll_started hforks hredirects
      rw [hreached, hlog]
      exact ⟨fun _ => ⟨hbdevs, hall⟩, fun _ => hok⟩
    · have hno : ¬ ∀ e ∈ (setNewIds host bdevs []).2, e.ok = true := by
        intro hyes
        rw [hlast] at hyes
        have he := hyes e (List.mem_append_right _ List.mem_cons_self)
        rw [hfailed] at he
        cases he
      have hdies : (setNewIds host bdevs []).1 ≠ .ok () := by rw [herror]; exact nofun
      refine ⟨⟨fun hok => absurd hok hdies, fun hyes => absurd hyes hno⟩, ?_,
        fun hforks hredirects => ?_, updateAll_untouched⟩
      · rw [hlast, List.dropLast_concat]
        exact hall
      · obtain ⟨hlog, hreached⟩ := updateAll_started hforks hredirects
        rw [hreached, hlog]
        exact ⟨fun hok => absurd hok hdies, fun hwritten => absurd hwritten.2 hno⟩

/-- The value of a hexadecimal digit in lower case. -/
def hexDigit (c : Char) : Option Nat :=
  if '0' ≤ c ∧ c ≤ '9' then some (c.toNat - '0'.toNat)
  else if 'a' ≤ c ∧ c ≤ 'f' then some (c.toNat - 'a'.toNat + 10)
  else none

def hexBytes : Text → Option Text
  | a :: b :: rest => do
    let high ← hexDigit a
    let low ← hexDigit b
    let bytes ← hexBytes rest
    pure (Char.ofNat (16 * high + low) :: bytes)
  | [] => some []
  | [_] => none

/-- A host on which every command and every write succeeds. -/
def quietHost : Host where
  system := fun _ _ => 0
  pagesize := fun _ => some 4096
  opens := fun _ _ => true
  read := fun _ _ _ _ => some swapSignature
  write := fun _ _ _ value => some value.length
  errno := fun _ => []
  uuidParse := fun uuid => if uuid.length = 36 then hexBytes (uuid.filter (· ≠ '-')) else none
  forks := true
  redirects := true
  dieStatus := 255
  dieStatus_ne := by decide

/-- A swap partition and a file system of type vfat. -/
def swapAndVfat : BdevMap :=
  [("/dev/hda2", ⟨some "swap", some "UUID=6b29fc40-ca47-1067-b31d-00dd010662da"⟩),
    ("/dev/hda3", ⟨some "vfat", some "LABEL=host-data"⟩)]

theorem swap_and_vfat_trustworthy :
    Trustworthy quietHost swapAndVfat (fun files => (.ok (), files)) fun _ => none := by
  refine (new_ids_trustworthy_iff ?_ _ _).mpr
    ⟨by decide, fun _ => ⟨by decide, fun _ => trivial⟩⟩
  intro d hd
  cases hd with
  | head =>
    intro id h
    cases h
    exact ⟨"swap", _, rfl, rfl,
      .inr ⟨"6b29fc40-ca47-1067-b31d-00dd010662da", _, rfl, rfl, rfl, rfl⟩⟩
  | tail _ hd =>
    cases List.mem_singleton.mp hd
    intro id h
    cases h
    exact ⟨"vfat", _, rfl, rfl, .inl ⟨"host-data", rfl⟩⟩

/-- A file system of type reiserfs. -/
def reiserfsRoot : BdevMap :=
  [("/dev/hda1", ⟨some "reiserfs", some "UUID=6b29fc40-ca47-1067-b31d-00dd010662da"⟩)]

/-- The command succeeds, and the update dies. -/
theorem reiserfs_untrusted :
    (∀ d ∈ reiserfsRoot, d.2.Assigned quietHost) ∧
      ¬ Trustworthy quietHost reiserfsRoot (fun files => (.ok (), files)) fun _ => none := by
  constructor
  · intro d hd
    cases List.mem_singleton.mp hd
    intro id h
    cases h
    exact ⟨"reiserfs", _, rfl, rfl,
      .inr ⟨"6b29fc40-ca47-1067-b31d-00dd010662da", _, rfl, rfl, rfl, rfl⟩⟩
  · intro h
    have hreturned := h.returns_iff.mpr fun e he => by
      cases List.mem_singleton.mp he
      rfl
    have hdied : (setNewIds quietHost reiserfsRoot []).1 =
        .error ("reiserfstune failed: " ++ toString (0 : Int)) := rfl
    rw [hdied] at hreturned
    cases hreturned

end DebianKernel.DiskId
