import DebianKernel.DiskId.SetNewIds
import DebianKernel.DiskId.Transition
import DebianKernel.DiskId.UdevCd
import Mathlib.Data.Char
import Mathlib.Data.List.Lex
import Mathlib.Data.List.Sort

/-!
# The ids of devices

`scan_devices` collects the labels and UUIDs that `blkid` reports, and keeps for each
device that is mentioned in a configuration the ones that are safe and belong to no other
device. `assign_new_ids` labels the devices that are left without an id. The first id of a
device is what the configurations are changed to.

Results:
1. `scan_eq`: what is collected.
2. `assignNewIds_isSome`: a free label is always found.
3. `run_owned`: an id belongs to one device, in every order of the assignment.
4. `run_assigned`: what is assigned can be set.
5. `updateMap_eq_updateMapOf`: the map is the one of the transition.
6. `ids_unambiguous_iff`: the machines on which no id is misleading.
-/

namespace DebianKernel.DiskId

open Text

/-! ## Definitions -/

/-- The fields of an entry of `%bdev_map` that are read. -/
structure Bdev where
  path : Option Text
  type : Option Text
  ids : List Text
  newId : Option Text

/-- `%bdev_map` and `%id_map`. An id is in the second one for each device that was pushed on
its list. -/
structure IdMaps where
  bdevMap : Text → Option Bdev
  idMap : List (Text × Text)

/-- `"$name=$value"`. -/
def tagId (name value : Text) : Text := name ++ '=' :: value

namespace IdMaps

def setBdev (m : IdMaps) (bdev : Text) (info : Bdev) : IdMaps :=
  { m with bdevMap := Function.update m.bdevMap bdev (some info) }

/-- `add_tag`. -/
def addTag (m : IdMaps) (bdev name value : Text) (new : Bool) : IdMaps :=
  let id := tagId name value
  let m := { m with idMap := m.idMap ++ [(id, bdev)] }
  match m.bdevMap bdev with
  | some info => m.setBdev bdev { info with
      ids := info.ids ++ [id], newId := if new then some id else info.newId }
  | none => if new then m.setBdev bdev ⟨none, none, [], some id⟩ else m

end IdMaps

/-- A line of `vol_id` or `blkid -o udev`. -/
inductive IdLine
  | tag (name value : Text)
  | type (type : Text)

/-- The value in a line that matches `^$key(.+)\n$`. -/
def lineValue (key line : Text) : Option Text :=
  if key.isPrefixOf line ∧ line.getLast? = some '\n' then
    let value := (line.drop key.length).dropLast
    if value ≠ [] ∧ '\n' ∉ value then some value else none
  else none

def idLine (line : Text) : Option IdLine :=
  match lineValue "ID_FS_LABEL_ENC=" line, lineValue "ID_FS_UUID_ENC=" line with
  | some value, _ => some (.tag "LABEL" value)
  | none, some value => some (.tag "UUID" value)
  | none, none => (lineValue "ID_FS_TYPE=" line).map .type

/-- A line of the output for a device. -/
def scanIdLine (m : IdMaps) (bdev line : Text) : IdMaps :=
  match idLine line with
  | some (.tag name value) => m.addTag bdev name value false
  | some (.type type) => match m.bdevMap bdev with
    | some info => m.setBdev bdev { info with type := info.type.or (some type) }
    | none => m
  | none => m

def lvm : Text := "LVM2_member"

/-- The ids that are kept, in reverse lexical order. -/
def keepIds (idMap : List (Text × Text)) (ids : List Text) : List Text :=
  (ids.filter fun id => (idMap.filter fun p => p.1 = id).length = 1 ∧
    ¬ id.any fun c => c = '\\' ∨ c = '#').insertionSort fun a b => b ≤ a

/-- The ids of a device are discarded. -/
def discardIds (m : IdMaps) (bdev : Text) : IdMaps :=
  match m.bdevMap bdev with
  | some info => m.setBdev bdev { info with
      ids := if info.type = none ∨ info.type = some lvm then [] else keepIds m.idMap info.ids }
  | none => m

/-- `s{^(?!/)}{/dev/}`. -/
def absDev (t : Text) : Text := if t.head? = some '/' then t else "/dev/" ++ t

/-- The alias that a rule makes, and the device it stands for. -/
def aliasOf (readlink : Text → Option Text) (keys : List UdevPiece) : Option (Text × Text) :=
  match udevParseSymlinkRule keys with
  | (some _, some symlink) =>
    ((readlink (absDev symlink)).filter fun bdev => bdev ≠ [] ∧ bdev ≠ "0").map fun bdev =>
      (absDev symlink, absDev bdev)
  | _ => none

/-- A rule of the persistent CD rules. -/
def addAlias (readlink : Text → Option Text) (m : IdMaps) (keys : List UdevPiece) : IdMaps :=
  match aliasOf readlink keys with
  | some (symlink, bdev) => match m.bdevMap bdev with
    | some info => m.setBdev bdev { info with ids := info.ids ++ [symlink] }
    | none => m
  | none => m

/-- The keys of a hash in some order. -/
structure KeyOrder (keys : List Text) where
  order : List Text
  nodup : order.Nodup
  mem_iff : ∀ key, key ∈ order ↔ key ∈ keys

/-- What the two functions meet. -/
structure Machine where
  /-- The keys of `%bdev_map`. -/
  mentioned : List Text
  /-- The path and the type that the fstab gives for a device. -/
  fstab : Text → Option (Text × Text)
  /-- The devices of `blkid`, and the lines for each of them. -/
  blkid : List (Text × List Text)
  /-- `70-persistent-cd.rules`, when it can be opened. -/
  cdRules : Option Text
  readlink : Text → Option Text
  hostname : Text
  /-- The UUID that is generated for a device. -/
  uuid : Text → Text
  discardOrder : KeyOrder mentioned
  assignOrder : KeyOrder mentioned
  mapOrder : KeyOrder mentioned

/-- `%bdev_map` as `scan_config_files` leaves it. -/
def Machine.bdevMap (s : Machine) : Text → Option Bdev := fun bdev =>
  if s.mentioned.contains bdev then
    some ⟨(s.fstab bdev).map (·.1), (s.fstab bdev).map (·.2), [], none⟩
  else none

/-- `scan_devices`. -/
def scanDevices (s : Machine) (m : IdMaps) : IdMaps :=
  let m := s.blkid.foldl (fun m (bdev, lines) => lines.foldl (scanIdLine · bdev) m) m
  let m := s.discardOrder.order.foldl discardIds m
  match s.cdRules with
  | some file => (udevRules (lines file)).foldl (addAlias s.readlink) m
  | none => m

/-- Every run of `[^\w]` becomes one dash. Within a run, nothing more is added. -/
def dashes : Bool → Text → Text
  | _, [] => []
  | matched, c :: t =>
    if isWordChar c then c :: dashes false t
    else if matched then dashes true t
    else '-' :: dashes true t

/-- `$base`. -/
def labelBase (path type : Text) : Text :=
  let base := dashes false (if path.head? = some '/' then path else type)
  let base := if base.head? = some '-' then base.tail else base
  if base.getLast? = some '-' then base.dropLast else base

/-- `substr($t, 0, $len)`: a negative length leaves characters off the end. -/
def substr (t : Text) (len : Int) : Text :=
  if 0 ≤ len then t.take len.toNat else t.take (t.length - (-len).toNat)

/-- The label that is tried in a round of the loop. -/
def labelFor (hostname : Text) (labelLen : Nat) (path : Option Text) (type : Text) (n : Nat) :
    Text :=
  match path with
  | some path =>
    let base := labelBase path type
    let suffix := if n = 0 then [] else '-' :: Nat.toDigits 10 n
    let label := hostname ++ ['-'] ++ base ++ suffix
    if labelLen < label.length then substr base (labelLen - suffix.length) ++ suffix else label
  | none =>
    let suffix := '-' :: Nat.toDigits 10 (n + 1)
    substr hostname (labelLen - suffix.length) ++ suffix

/-- The field `label_len` of `%filesystem_types`. -/
def labelLens : List (Text × Nat) :=
  [("ext2", 16), ("ext3", 16), ("ext4", 16), ("jfs", 16), ("msdos", 11), ("ntfs", 128),
    ("reiserfs", 16), ("swap", swapLabelLen), ("ufs", 32), ("vfat", 11), ("xfs", 12)]

def labelLen (type : Text) : Nat := (labelLens.lookup type).getD 0

/-- `do { ... } while (exists($id_map{"LABEL=$label"}))`, for at most that many rounds. -/
def findLabel (idMap : List (Text × Text)) (label : Nat → Text) : Nat → Nat → Option Text
  | 0, _ => none
  | rounds + 1, n =>
    if idMap.any fun p => p.1 = tagId "LABEL" (label n) then findLabel idMap label rounds (n + 1)
    else some (label n)

/-- The label that a loop of `assign_new_ids` ends with. -/
def newLabel (idMap : List (Text × Text)) (hostname : Text) (len : Nat) (path : Option Text)
    (type : Text) : Option Text :=
  findLabel idMap (labelFor hostname len path type) (idMap.length + 2) 0

/-- The body of the loop of `assign_new_ids`. -/
def assignNewId (s : Machine) (m : IdMaps) (bdev : Text) : Option IdMaps :=
  match m.bdevMap bdev with
  | none => some m
  | some info =>
    if info.ids ≠ [] then some m
    else match info.type with
      | none => some m
      | some type => match filesystemType type with
        | none => some m
        | some fsType =>
          if fsType.setUuid.isSome then some (m.addTag bdev "UUID" (s.uuid bdev) true)
          else (newLabel m.idMap s.hostname (labelLen type) info.path type).map fun label =>
            m.addTag bdev "LABEL" label true

/-- `assign_new_ids`. -/
def assignNewIds (s : Machine) (m : IdMaps) : Option IdMaps :=
  s.assignOrder.order.foldlM (assignNewId s) m

/-- `%update_map`. -/
def updateMap (s : Machine) (m : IdMaps) : DeviceMap :=
  s.mapOrder.order.foldl (fun map bdev =>
    match (m.bdevMap bdev).bind fun info => info.ids.head? with
    | some id => Function.update map bdev (some id)
    | none => map) (fun _ => none)

/-- The maps after both functions. -/
def Machine.run (s : Machine) : Option IdMaps :=
  assignNewIds s (scanDevices s ⟨s.bdevMap, []⟩)

/-! ## What is reported -/

def lineId (line : Text) : Option Text :=
  match idLine line with
  | some (.tag name value) => some (tagId name value)
  | _ => none

def lineType (line : Text) : Option Text :=
  match idLine line with
  | some (.type type) => some type
  | _ => none

namespace Machine

/-- The lines of all devices, in order. -/
def lines (s : Machine) : List (Text × Text) :=
  s.blkid.flatMap fun d => d.2.map fun line => (d.1, line)

/-- The ids that are reported, with the devices. -/
def reports (s : Machine) : List (Text × Text) :=
  s.lines.filterMap fun (bdev, line) => (lineId line).map fun id => (id, bdev)

def linesOf (s : Machine) (bdev : Text) : List Text :=
  (s.lines.filter fun p => p.1 = bdev).map (·.2)

/-- The id is reported for the device. -/
def Reported (s : Machine) (bdev id : Text) : Prop := (id, bdev) ∈ s.reports

def reportedType (s : Machine) (bdev : Text) : Option Text := (s.linesOf bdev).findSome? lineType

/-- The aliases of CD drives, with the devices. -/
def aliases (s : Machine) : List (Text × Text) :=
  match s.cdRules with
  | some file => (udevRules (Text.lines file)).filterMap (aliasOf s.readlink)
  | none => []

end Machine

/-- A label or a UUID. -/
def IsTag (id : Text) : Prop := ∃ value, id = tagId "LABEL" value ∨ id = tagId "UUID" value

/-- The id was reported for the device or newly assigned to it. -/
def HasId (s : Machine) (m : IdMaps) (bdev id : Text) : Prop :=
  s.Reported bdev id ∨ (m.bdevMap bdev).bind (·.newId) = some id

structure Unambiguous (s : Machine) (m : IdMaps) : Prop where
  injective : ∀ {a b id}, updateMap s m a = some id → updateMap s m b = some id → a = b
  /-- A label or UUID stands for this device and no other. -/
  owned : ∀ {bdev id}, updateMap s m bdev = some id → IsTag id →
    HasId s m bdev id ∧ ∀ bdev', HasId s m bdev' id → bdev' = bdev
  safe : ∀ {bdev id}, updateMap s m bdev = some id → s.Reported bdev id → '\\' ∉ id ∧ '#' ∉ id
  lvm : ∀ {bdev id}, s.reportedType bdev = some lvm → updateMap s m bdev = some id → ¬ IsTag id

/-- No new UUID is reported or generated twice. -/
def FreshUuids (s : Machine) : Prop :=
  (∀ bdev ∈ s.mentioned, ∀ bdev', ¬ s.Reported bdev' (tagId "UUID" (s.uuid bdev))) ∧
    ∀ bdev ∈ s.mentioned, ∀ bdev' ∈ s.mentioned, s.uuid bdev = s.uuid bdev' → bdev = bdev'

/-- A label or UUID of the device that nobody shares and that every file can hold. -/
def Usable (s : Machine) (bdev id : Text) : Prop :=
  s.Reported bdev id ∧ (s.reports.filter fun p => p.1 = id).length = 1 ∧ '\\' ∉ id ∧ '#' ∉ id

/-- The fstab calls no physical volume anything else; or the volume has no label or UUID
that could be used, and it has an alias or cannot be labelled. -/
def PvSafe (s : Machine) : Prop :=
  ∀ bdev ∈ s.mentioned, s.reportedType bdev = some lvm →
    ∀ path type, s.fstab bdev = some (path, type) → type ≠ lvm →
      (∀ id, ¬ Usable s bdev id) ∧
        ((∃ symlink, (symlink, bdev) ∈ s.aliases) ∨ filesystemType type = none)

/-! ## The scan -/

namespace DeviceIdLemmas

open IdMaps

/-- What the lines of a device add to its entry. -/
def scanned (ls : List Text) (info : Bdev) : Bdev :=
  { info with
    type := info.type.or (ls.findSome? lineType)
    ids := info.ids ++ ls.filterMap lineId }

@[simp] theorem scanned_nil : scanned [] = id := by
  funext info
  simp [scanned]

theorem scanned_append (ls ls' : List Text) (info : Bdev) :
    scanned ls' (scanned ls info) = scanned (ls ++ ls') info := by
  simp [scanned, Option.or_assoc]

/-- An entry changes, and the others stay. -/
theorem setBdev_eq {m : IdMaps} {bdev d : Text} {info : Bdev} {f : Bdev → Bdev}
    (h : m.bdevMap bdev = some info) :
    (m.setBdev bdev (f info)).bdevMap d =
      (m.bdevMap d).map fun i => if d = bdev then f i else i := by
  rw [setBdev]
  rcases eq_or_ne d bdev with rfl | hne
  · simp [h]
  · simp [hne]

theorem scanIdLine_idMap (m : IdMaps) (bdev line : Text) :
    (scanIdLine m bdev line).idMap =
      m.idMap ++ ((lineId line).map fun id => (id, bdev)).toList := by
  rw [scanIdLine]
  split
  · next name value hline =>
    rw [addTag, lineId, hline]
    split <;> rfl
  · next type hline =>
    rw [lineId, hline]
    split <;> exact (List.append_nil _).symm
  · next hline =>
    rw [lineId, hline]
    exact (List.append_nil _).symm

theorem scanIdLine_bdevMap (m : IdMaps) (bdev line d : Text) :
    (scanIdLine m bdev line).bdevMap d =
      (m.bdevMap d).map (scanned (if d = bdev then [line] else [])) := by
  have hother : ∀ f : Bdev → Bdev, (∀ info, f info = scanned [line] info) →
      (fun i => if d = bdev then f i else i) = scanned (if d = bdev then [line] else []) := by
    intro f hf
    funext i
    split
    · exact hf i
    · rw [scanned_nil]
      rfl
  have hmissing : m.bdevMap bdev = none →
      m.bdevMap d = (m.bdevMap d).map (scanned (if d = bdev then [line] else [])) := by
    intro hnone
    rcases eq_or_ne d bdev with rfl | hne
    · rw [hnone]
      rfl
    · simp [hne]
  rw [scanIdLine]
  split
  · next name value hline =>
    rw [addTag]
    split
    · next info hinfo =>
      refine (setBdev_eq (f := fun info => { info with ids := info.ids ++ [tagId name value] })
        hinfo).trans ?_
      rw [hother]
      intro info
      simp [scanned, lineId, lineType, hline]
    · next hnone => exact hmissing hnone
  · next type hline =>
    split
    · next info hinfo =>
      refine (setBdev_eq (f := fun info => { info with type := info.type.or (some type) })
        hinfo).trans ?_
      rw [hother]
      intro info
      simp [scanned, lineId, lineType, hline]
    · next hnone => exact hmissing hnone
  · next hline =>
    have hsame : scanned (if d = bdev then [line] else []) = id := by
      funext info
      split <;> simp [scanned, lineId, lineType, hline]
    rw [hsame, Option.map_id_fun, id]

/-- What all lines add. -/
theorem scanLines_eq (ls : List (Text × Text)) (m : IdMaps) :
    (ls.foldl (fun m p => scanIdLine m p.1 p.2) m).idMap =
        m.idMap ++ ls.filterMap (fun p => (lineId p.2).map fun id => (id, p.1)) ∧
      ∀ d, (ls.foldl (fun m p => scanIdLine m p.1 p.2) m).bdevMap d =
        (m.bdevMap d).map (scanned ((ls.filter fun p => p.1 = d).map (·.2))) := by
  induction ls generalizing m with
  | nil => simp
  | cons p ls ih =>
    obtain ⟨hidMap, hbdevMap⟩ := ih (scanIdLine m p.1 p.2)
    rw [List.foldl_cons]
    refine ⟨?_, fun d => ?_⟩
    · rw [hidMap, scanIdLine_idMap, List.append_assoc, List.filterMap_cons]
      cases lineId p.2 <;> rfl
    · rw [hbdevMap, scanIdLine_bdevMap, Option.map_map]
      refine congrArg (fun f => Option.map f (m.bdevMap d)) (funext fun info => ?_)
      rw [Function.comp_apply, scanned_append, List.filter_cons]
      rcases eq_or_ne p.1 d with rfl | hne
      · simp
      · simp [hne, hne.symm]

theorem foldl_blkid (blkid : List (Text × List Text)) (m : IdMaps) :
    blkid.foldl (fun m (bdev, lines) => lines.foldl (scanIdLine · bdev) m) m =
      (blkid.flatMap fun d => d.2.map fun line => (d.1, line)).foldl
        (fun m p => scanIdLine m p.1 p.2) m := by
  induction blkid generalizing m with
  | nil => rfl
  | cons d blkid ih =>
    rw [List.foldl_cons, ih, List.flatMap_cons, List.foldl_append, List.foldl_map]

/-! The ids that stay -/

/-- The entry of a device without the ids that are discarded. -/
def discarded (idMap : List (Text × Text)) (info : Bdev) : Bdev :=
  { info with
    ids := if info.type = none ∨ info.type = some lvm then [] else keepIds idMap info.ids }

theorem foldl_discardIds {order : List Text} (hnodup : order.Nodup) (m : IdMaps) :
    (order.foldl discardIds m).idMap = m.idMap ∧
      ∀ d, (order.foldl discardIds m).bdevMap d =
        if d ∈ order then (m.bdevMap d).map (discarded m.idMap) else m.bdevMap d := by
  induction order generalizing m with
  | nil => simp
  | cons bdev order ih =>
    obtain ⟨hnot, hnodup⟩ := List.nodup_cons.mp hnodup
    have hidMap : (discardIds m bdev).idMap = m.idMap := by
      rw [discardIds]
      split <;> rfl
    have hbdevMap : ∀ d, (discardIds m bdev).bdevMap d =
        (m.bdevMap d).map fun i => if d = bdev then discarded m.idMap i else i := by
      intro d
      rw [discardIds]
      split
      · next info hinfo => exact setBdev_eq (f := discarded m.idMap) hinfo
      · next hnone =>
        rcases eq_or_ne d bdev with rfl | hne
        · rw [hnone]
          rfl
        · simp [hne]
    obtain ⟨ihidMap, ihbdevMap⟩ := ih hnodup (discardIds m bdev)
    rw [List.foldl_cons]
    refine ⟨ihidMap.trans hidMap, fun d => ?_⟩
    rw [ihbdevMap, hbdevMap, hidMap]
    rcases eq_or_ne d bdev with rfl | hne
    · simp [hnot]
    · simp [hne]

/-- An entry with the aliases of a list. -/
def aliased (aliases : List (Text × Text)) (bdev : Text) (info : Bdev) : Bdev :=
  { info with ids := info.ids ++ (aliases.filter fun p => p.2 = bdev).map (·.1) }

@[simp] theorem aliased_nil (bdev : Text) : aliased [] bdev = id := by
  funext info
  simp [aliased]

theorem foldl_addAlias (readlink : Text → Option Text) (rules : List (List UdevPiece))
    (m : IdMaps) :
    (rules.foldl (addAlias readlink) m).idMap = m.idMap ∧
      ∀ d, (rules.foldl (addAlias readlink) m).bdevMap d =
        (m.bdevMap d).map (aliased (rules.filterMap (aliasOf readlink)) d) := by
  induction rules generalizing m with
  | nil => simp
  | cons keys rules ih =>
    obtain ⟨ihidMap, ihbdevMap⟩ := ih (addAlias readlink m keys)
    rw [List.foldl_cons]
    refine ⟨ihidMap.trans ?_, fun d => (ihbdevMap d).trans ?_⟩
    · rw [addAlias]
      split
      · split <;> rfl
      · rfl
    · rw [addAlias, List.filterMap_cons]
      split
      · next symlink bdev halias =>
        rw [halias]
        split
        · next info hinfo =>
          rw [setBdev_eq (f := fun info => { info with ids := info.ids ++ [symlink] }) hinfo,
            Option.map_map]
          refine congrArg (fun f => Option.map f (m.bdevMap d)) (funext fun i => ?_)
          rcases eq_or_ne d bdev with rfl | hne
          · simp [aliased]
          · simp [aliased, hne, hne.symm]
        · next hnone =>
          rcases eq_or_ne d bdev with rfl | hne
          · rw [hnone]
            rfl
          · refine congrArg (fun f => Option.map f (m.bdevMap d)) (funext fun i => ?_)
            simp [aliased, hne.symm]
      · next halias => rw [halias]

/-- What the scan leaves for a device. -/
def scanResult (s : Machine) (bdev : Text) (info : Bdev) : Bdev :=
  aliased s.aliases bdev (discarded s.reports (scanned (s.linesOf bdev) info))

theorem scan_eq (s : Machine) :
    (scanDevices s ⟨s.bdevMap, []⟩).idMap = s.reports ∧
      ∀ d, (scanDevices s ⟨s.bdevMap, []⟩).bdevMap d = (s.bdevMap d).map (scanResult s d) := by
  obtain ⟨hid, hbdev⟩ := scanLines_eq s.lines ⟨s.bdevMap, []⟩
  rw [Machine.lines, ← foldl_blkid] at hid hbdev
  generalize hm : s.blkid.foldl (fun m (bdev, lines) => lines.foldl (scanIdLine · bdev) m)
    ⟨s.bdevMap, []⟩ = m at hid hbdev
  obtain ⟨hid', hbdev'⟩ := foldl_discardIds s.discardOrder.nodup m
  have hdiscard : ∀ d, (s.discardOrder.order.foldl discardIds m).bdevMap d =
      (s.bdevMap d).map fun info => discarded s.reports (scanned (s.linesOf d) info) := by
    intro d
    rw [hbdev', hbdev, hid]
    split
    · rw [Option.map_map]
      rfl
    · next hd =>
      rw [s.discardOrder.mem_iff] at hd
      simp [Machine.bdevMap, hd]
  have hreports : (s.discardOrder.order.foldl discardIds m).idMap = s.reports := hid'.trans hid
  rw [scanDevices]
  simp only [hm]
  cases hrules : s.cdRules with
  | none =>
    refine ⟨hreports, fun d => (hdiscard d).trans ?_⟩
    have haliases : s.aliases = [] := by rw [Machine.aliases, hrules]
    refine congrArg (fun f => Option.map f (s.bdevMap d)) (funext fun info => ?_)
    rw [scanResult, haliases, aliased_nil]
    rfl
  | some file =>
    obtain ⟨hid'', hbdev''⟩ := foldl_addAlias s.readlink (udevRules (Text.lines file))
      (s.discardOrder.order.foldl discardIds m)
    refine ⟨hid''.trans hreports, fun d => (hbdev'' d).trans ?_⟩
    have haliases : s.aliases = (udevRules (Text.lines file)).filterMap (aliasOf s.readlink) := by
      rw [Machine.aliases, hrules]
    rw [hdiscard, Option.map_map, ← haliases]
    rfl

/-- An id that is reported for the device. -/
theorem mem_lineIds {s : Machine} {bdev id : Text} :
    id ∈ (s.linesOf bdev).filterMap lineId ↔ s.Reported bdev id := by
  rw [Machine.Reported, Machine.reports, Machine.linesOf]
  simp only [List.mem_filterMap, List.mem_map, List.mem_filter, decide_eq_true_eq,
    Option.map_eq_some_iff, Prod.exists, Prod.mk.injEq]
  constructor
  · rintro ⟨line, ⟨bdev', line', ⟨hmem, rfl⟩, rfl⟩, hid⟩
    exact ⟨_, _, hmem, id, hid, rfl, rfl⟩
  · rintro ⟨bdev', line, hmem, id', hid, rfl, rfl⟩
    exact ⟨line, ⟨_, _, ⟨hmem, rfl⟩, rfl⟩, hid⟩

theorem isTag_of_reported {s : Machine} {bdev id : Text} (h : s.Reported bdev id) : IsTag id := by
  obtain ⟨line, -, hid⟩ := List.mem_filterMap.mp (mem_lineIds.mpr h)
  rw [lineId] at hid
  split at hid
  · next name value hline =>
    obtain rfl := Option.some.inj hid
    have hname : name = "LABEL" ∨ name = "UUID" := by
      rw [idLine] at hline
      split at hline
      · cases hline
        exact .inl rfl
      · cases hline
        exact .inr rfl
      · obtain ⟨_, -, heq⟩ := Option.map_eq_some_iff.mp hline
        cases heq
    rcases hname with rfl | rfl
    · exact ⟨value, .inl rfl⟩
    · exact ⟨value, .inr rfl⟩
  · cases hid

/-- An alias is a path. -/
theorem not_isTag_absDev (t : Text) : ¬ IsTag (absDev t) := by
  have hslash : (absDev t).head? = some '/' := by
    rw [absDev]
    split
    · assumption
    · rfl
  rintro ⟨value, h | h⟩ <;>
  · rw [h] at hslash
    exact absurd (Option.some.inj hslash) (by decide)

/-- The labels and UUIDs that a device keeps. -/
theorem mem_discarded {s : Machine} {bdev id : Text} {info : Bdev} (hids : info.ids = []) :
    id ∈ (discarded s.reports (scanned (s.linesOf bdev) info)).ids ↔
      ¬ ((scanResult s bdev info).type = none ∨ (scanResult s bdev info).type = some lvm) ∧
        Usable s bdev id := by
  have hsafe : (¬ (id.any fun c => c = '\\' ∨ c = '#') = true) ↔ '\\' ∉ id ∧ '#' ∉ id := by
    simp only [List.any_eq_true, decide_eq_true_eq, not_exists, not_and]
    exact ⟨fun h => ⟨fun hm => h _ hm (.inl rfl), fun hm => h _ hm (.inr rfl)⟩,
      fun h c hc heq => heq.elim (fun heq => h.1 (heq ▸ hc)) fun heq => h.2 (heq ▸ hc)⟩
  simp only [scanResult, aliased, discarded, scanned, hids, List.nil_append]
  split
  · next h => exact iff_of_false List.not_mem_nil fun hid => hid.1 h
  · next h =>
    rw [keepIds, List.mem_insertionSort, List.mem_filter, mem_lineIds, decide_eq_true_iff, hsafe]
    exact ⟨fun hid => ⟨h, hid⟩, And.right⟩

/-- The ids of a device after the scan: its own, and its aliases. -/
theorem mem_scanResult {s : Machine} {bdev id : Text} {info : Bdev} (hids : info.ids = []) :
    id ∈ (scanResult s bdev info).ids ↔
      (¬ ((scanResult s bdev info).type = none ∨ (scanResult s bdev info).type = some lvm) ∧
        Usable s bdev id) ∨ (id, bdev) ∈ s.aliases := by
  rw [← mem_discarded hids]
  refine List.mem_append.trans (or_congr_right ?_)
  simp [List.mem_map]

theorem alias_unique {s : Machine} {id bdev bdev' : Text} (h : (id, bdev) ∈ s.aliases)
    (h' : (id, bdev') ∈ s.aliases) : bdev = bdev' := by
  have htarget : ∀ {id bdev}, (id, bdev) ∈ s.aliases →
      ∃ target, s.readlink id = some target ∧ bdev = absDev target := by
    intro id bdev h
    rw [Machine.aliases] at h
    split at h
    · obtain ⟨keys, -, h⟩ := List.mem_filterMap.mp h
      rw [aliasOf] at h
      split at h
      · obtain ⟨target, htarget, heq⟩ := Option.map_eq_some_iff.mp h
        obtain ⟨rfl, rfl⟩ := Prod.mk.inj heq
        exact ⟨target, (Option.filter_eq_some_iff.mp htarget).1, rfl⟩
      · cases h
    · cases h
  obtain ⟨target, ht, rfl⟩ := htarget h
  obtain ⟨target', ht', rfl⟩ := htarget h'
  rw [Option.some.inj (ht.symm.trans ht')]

theorem not_isTag_alias {s : Machine} {id bdev : Text} (h : (id, bdev) ∈ s.aliases) :
    ¬ IsTag id := by
  rw [Machine.aliases] at h
  split at h
  · obtain ⟨keys, -, h⟩ := List.mem_filterMap.mp h
    rw [aliasOf] at h
    split at h
    · obtain ⟨target, -, heq⟩ := Option.map_eq_some_iff.mp h
      rw [← (Prod.mk.inj heq).1]
      exact not_isTag_absDev _
    · cases h
  · cases h

/-! ## The loop for a label -/

theorem digits_inj {n n' : Nat} {w w' : Text}
    (h : w ++ '-' :: Nat.toDigits 10 n = w' ++ '-' :: Nat.toDigits 10 n') : n = n' := by
  have hdigit : ∀ n : Nat, ∀ d ∈ Nat.toDigits 10 n, d.isDigit = true := fun n d hd =>
    Nat.isDigit_of_mem_toDigits (by decide) (by decide) hd
  have heq := (Text.split_unique h (hdigit n) (hdigit n') rfl rfl).2.2
  have hval := congrArg (Nat.ofDigitChars 10 · 0) heq
  simpa only [Nat.ofDigitChars_ten_toDigits] using hval

/-- From the second round on, no label is tried twice. -/
theorem labelFor_inj {hostname : Text} {len : Nat} {path : Option Text} {type : Text} {n n' : Nat}
    (h : labelFor hostname len path type (n + 1) = labelFor hostname len path type (n' + 1)) :
    n = n' := by
  have hform : ∀ n, ∃ w : Text, ∃ k, labelFor hostname len path type (n + 1) =
      w ++ '-' :: Nat.toDigits 10 (n + k) ∧ k = if path = none then 2 else 1 := by
    intro n
    cases path with
    | none => exact ⟨_, 2, rfl, rfl⟩
    | some path =>
      rw [labelFor]
      simp only [Nat.succ_ne_zero, if_false]
      split
      · exact ⟨_, 1, rfl, rfl⟩
      · exact ⟨_, 1, rfl, rfl⟩
  obtain ⟨w, k, hw, hk⟩ := hform n
  obtain ⟨w', k', hw', hk'⟩ := hform n'
  rw [hw, hw'] at h
  have hsum := digits_inj h
  rw [hk, hk'] at hsum
  exact Nat.add_right_cancel hsum

theorem findLabel_spec {idMap : List (Text × Text)} {label : Nat → Text} {rounds n : Nat}
    {l : Text} (h : findLabel idMap label rounds n = some l) (bdev : Text) :
    (tagId "LABEL" l, bdev) ∉ idMap := by
  induction rounds generalizing n with
  | zero => cases h
  | succ rounds ih =>
    rw [findLabel] at h
    split at h
    · exact ih h
    · next hany =>
      obtain rfl := Option.some.inj h
      intro hmem
      exact hany (List.any_eq_true.mpr ⟨_, hmem, decide_eq_true rfl⟩)

theorem findLabel_eq_none {idMap : List (Text × Text)} {label : Nat → Text} {rounds n : Nat}
    (h : findLabel idMap label rounds n = none) {k : Nat} (hk : k < rounds) :
    tagId "LABEL" (label (n + k)) ∈ idMap.map (·.1) := by
  induction rounds generalizing n k with
  | zero => exact absurd hk (Nat.not_lt_zero k)
  | succ rounds ih =>
    rw [findLabel] at h
    split at h
    · next hany =>
      cases k with
      | zero =>
        obtain ⟨p, hp, heq⟩ := List.any_eq_true.mp hany
        rw [Nat.add_zero, ← of_decide_eq_true heq]
        exact List.mem_map_of_mem hp
      | succ k =>
        have hlater := ih h (Nat.lt_of_succ_lt_succ hk)
        rwa [Nat.add_assoc, Nat.add_comm 1] at hlater
    · cases h

/-- There are more labels than ids. -/
theorem findLabel_isSome (idMap : List (Text × Text)) (hostname : Text) (len : Nat)
    (path : Option Text) (type : Text) :
    (findLabel idMap (labelFor hostname len path type) (idMap.length + 2) 0).isSome = true := by
  rw [← Option.ne_none_iff_isSome]
  intro hnone
  let tried := (List.range (idMap.length + 1)).map fun n =>
    tagId "LABEL" (labelFor hostname len path type (n + 1))
  have hnodup : tried.Nodup := by
    refine List.Nodup.map (fun n n' heq => ?_) List.nodup_range
    refine labelFor_inj (List.cons.inj (List.append_cancel_left heq)).2
  have hsub : tried ⊆ idMap.map (·.1) := by
    intro id hid
    obtain ⟨n, hn, rfl⟩ := List.mem_map.mp hid
    have htaken := findLabel_eq_none hnone (k := n + 1)
      (Nat.succ_lt_succ (List.mem_range.mp hn))
    rwa [Nat.zero_add] at htaken
  have hlen := (List.subperm_of_subset hnodup hsub).length_le
  simp only [tried, List.length_map, List.length_range] at hlen
  exact Nat.not_succ_le_self _ hlen

/-! ## New ids -/

/-- An id that is made for a device of this type. -/
def Made (s : Machine) (bdev : Text) (type : Option Text) (id : Text) : Prop :=
  ∃ fsType, type.bind filesystemType = some fsType ∧
    ((∃ label, id = tagId "LABEL" label) ∨
      id = tagId "UUID" (s.uuid bdev) ∧ fsType.setUuid.isSome = true)

theorem Made.isTag {s : Machine} {bdev id : Text} {type : Option Text}
    (h : Made s bdev type id) : IsTag id := by
  obtain ⟨-, -, ⟨label, rfl⟩ | ⟨rfl, -⟩⟩ := h
  · exact ⟨label, .inl rfl⟩
  · exact ⟨s.uuid bdev, .inr rfl⟩

/-- What a step for a device does. -/
theorem assignNewId_cases {s : Machine} {m m' : IdMaps} {bdev : Text}
    (h : assignNewId s m bdev = some m') :
    (m' = m ∧ ∀ info, m.bdevMap bdev = some info → info.ids = [] →
      info.type.bind filesystemType = none) ∨
    ∃ info name value, m.bdevMap bdev = some info ∧ info.ids = [] ∧
      Made s bdev info.type (tagId name value) ∧ m' = m.addTag bdev name value true ∧
      (name = "UUID" ∧ value = s.uuid bdev ∨
        name = "LABEL" ∧ ∀ d, (tagId "LABEL" value, d) ∉ m.idMap) := by
  rw [assignNewId] at h
  split at h
  · next hnone =>
    cases h
    exact .inl ⟨rfl, fun info hinfo => by rw [hnone] at hinfo; cases hinfo⟩
  · next info hinfo =>
    have hsame : ∀ {P : Bdev → Prop}, P info → ∀ i, m.bdevMap bdev = some i → P i := by
      intro P hP i hi
      rw [hinfo] at hi
      cases hi
      exact hP
    split at h
    · next hids =>
      cases h
      exact .inl ⟨rfl, hsame fun hnil => absurd hnil hids⟩
    · next hids =>
      split at h
      · next htype =>
        cases h
        exact .inl ⟨rfl, hsame fun _ => by rw [htype]; rfl⟩
      · next type htype =>
        split at h
        · next hfs =>
          cases h
          exact .inl ⟨rfl, hsame fun _ => by rw [htype]; exact hfs⟩
        · next fsType hfs =>
          have hfsType : info.type.bind filesystemType = some fsType := by
            rw [htype, Option.bind_some, hfs]
          split at h
          · next huuid =>
            cases h
            exact .inr ⟨info, _, _, hinfo, not_not.mp hids, ⟨fsType, hfsType, .inr ⟨rfl, huuid⟩⟩,
              rfl, .inl ⟨rfl, rfl⟩⟩
          · obtain ⟨label, hlabel, rfl⟩ := Option.map_eq_some_iff.mp h
            exact .inr ⟨info, _, _, hinfo, not_not.mp hids, ⟨fsType, hfsType, .inl ⟨label, rfl⟩⟩,
              rfl, .inr ⟨rfl, findLabel_spec hlabel⟩⟩

theorem assignNewId_isSome (s : Machine) (m : IdMaps) (bdev : Text) :
    (assignNewId s m bdev).isSome = true := by
  rw [assignNewId]
  split
  · rfl
  · split
    · rfl
    · split
      · rfl
      · split
        · rfl
        · split
          · rfl
          · rw [Option.isSome_map]
            exact findLabel_isSome _ _ _ _ _

/-- The run ends. -/
theorem assignNewIds_isSome (s : Machine) (order : List Text) (m : IdMaps) :
    (order.foldlM (assignNewId s) m).isSome = true := by
  induction order generalizing m with
  | nil => rfl
  | cons bdev order ih =>
    obtain ⟨m', hm'⟩ := Option.isSome_iff_exists.mp (assignNewId_isSome s m bdev)
    rw [List.foldlM_cons, hm']
    exact ih m'

/-- A new id replaces the empty list of a device. -/
theorem addTag_new {m : IdMaps} {bdev name value : Text} {info : Bdev}
    (h : m.bdevMap bdev = some info) (hids : info.ids = []) (d : Text) :
    (m.addTag bdev name value true).bdevMap d =
      if d = bdev then
        some { info with ids := [tagId name value], newId := some (tagId name value) }
      else m.bdevMap d := by
  rw [addTag]
  simp only [h, hids, setBdev, List.nil_append, if_true]
  rcases eq_or_ne d bdev with rfl | hne
  · simp
  · simp [hne]

theorem addTag_idMap (m : IdMaps) (bdev name value : Text) (new : Bool) :
    (m.addTag bdev name value new).idMap = m.idMap ++ [(tagId name value, bdev)] := by
  rw [addTag]
  dsimp only
  split
  · rfl
  · split <;> rfl

/-- What holds of the maps before and after each step of `assign_new_ids`. -/
structure TagsOwned (s : Machine) (m : IdMaps) : Prop where
  /-- A label or UUID of a device is in the other map for this device only. -/
  tags : ∀ {d info id}, m.bdevMap d = some info → id ∈ info.ids → IsTag id →
    (m.idMap.filter fun p => p.1 = id) = [(id, d)]
  idMap : ∀ {id d}, (id, d) ∈ m.idMap ↔ HasId s m d id
  aliases : ∀ {d info id}, m.bdevMap d = some info → id ∈ info.ids → ¬ IsTag id →
    (id, d) ∈ s.aliases
  new : ∀ {d info id}, m.bdevMap d = some info → info.newId = some id →
    info.ids = [id] ∧ d ∈ s.mentioned ∧ Made s d info.type id
  safe : ∀ {d info id}, m.bdevMap d = some info → id ∈ info.ids → s.Reported d id →
    '\\' ∉ id ∧ '#' ∉ id
  mentioned : ∀ {d info}, m.bdevMap d = some info → d ∈ s.mentioned

theorem tagsOwned_scan (s : Machine) : TagsOwned s (scanDevices s ⟨s.bdevMap, []⟩) := by
  obtain ⟨hidMap, hbdevMap⟩ := scan_eq s
  have hentry : ∀ {d info}, (scanDevices s ⟨s.bdevMap, []⟩).bdevMap d = some info →
      d ∈ s.mentioned ∧ ∃ old : Bdev, old.ids = [] ∧ old.newId = none ∧
        info = scanResult s d old := by
    intro d info h
    rw [hbdevMap, Machine.bdevMap] at h
    split at h
    · next hd =>
      exact ⟨List.contains_iff_mem.mp hd, _, rfl, rfl, (Option.some.inj h).symm⟩
    · cases h
  refine ⟨?_, ?_, ?_, ?_, ?_, fun h => (hentry h).1⟩
  · intro d info id h hid htag
    obtain ⟨-, old, hids, -, rfl⟩ := hentry h
    rcases (mem_scanResult hids).mp hid with ⟨-, hreported, hone, -⟩ | halias
    · rw [hidMap]
      obtain ⟨p, hp⟩ := List.length_eq_one_iff.mp hone
      have hmem : (id, d) ∈ s.reports.filter fun p => p.1 = id :=
        List.mem_filter.mpr ⟨hreported, decide_eq_true rfl⟩
      rw [hp] at hmem ⊢
      rw [List.mem_singleton.mp hmem]
    · exact absurd htag (not_isTag_alias halias)
  · intro id d
    rw [hidMap, HasId, or_iff_left]
    · rfl
    · rw [Option.bind_eq_some_iff]
      rintro ⟨info, hinfo, hnew⟩
      obtain ⟨-, old, -, hold, rfl⟩ := hentry hinfo
      exact absurd (hold.symm.trans hnew) (by simp)
  · intro d info id h hid htag
    obtain ⟨-, old, hids, -, rfl⟩ := hentry h
    rcases (mem_scanResult hids).mp hid with ⟨-, hreported, -⟩ | halias
    · exact absurd (isTag_of_reported hreported) htag
    · exact halias
  · intro d info id h hnew
    obtain ⟨-, old, -, hold, rfl⟩ := hentry h
    exact absurd (hold.symm.trans hnew) (by simp)
  · intro d info id h hid hreported
    obtain ⟨-, old, hids, -, rfl⟩ := hentry h
    rcases (mem_scanResult hids).mp hid with ⟨-, -, -, hsafe⟩ | halias
    · exact hsafe
    · exact absurd (isTag_of_reported hreported) (not_isTag_alias halias)

/-- An id that is new everywhere can be given to a device without ids. -/
theorem tagsOwned_addTag {s : Machine} {m : IdMaps} (h : TagsOwned s m) {bdev name value : Text}
    {info : Bdev} (hinfo : m.bdevMap bdev = some info) (hids : info.ids = [])
    (hfree : ∀ d, (tagId name value, d) ∉ m.idMap)
    (hmade : Made s bdev info.type (tagId name value)) :
    TagsOwned s (m.addTag bdev name value true) := by
  have hbdev := @addTag_new m bdev name value info hinfo hids
  have hcase : ∀ {d i}, (m.addTag bdev name value true).bdevMap d = some i →
      (d = bdev ∧ i = { info with ids := [tagId name value], newId := some (tagId name value) }) ∨
        d ≠ bdev ∧ m.bdevMap d = some i := by
    intro d i hd
    rw [hbdev] at hd
    split at hd
    · next heq => exact .inl ⟨heq, (Option.some.inj hd).symm⟩
    · next hne => exact .inr ⟨hne, hd⟩
  have hnone : m.idMap.filter (fun p => p.1 = tagId name value) = [] := by
    rw [List.filter_eq_nil_iff]
    intro p hp heq
    exact hfree p.2 (of_decide_eq_true heq ▸ hp)
  have hmentioned := h.mentioned hinfo
  refine ⟨?_, ?_, ?_, ?_, ?_, ?_⟩
  · intro d i id hd hid htag
    rw [addTag_idMap, List.filter_append]
    rcases hcase hd with ⟨rfl, rfl⟩ | ⟨-, hd⟩
    · obtain rfl := List.mem_singleton.mp hid
      rw [hnone]
      simp
    · rw [h.tags hd hid htag]
      have hne : tagId name value ≠ id := by
        rintro rfl
        exact hfree d (List.mem_of_mem_filter (h.tags hd hid htag ▸ List.mem_singleton.mpr rfl))
      simp [hne]
  · intro id d
    rw [addTag_idMap, List.mem_append, h.idMap, List.mem_singleton, HasId, HasId, hbdev, or_assoc]
    refine or_congr_right ?_
    rcases eq_or_ne d bdev with rfl | hne
    · rw [if_pos rfl, hinfo]
      simp only [Option.bind_some, Prod.mk.injEq, and_true]
      have hold : info.newId ≠ some id := fun hnew => by
        have hlist := (h.new hinfo hnew).1
        rw [hids] at hlist
        cases hlist
      rw [or_iff_right hold, Option.some.injEq, eq_comm]
    · simp [hne]
  · intro d i id hd hid htag
    rcases hcase hd with ⟨rfl, rfl⟩ | ⟨-, hd⟩
    · obtain rfl := List.mem_singleton.mp hid
      exact absurd hmade.isTag htag
    · exact h.aliases hd hid htag
  · intro d i id hd hnew
    rcases hcase hd with ⟨rfl, rfl⟩ | ⟨-, hd⟩
    · obtain rfl := Option.some.inj hnew
      exact ⟨rfl, hmentioned, hmade⟩
    · exact h.new hd hnew
  · intro d i id hd hid hreported
    rcases hcase hd with ⟨rfl, rfl⟩ | ⟨-, hd⟩
    · obtain rfl := List.mem_singleton.mp hid
      exact absurd (h.idMap.mpr (.inl hreported)) (hfree d)
    · exact h.safe hd hid hreported
  · intro d i hd
    rcases hcase hd with ⟨rfl, rfl⟩ | ⟨-, hd⟩
    · exact hmentioned
    · exact h.mentioned hd

theorem tagsOwned_step {s : Machine} (hfresh : FreshUuids s) {m m' : IdMaps} (h : TagsOwned s m)
    {bdev : Text} (hstep : assignNewId s m bdev = some m') : TagsOwned s m' := by
  rcases assignNewId_cases hstep with ⟨rfl, -⟩ |
    ⟨info, name, value, hinfo, hids, hmade, rfl, ⟨rfl, rfl⟩ | ⟨rfl, hfree⟩⟩
  · exact h
  · refine tagsOwned_addTag h hinfo hids (fun d hmem => ?_) hmade
    have hmentioned := h.mentioned hinfo
    rcases h.idMap.mp hmem with hreported | hnew
    · exact hfresh.1 bdev hmentioned d hreported
    · -- the UUID was generated for another device
      obtain ⟨info', hinfo', hnew⟩ := Option.bind_eq_some_iff.mp hnew
      obtain ⟨hids', hmentioned', -, -, ⟨label, hlabel⟩ | ⟨huuid, -⟩⟩ := h.new hinfo' hnew
      · exact absurd (List.cons.inj hlabel).1 (by decide)
      · have hvalue : s.uuid bdev = s.uuid d :=
          by
          have hcons : '=' :: s.uuid bdev = '=' :: s.uuid d :=
            List.append_cancel_left (huuid : "UUID".toList ++ _ = "UUID".toList ++ _)
          exact (List.cons.inj hcons).2
        obtain rfl := hfresh.2 bdev hmentioned d hmentioned' hvalue
        obtain rfl := Option.some.inj (hinfo.symm.trans hinfo')
        rw [hids] at hids'
        cases hids'
  · exact tagsOwned_addTag h hinfo hids hfree hmade

theorem tagsOwned_run {s : Machine} (hfresh : FreshUuids s) {order : List Text} {m m' : IdMaps}
    (h : TagsOwned s m) (hrun : order.foldlM (assignNewId s) m = some m') : TagsOwned s m' := by
  induction order generalizing m with
  | nil => exact Option.some.inj hrun ▸ h
  | cons bdev order ih =>
    obtain ⟨m₁, hstep, hrest⟩ := Option.bind_eq_some_iff.mp hrun
    exact ih (tagsOwned_step hfresh h hstep) hrest

/-- A new id for a device that had none. -/
def labelled (id : Text) (info : Bdev) : Bdev := { info with ids := [id], newId := some id }

/-- A step changes its own device only. -/
theorem assignNewId_bdevMap {s : Machine} {m m' : IdMaps} {bdev d : Text} {info : Bdev}
    (hstep : assignNewId s m bdev = some m') (hinfo : m.bdevMap d = some info) :
    (m'.bdevMap d = some info ∧
        (d = bdev → info.ids = [] → info.type.bind filesystemType = none)) ∨
      d = bdev ∧ info.ids = [] ∧
        ∃ id, Made s d info.type id ∧ m'.bdevMap d = some (labelled id info) := by
  rcases assignNewId_cases hstep with ⟨rfl, hnone⟩ |
    ⟨info', name, value, hinfo', hids, hmade, rfl, -⟩
  · exact .inl ⟨hinfo, fun heq => hnone info (heq ▸ hinfo)⟩
  · rw [addTag_new hinfo' hids]
    rcases eq_or_ne d bdev with rfl | hne
    · obtain rfl := Option.some.inj (hinfo.symm.trans hinfo')
      exact .inr ⟨rfl, hids, tagId name value, hmade, if_pos rfl⟩
    · exact .inl ⟨(if_neg hne).trans hinfo, fun heq => absurd heq hne⟩

theorem assignNewIds_unchanged {s : Machine} {order : List Text} {m m' : IdMaps} {d : Text}
    {info : Bdev} (hrun : order.foldlM (assignNewId s) m = some m') (hd : d ∉ order)
    (hinfo : m.bdevMap d = some info) : m'.bdevMap d = some info := by
  induction order generalizing m with
  | nil => exact Option.some.inj hrun ▸ hinfo
  | cons bdev order ih =>
    obtain ⟨m₁, hstep, hrest⟩ := Option.bind_eq_some_iff.mp hrun
    obtain ⟨hne, hd⟩ := not_or.mp (mt List.mem_cons.mpr hd)
    rcases assignNewId_bdevMap hstep hinfo with ⟨hsame, -⟩ | ⟨heq, -⟩
    · exact ih hrest hd hsame
    · exact absurd heq hne

/-- Each device has its step once. -/
theorem assignNewIds_bdevMap {s : Machine} {order : List Text} (hnodup : order.Nodup)
    {m m' : IdMaps} {d : Text} {info : Bdev} (hrun : order.foldlM (assignNewId s) m = some m')
    (hd : d ∈ order) (hinfo : m.bdevMap d = some info) :
    (m'.bdevMap d = some info ∧ (info.ids = [] → info.type.bind filesystemType = none)) ∨
      info.ids = [] ∧ ∃ id, Made s d info.type id ∧ m'.bdevMap d = some (labelled id info) := by
  induction order generalizing m with
  | nil => cases hd
  | cons bdev order ih =>
    obtain ⟨hnot, hnodup⟩ := List.nodup_cons.mp hnodup
    obtain ⟨m₁, hstep, hrest⟩ := Option.bind_eq_some_iff.mp hrun
    rcases assignNewId_bdevMap hstep hinfo with ⟨hsame, hnone⟩ | ⟨rfl, hids, id, hmade, hid⟩
    · rcases List.mem_cons.mp hd with rfl | hd
      · exact .inl ⟨assignNewIds_unchanged hrest hnot hsame, hnone rfl⟩
      · exact ih hnodup hrest hd hsame
    · exact .inr ⟨hids, id, hmade, assignNewIds_unchanged hrest hnot hid⟩

/-! ## The update map -/

theorem foldl_updateMap (first : Text → Option Text) (order : List Text) (map : DeviceMap)
    (d : Text) :
    order.foldl (fun map bdev => match first bdev with
      | some id => Function.update map bdev (some id)
      | none => map) map d = if d ∈ order then (first d).or (map d) else map d := by
  induction order generalizing map with
  | nil => rfl
  | cons bdev order ih =>
    rw [List.foldl_cons, ih]
    rcases eq_or_ne d bdev with rfl | hne
    · cases first d <;> simp
    · cases first bdev <;> simp [hne]

theorem updateMap_eq_some {s : Machine} {m : IdMaps} {d id : Text} :
    updateMap s m d = some id ↔
      d ∈ s.mentioned ∧ ∃ info, m.bdevMap d = some info ∧ info.ids.head? = some id := by
  rw [updateMap, foldl_updateMap fun bdev => (m.bdevMap bdev).bind fun info => info.ids.head?]
  split
  · next hd => simp [(s.mapOrder.mem_iff d).mp hd, Option.bind_eq_some_iff]
  · next hd => simp [mt (s.mapOrder.mem_iff d).mpr hd]

/-- The first id of a device is one of its own. -/
theorem TagsOwned.mem_ids {s : Machine} {m : IdMaps} {d id : Text}
    (h : updateMap s m d = some id) : ∃ info, m.bdevMap d = some info ∧ id ∈ info.ids := by
  obtain ⟨-, info, hinfo, hid⟩ := updateMap_eq_some.mp h
  exact ⟨info, hinfo, List.mem_of_head? hid⟩

theorem TagsOwned.eq_of_hasId {s : Machine} {m : IdMaps} (h : TagsOwned s m) {d d' id : Text}
    {info : Bdev} (hinfo : m.bdevMap d = some info) (hid : id ∈ info.ids) (htag : IsTag id)
    (hhas : HasId s m d' id) : d' = d := by
  have hmem : (id, d') ∈ m.idMap.filter fun p => p.1 = id :=
    List.mem_filter.mpr ⟨h.idMap.mpr hhas, decide_eq_true rfl⟩
  rw [h.tags hinfo hid htag] at hmem
  exact (Prod.mk.inj (List.mem_singleton.mp hmem)).2

theorem TagsOwned.hasId {s : Machine} {m : IdMaps} (h : TagsOwned s m) {d id : Text}
    {info : Bdev} (hinfo : m.bdevMap d = some info) (hid : id ∈ info.ids) (htag : IsTag id) :
    HasId s m d id := by
  have hmem : (id, d) ∈ m.idMap.filter fun p => p.1 = id := by
    rw [h.tags hinfo hid htag]
    exact List.mem_singleton.mpr rfl
  exact h.idMap.mp (List.mem_of_mem_filter hmem)

theorem TagsOwned.injective {s : Machine} {m : IdMaps} (h : TagsOwned s m) {a b id : Text}
    (ha : updateMap s m a = some id) (hb : updateMap s m b = some id) : a = b := by
  obtain ⟨infoA, hinfoA, hidA⟩ := TagsOwned.mem_ids ha
  obtain ⟨infoB, hinfoB, hidB⟩ := TagsOwned.mem_ids hb
  rcases Classical.em (IsTag id) with htag | htag
  · exact h.eq_of_hasId hinfoB hidB htag (h.hasId hinfoA hidA htag)
  · exact alias_unique (h.aliases hinfoA hidA htag) (h.aliases hinfoB hidB htag)

/-! ## Physical volumes -/

/-- The labels and UUIDs of a device come before its aliases. -/
theorem head_scanResult {s : Machine} {bdev : Text} {info : Bdev} (hids : info.ids = []) :
    (∃ id, (scanResult s bdev info).ids.head? = some id ∧ IsTag id) ↔
      ¬ ((scanResult s bdev info).type = none ∨ (scanResult s bdev info).type = some lvm) ∧
        ∃ id, Usable s bdev id := by
  have halias : ∀ id ∈ (s.aliases.filter fun p => p.2 = bdev).map (·.1), ¬ IsTag id := by
    intro id hid
    obtain ⟨p, hp, rfl⟩ := List.mem_map.mp hid
    exact not_isTag_alias (List.mem_of_mem_filter hp)
  have hlist : (scanResult s bdev info).ids =
      (discarded s.reports (scanned (s.linesOf bdev) info)).ids ++
        (s.aliases.filter fun p => p.2 = bdev).map (·.1) := rfl
  have hown := fun id => @mem_discarded s bdev id info hids
  rw [hlist]
  generalize (discarded s.reports (scanned (s.linesOf bdev) info)).ids = own at hown ⊢
  rcases own with _ | ⟨first, rest⟩
  · refine iff_of_false ?_ ?_
    · rintro ⟨id, hid, htag⟩
      exact halias id (List.mem_of_head? hid) htag
    · rintro ⟨htype, id, hid⟩
      exact List.not_mem_nil ((hown id).mpr ⟨htype, hid⟩)
  · obtain ⟨htype, hfirst⟩ := (hown first).mp List.mem_cons_self
    exact iff_of_true ⟨first, rfl, isTag_of_reported hfirst.1⟩ ⟨htype, first, hfirst⟩

/-- The entry of a device before the scan. -/
def initial (s : Machine) (bdev : Text) : Bdev :=
  ⟨(s.fstab bdev).map (·.1), (s.fstab bdev).map (·.2), [], none⟩

/-- The type that a device is taken to have. The fstab comes first. -/
def bdevType (s : Machine) (bdev : Text) : Option Text :=
  ((s.fstab bdev).map (·.2)).or (s.reportedType bdev)

theorem run_bdevMap {s : Machine} {m : IdMaps} (hrun : s.run = some m) {bdev : Text}
    (hbdev : bdev ∈ s.mentioned) :
    (m.bdevMap bdev = some (scanResult s bdev (initial s bdev)) ∧
        ((scanResult s bdev (initial s bdev)).ids = [] →
          (bdevType s bdev).bind filesystemType = none)) ∨
      (scanResult s bdev (initial s bdev)).ids = [] ∧
        ∃ id, Made s bdev (bdevType s bdev) id ∧
          m.bdevMap bdev = some (labelled id (scanResult s bdev (initial s bdev))) := by
  have hscan : (scanDevices s ⟨s.bdevMap, []⟩).bdevMap bdev =
      some (scanResult s bdev (initial s bdev)) := by
    rw [(scan_eq s).2, Machine.bdevMap, if_pos (List.contains_iff_mem.mpr hbdev)]
    rfl
  exact assignNewIds_bdevMap s.assignOrder.nodup hrun ((s.assignOrder.mem_iff bdev).mpr hbdev) hscan

/-- When a device is known by a label or a UUID: one stays, or one is made. -/
theorem updateMap_isTag_iff {s : Machine} {m : IdMaps} (hrun : s.run = some m) {bdev : Text} :
    (∃ id, updateMap s m bdev = some id ∧ IsTag id) ↔ bdev ∈ s.mentioned ∧
      ((¬ (bdevType s bdev = none ∨ bdevType s bdev = some lvm) ∧ ∃ id, Usable s bdev id) ∨
        (scanResult s bdev (initial s bdev)).ids = [] ∧
          ((bdevType s bdev).bind filesystemType).isSome = true) := by
  simp only [updateMap_eq_some]
  rcases Classical.em (bdev ∈ s.mentioned) with hbdev | hbdev
  · simp only [hbdev, true_and]
    have hhead : (∃ id, (scanResult s bdev (initial s bdev)).ids.head? = some id ∧ IsTag id) ↔
        ¬ (bdevType s bdev = none ∨ bdevType s bdev = some lvm) ∧ ∃ id, Usable s bdev id :=
      head_scanResult rfl
    rcases run_bdevMap hrun hbdev with ⟨hsame, hnone⟩ | ⟨hids, new, hmade, hnew⟩
    · -- the device keeps what the scan left
      have hnot : ¬ ((scanResult s bdev (initial s bdev)).ids = [] ∧
          ((bdevType s bdev).bind filesystemType).isSome = true) := fun h => by
        rw [hnone h.1] at h
        exact Bool.false_ne_true h.2
      rw [or_iff_left hnot, hsame]
      simpa using hhead
    · obtain ⟨fsType, hfsType, -⟩ := id hmade
      exact iff_of_true ⟨new, ⟨_, hnew, rfl⟩, hmade.isTag⟩ (.inr ⟨hids, hfsType ▸ rfl⟩)
  · simp [hbdev]

theorem not_isTag_iff {s : Machine} {m : IdMaps} (hrun : s.run = some m) {bdev : Text}
    (hlvm : s.reportedType bdev = some lvm) :
    (∀ id, updateMap s m bdev = some id → ¬ IsTag id) ↔ (bdev ∈ s.mentioned →
      ∀ path type, s.fstab bdev = some (path, type) → type ≠ lvm → (∀ id, ¬ Usable s bdev id) ∧
        ((∃ symlink, (symlink, bdev) ∈ s.aliases) ∨ filesystemType type = none)) := by
  have hnot : (∀ id, updateMap s m bdev = some id → ¬ IsTag id) ↔
      ¬ ∃ id, updateMap s m bdev = some id ∧ IsTag id := by
    simp only [not_exists, not_and]
  rw [hnot, updateMap_isTag_iff hrun, not_and]
  refine imp_congr_right fun hbdev => ?_
  have hlvmType : filesystemType lvm = none := by decide
  cases hfstab : s.fstab bdev with
  | none =>
    have htype : bdevType s bdev = some lvm := by rw [bdevType, hfstab, hlvm]; rfl
    simp [htype, hlvmType]
  | some entry =>
    obtain ⟨path, type⟩ := entry
    have htype : bdevType s bdev = some type := by rw [bdevType, hfstab]; rfl
    simp only [htype, Option.some.injEq, reduceCtorEq, false_or, Option.bind_some, Prod.mk.injEq,
      and_imp, forall_eq', forall_apply_eq_imp_iff]
    rcases eq_or_ne type lvm with rfl | hne
    · simp [hlvmType]
    · have hids : (scanResult s bdev (initial s bdev)).ids = [] ↔
          (∀ id, ¬ Usable s bdev id) ∧ ¬ ∃ symlink, (symlink, bdev) ∈ s.aliases := by
        have hlisted : ¬ (bdevType s bdev = none ∨ bdevType s bdev = some lvm) := by
          simp [htype, hne]
        have hmem : ∀ id, id ∈ (scanResult s bdev (initial s bdev)).ids ↔
            Usable s bdev id ∨ (id, bdev) ∈ s.aliases := fun id =>
          (mem_scanResult rfl).trans (or_congr_left (and_iff_right hlisted))
        rw [List.eq_nil_iff_forall_not_mem, not_exists, ← forall_and]
        exact forall_congr' fun id => (not_congr (hmem id)).trans not_or
      rw [hids, ← not_exists, ← Option.not_isSome_iff_eq_none]
      simp only [hne, ne_eq, not_false_eq_true, true_and, forall_const]
      tauto

end DeviceIdLemmas

open DeviceIdLemmas

/-! ## Results -/

/-- In every order, no id stands for two devices and none holds a character that a file could
not hold. -/
theorem run_owned {s : Machine} (hfresh : FreshUuids s) {m : IdMaps} (hrun : s.run = some m) :
    TagsOwned s m :=
  tagsOwned_run hfresh (tagsOwned_scan s) hrun

/-- What is assigned can be set. -/
theorem run_assigned {s : Machine} (hfresh : FreshUuids s) {host : Host}
    (hparse : ∀ bdev, ∃ bin : Text, host.uuidParse (s.uuid bdev) = some bin ∧
      bin.length = swapUuidLen)
    {m : IdMaps} (hrun : s.run = some m) {bdev : Text} {info : Bdev}
    (hinfo : m.bdevMap bdev = some info) : (BdevInfo.mk info.type info.newId).Assigned host := by
  intro id hid
  obtain ⟨-, -, fsType, hfsType, hkind⟩ := (run_owned hfresh hrun).new hinfo hid
  obtain ⟨type, htype, hfsType⟩ := Option.bind_eq_some_iff.mp hfsType
  refine ⟨type, fsType, htype, hfsType, hkind.imp_right fun huuid => ?_⟩
  obtain ⟨bin, hbin, hlength⟩ := hparse bdev
  exact ⟨s.uuid bdev, bin, huuid.1, huuid.2, hbin, hlength⟩

/-- The map of the transition is this one. -/
theorem updateMap_eq_updateMapOf {s : Machine} {m : IdMaps} {w : World}
    {found : List FoundConfig} (hmentioned : ∀ bdev, bdev ∈ s.mentioned ↔ bdev ∈ bdevKeys found)
    (hids : ∀ bdev, w.ids bdev = ((m.bdevMap bdev).map (·.ids)).getD []) :
    updateMap s m = updateMapOf w found := by
  funext bdev
  refine Option.ext fun id => ?_
  rw [updateMap_eq_some, updateMapOf, hmentioned, hids]
  split
  · next hbdev =>
    cases m.bdevMap bdev <;> simp [List.contains_iff_mem.mp hbdev]
  · next hbdev => simp [mt List.contains_iff_mem.mpr hbdev]

theorem ids_unambiguous_iff (s : Machine) (hfresh : FreshUuids s) :
    (∃ m, s.run = some m ∧ Unambiguous s m) ↔ PvSafe s := by
  obtain ⟨m, hrun⟩ := Option.isSome_iff_exists.mp
    (assignNewIds_isSome s s.assignOrder.order (scanDevices s ⟨s.bdevMap, []⟩))
  have howned := run_owned hfresh hrun
  have hlvm := fun bdev => @not_isTag_iff s m hrun bdev
  constructor
  · rintro ⟨m', hrun', hunambiguous⟩ bdev hbdev hreported
    obtain rfl := Option.some.inj (hrun.symm.trans hrun')
    exact (hlvm bdev hreported).mp (fun id hid => hunambiguous.lvm hreported hid) hbdev
  · intro hsafe
    refine ⟨m, hrun, howned.injective, ?_, ?_, ?_⟩
    · intro bdev id hid htag
      obtain ⟨info, hinfo, hmem⟩ := TagsOwned.mem_ids hid
      exact ⟨howned.hasId hinfo hmem htag, fun bdev' => howned.eq_of_hasId hinfo hmem htag⟩
    · intro bdev id hid hreported
      obtain ⟨info, hinfo, hmem⟩ := TagsOwned.mem_ids hid
      exact howned.safe hinfo hmem hreported
    · intro bdev id hreported hid
      exact (hlvm bdev hreported).mpr (fun hbdev => hsafe bdev hbdev hreported) id hid

/-! A partition that was given to LVM, as the fstab may still list it. -/

/-- A machine with a root partition and a physical volume. -/
def pvMachine (fstabType : Text) : Machine where
  mentioned := ["/dev/hda1".toList, "/dev/hda2".toList]
  fstab bdev :=
    if bdev = "/dev/hda1" then some ("/", "ext3")
    else if bdev = "/dev/hda2" then some ("/srv", fstabType) else none
  blkid := [("/dev/hda1", ["ID_FS_LABEL_ENC=root\n", "ID_FS_TYPE=ext3\n"]),
    ("/dev/hda2", ["ID_FS_UUID_ENC=u0\n", "ID_FS_TYPE=LVM2_member\n"])]
  cdRules := none
  readlink _ := none
  hostname := "host"
  uuid bdev := 'u' :: bdev
  discardOrder := ⟨_, by decide, fun _ => Iff.rfl⟩
  assignOrder := ⟨_, by decide, fun _ => Iff.rfl⟩
  mapOrder := ⟨_, by decide, fun _ => Iff.rfl⟩

theorem pvMachine_reports (fstabType : Text) :
    (pvMachine fstabType).reports =
      [("LABEL=root".toList, "/dev/hda1".toList), ("UUID=u0".toList, "/dev/hda2".toList)] := by
  rfl

theorem pvMachine_fresh (fstabType : Text) : FreshUuids (pvMachine fstabType) := by
  refine ⟨fun bdev hbdev bdev' hreported => ?_, fun bdev _ bdev' _ h => (List.cons.inj h).2⟩
  have hne : ∀ bdev ∈ ["/dev/hda1".toList, "/dev/hda2".toList],
      ∀ p ∈ [("LABEL=root".toList, "/dev/hda1".toList), ("UUID=u0".toList, "/dev/hda2".toList)],
        tagId "UUID" ('u' :: bdev) ≠ p.1 := by decide
  rw [Machine.Reported, pvMachine_reports] at hreported
  exact hne bdev hbdev _ hreported rfl

theorem ids_unambiguous_lvm :
    PvSafe (pvMachine lvm) ∧
      ∃ m, (pvMachine lvm).run = some m ∧ Unambiguous (pvMachine lvm) m := by
  have hsafe : PvSafe (pvMachine lvm) := by
    intro bdev hbdev hreported path type hfstab hne
    rcases List.mem_cons.mp hbdev with rfl | hbdev
    · exact absurd hreported (by decide)
    · obtain rfl := List.mem_singleton.mp hbdev
      exact absurd (Prod.mk.inj (Option.some.inj hfstab)).2.symm hne
  exact ⟨hsafe, (ids_unambiguous_iff (pvMachine lvm) (pvMachine_fresh lvm)).mpr hsafe⟩

/-- The fstab calls the volume `auto`, and its UUID is used. -/
theorem pv_mapped_to_uuid :
    FreshUuids (pvMachine "auto") ∧
      ¬ ∃ m, (pvMachine "auto").run = some m ∧ Unambiguous (pvMachine "auto") m := by
  refine ⟨pvMachine_fresh "auto", ?_⟩
  rintro ⟨m, hrun, hunambiguous⟩
  have hmap : ((pvMachine "auto").run.map fun m => updateMap (pvMachine "auto") m "/dev/hda2") =
      some (some "UUID=u0".toList) := by decide +kernel
  rw [hrun] at hmap
  exact hunambiguous.lvm (by decide) (Option.some.inj hmap) ⟨"u0", .inr rfl⟩

end DebianKernel.DiskId
