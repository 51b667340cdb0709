import DebianKernel.DiskId.NewLabels

/-!
# The ids of CD drives

A drive has persistent symlinks, and it may hold any disc while `scan_devices` runs. The
labels and UUIDs of the disc come before the symlinks in the list of ids, and the first id
is taken.

Results:
1. `updateMap_drive`: a drive without a tag that is kept is known by its first symlink.
2. `drive_fixed_iff`: when a drive is known by its symlink, whatever the disc is.
3. `drives_fixed_iff`: the pairs of machines on which no disc matters.
-/

namespace DebianKernel.DiskId

open Text DeviceIdLemmas

namespace Machine

/-- The persistent symlinks that resolve to a device, in the order of the rules. -/
def symlinksOf (s : Machine) (bdev : Text) : List Text :=
  (s.aliases.filter fun p => p.2 = bdev).map (·.1)

/-- What `blkid` reports for everything but the drives. -/
def discFree (s : Machine) : List (Text × List Text) :=
  s.blkid.filter fun d => s.symlinksOf d.1 = []

/-- A label or UUID of the disc stays in the list of ids. -/
def KeepsTag (s : Machine) (bdev : Text) : Prop :=
  ¬ (bdevType s bdev = none ∨ bdevType s bdev = some lvm) ∧ ∃ id, Usable s bdev id

end Machine

/-- Only the discs differ. The hash orders and the generated UUIDs are those of each run. -/
structure OtherDiscs (s s' : Machine) : Prop where
  mentioned : s'.mentioned = s.mentioned
  fstab : s'.fstab = s.fstab
  cdRules : s'.cdRules = s.cdRules
  readlink : s'.readlink = s.readlink
  hostname : s'.hostname = s.hostname
  blkid : s'.discFree = s.discFree

/-- In both runs the entry of the drive is the same symlink, and it gets no new id. -/
def DriveFixed (s s' : Machine) (m m' : IdMaps) (bdev : Text) : Prop :=
  (∃ symlink ∈ s.symlinksOf bdev,
    updateMap s m bdev = some symlink ∧ updateMap s' m' bdev = some symlink) ∧
  (m.bdevMap bdev).bind (·.newId) = none ∧ (m'.bdevMap bdev).bind (·.newId) = none

namespace DriveLemmas

theorem OtherDiscs.symlinksOf {s s' : Machine} (h : OtherDiscs s s') (bdev : Text) :
    s'.symlinksOf bdev = s.symlinksOf bdev := by
  rw [Machine.symlinksOf, Machine.symlinksOf, Machine.aliases, Machine.aliases, h.cdRules,
    h.readlink]

theorem not_isTag_symlink {s : Machine} {bdev symlink : Text}
    (h : symlink ∈ s.symlinksOf bdev) : ¬ IsTag symlink := by
  obtain ⟨p, hp, rfl⟩ := List.mem_map.mp h
  exact not_isTag_alias (List.mem_of_mem_filter hp)

/-- A drive has an id, so that it is left alone after the scan. -/
theorem run_drive {s : Machine} {m : IdMaps} (hrun : s.run = some m) {bdev : Text}
    (hbdev : bdev ∈ s.mentioned) (hdrive : s.symlinksOf bdev ≠ []) :
    m.bdevMap bdev = some (scanResult s bdev (initial s bdev)) := by
  rcases run_bdevMap hrun hbdev with ⟨hsame, -⟩ | ⟨hids, -⟩
  · exact hsame
  · exact absurd (List.append_eq_nil_iff.mp hids).2 hdrive

theorem updateMap_run {s : Machine} {m : IdMaps} (hrun : s.run = some m) {bdev : Text}
    (hbdev : bdev ∈ s.mentioned) (hdrive : s.symlinksOf bdev ≠ []) :
    updateMap s m bdev = (scanResult s bdev (initial s bdev)).ids.head? := by
  refine Option.ext fun id => ?_
  rw [updateMap_eq_some, run_drive hrun hbdev hdrive]
  simp [hbdev]

/-- The first id is a tag of the disc exactly when one is kept. -/
theorem updateMap_isTag {s : Machine} {m : IdMaps} (hrun : s.run = some m) {bdev : Text}
    (hbdev : bdev ∈ s.mentioned) (hdrive : s.symlinksOf bdev ≠ []) :
    (∃ id, updateMap s m bdev = some id ∧ IsTag id) ↔ s.KeepsTag bdev := by
  rw [updateMap_run hrun hbdev hdrive]
  exact head_scanResult rfl

theorem updateMap_drive {s : Machine} {m : IdMaps} (hrun : s.run = some m) {bdev : Text}
    (hbdev : bdev ∈ s.mentioned) (hdrive : s.symlinksOf bdev ≠ []) (htag : ¬ s.KeepsTag bdev) :
    updateMap s m bdev = (s.symlinksOf bdev).head? := by
  have hown : (discarded s.reports (scanned (s.linesOf bdev) (initial s bdev))).ids = [] := by
    refine List.eq_nil_iff_forall_not_mem.mpr fun id hid => htag ?_
    obtain ⟨htype, husable⟩ := (mem_discarded rfl).mp hid
    exact ⟨htype, id, husable⟩
  have hids : (scanResult s bdev (initial s bdev)).ids =
      (discarded s.reports (scanned (s.linesOf bdev) (initial s bdev))).ids ++
        s.symlinksOf bdev := rfl
  rw [updateMap_run hrun hbdev hdrive, hids, hown, List.nil_append]

theorem drive_fixed_iff {s s' : Machine} (h : OtherDiscs s s') {m m' : IdMaps}
    (hrun : s.run = some m) (hrun' : s'.run = some m') {bdev : Text} (hbdev : bdev ∈ s.mentioned)
    (hdrive : s.symlinksOf bdev ≠ []) :
    DriveFixed s s' m m' bdev ↔ ¬ s.KeepsTag bdev ∧ ¬ s'.KeepsTag bdev := by
  have hbdev' : bdev ∈ s'.mentioned := h.mentioned ▸ hbdev
  have hlinks := OtherDiscs.symlinksOf h bdev
  have hdrive' : s'.symlinksOf bdev ≠ [] := hlinks ▸ hdrive
  constructor
  · rintro ⟨⟨symlink, hmem, hentry, hentry'⟩, -⟩
    have hpath := not_isTag_symlink hmem
    constructor
    · intro htag
      obtain ⟨id, hid, hisTag⟩ := (updateMap_isTag hrun hbdev hdrive).mpr htag
      exact hpath (Option.some.inj (hentry.symm.trans hid) ▸ hisTag)
    · intro htag
      obtain ⟨id, hid, hisTag⟩ := (updateMap_isTag hrun' hbdev' hdrive').mpr htag
      exact hpath (Option.some.inj (hentry'.symm.trans hid) ▸ hisTag)
  · rintro ⟨htag, htag'⟩
    obtain ⟨symlink, rest, hlist⟩ := List.exists_cons_of_ne_nil hdrive
    have hfirst : (s.symlinksOf bdev).head? = some symlink := by rw [hlist, List.head?_cons]
    refine ⟨⟨symlink, List.mem_of_head? hfirst, ?_, ?_⟩, ?_, ?_⟩
    · rw [updateMap_drive hrun hbdev hdrive htag, hfirst]
    · rw [updateMap_drive hrun' hbdev' hdrive' htag', hlinks, hfirst]
    · rw [run_drive hrun hbdev hdrive]
      rfl
    · rw [run_drive hrun' hbdev' hdrive']
      rfl

theorem run_isSome (s : Machine) : ∃ m, s.run = some m :=
  Option.isSome_iff_exists.mp
    (assignNewIds_isSome s s.assignOrder.order (scanDevices s ⟨s.bdevMap, []⟩))

end DriveLemmas

open DriveLemmas

/-- The two runs agree on every drive when neither disc has a tag that is kept. -/
theorem drives_fixed_iff {s s' : Machine} (h : OtherDiscs s s') :
    (∃ m m', s.run = some m ∧ s'.run = some m' ∧
      ∀ bdev ∈ s.mentioned, s.symlinksOf bdev ≠ [] → DriveFixed s s' m m' bdev) ↔
    ∀ bdev ∈ s.mentioned, s.symlinksOf bdev ≠ [] → ¬ s.KeepsTag bdev ∧ ¬ s'.KeepsTag bdev := by
  constructor
  · rintro ⟨m, m', hrun, hrun', hfixed⟩ bdev hbdev hdrive
    exact (drive_fixed_iff h hrun hrun' hbdev hdrive).mp (hfixed bdev hbdev hdrive)
  · intro htags
    obtain ⟨m, hrun⟩ := run_isSome s
    obtain ⟨m', hrun'⟩ := run_isSome s'
    refine ⟨m, m', hrun, hrun', fun bdev hbdev hdrive => ?_⟩
    exact (drive_fixed_iff h hrun hrun' hbdev hdrive).mpr (htags bdev hbdev hdrive)

/-! A drive that the fstab lists, with discs that have no name and with a film in it. -/

/-- A machine whose only drive has a persistent symlink. -/
def discMachine (disc : List Text) : Machine where
  mentioned := ["/dev/hdc".toList]
  fstab bdev := if bdev = "/dev/hdc" then some ("/media/cdrom0", "udf,iso9660") else none
  blkid := [("/dev/hdc", disc)]
  cdRules := some "ENV\x7bID_PATH\x7d==\"pci-0\", SYMLINK+=\"cdrom\"\n"
  readlink path := if path = "/dev/cdrom" then some "hdc" else none
  hostname := "host"
  uuid bdev := 'u' :: bdev
  discardOrder := ⟨_, by decide, fun _ => Iff.rfl⟩
  assignOrder := ⟨_, by decide, fun _ => Iff.rfl⟩
  mapOrder := ⟨_, by decide, fun _ => Iff.rfl⟩

def film : List Text := ["ID_FS_UUID_ENC=1b2c\n", "ID_FS_TYPE=udf\n"]

theorem discMachine_symlinks (disc : List Text) :
    (discMachine disc).symlinksOf "/dev/hdc" = ["/dev/cdrom".toList] := by
  have hempty : (discMachine []).symlinksOf "/dev/hdc" = ["/dev/cdrom".toList] := by
    decide +kernel
  exact hempty

theorem discMachine_otherDiscs (disc disc' : List Text) :
    OtherDiscs (discMachine disc) (discMachine disc') :=
  ⟨rfl, rfl, rfl, rfl, rfl, by
    have hdisc : ∀ disc, (discMachine disc).discFree = [] := fun disc => by
      refine List.filter_eq_nil_iff.mpr fun d hd => ?_
      obtain rfl := List.mem_singleton.mp hd
      rw [discMachine_symlinks]
      decide
    rw [hdisc, hdisc]⟩

/-- A disc that has neither a label nor a UUID. -/
def unnamed (type : Text) : List Text := ["ID_FS_TYPE=" ++ type ++ ['\n']]

theorem unnamed_discs_fixed :
    ∃ m m', (discMachine (unnamed "udf")).run = some m ∧
      (discMachine (unnamed "iso9660")).run = some m' ∧
      ∀ bdev ∈ (discMachine (unnamed "udf")).mentioned,
        (discMachine (unnamed "udf")).symlinksOf bdev ≠ [] →
          DriveFixed (discMachine (unnamed "udf")) (discMachine (unnamed "iso9660")) m m' bdev := by
  have hnone : ∀ disc, (discMachine disc).reports = [] →
      ∀ bdev, ¬ (discMachine disc).KeepsTag bdev := by
    rintro disc hreports bdev ⟨-, id, hreported, -⟩
    rw [Machine.Reported, hreports] at hreported
    cases hreported
  exact (drives_fixed_iff (discMachine_otherDiscs (unnamed "udf") (unnamed "iso9660"))).mpr
    fun bdev _ _ => ⟨hnone (unnamed "udf") rfl bdev, hnone (unnamed "iso9660") rfl bdev⟩

/-- The film's UUID replaces the drive. -/
theorem film_chosen :
    ¬ ∀ s s' : Machine, OtherDiscs s s' → ∃ m m', s.run = some m ∧ s'.run = some m' ∧
      ∀ bdev ∈ s.mentioned, s.symlinksOf bdev ≠ [] → DriveFixed s s' m m' bdev := by
  intro hclaim
  obtain ⟨m, m', hrun, hrun', hfixed⟩ :=
    hclaim (discMachine film) (discMachine []) (discMachine_otherDiscs _ _)
  have hdrive : (discMachine film).symlinksOf "/dev/hdc" ≠ [] := by
    rw [discMachine_symlinks]
    exact List.cons_ne_nil _ _
  have hmentioned : "/dev/hdc".toList ∈ (discMachine film).mentioned := List.mem_singleton.mpr rfl
  have htag := (drive_fixed_iff (discMachine_otherDiscs _ _) hrun hrun' hmentioned hdrive).mp
    (hfixed _ hmentioned hdrive)
  have hreports : (discMachine film).reports = [("UUID=1b2c".toList, "/dev/hdc".toList)] := rfl
  refine htag.1 ⟨by decide, "UUID=1b2c", ?_⟩
  rw [Usable, Machine.Reported, hreports]
  exact ⟨List.mem_singleton.mpr rfl, rfl, by decide, by decide⟩

end DebianKernel.DiskId
