import DebianKernel.DiskId.Kernel
import DebianKernel.DiskId.ShellQuote

/-!
# Rewriting shell-style settings

`grub2_update` and `initramfs_resume_update` comment out each assignment whose value
names a device in the map, and add the assignment of the new value behind it. They are
one loop over the statements of the file (`shellUpdate`) with different values.

Results:
1. `statements_shellUpdate`: the statements of the output, for any such loop.
2. `restore_marked`: without the added assignments and the comment signs, the output is
   the input.
3. `shell_update_exact`: both, and the listed devices, for the two formats.
-/

namespace DebianKernel.DiskId

open Text ShellVarsLemmas ShellScanLemmas ShellQuoteLemmas

/-! ## The formats -/

def commentLine (line : Text) : Text := "# " ++ line

/-- `s/^/# /gm`, on a text that is not empty. -/
def commentOut (text : Text) : Text := (lines text).flatMap commentLine

/-- The new value of the assignment `name=value`, when it is to be rewritten. -/
abbrev NewValue := Text → Text → Option Text

/-- The new name and value of a statement. -/
def NewValue.rewrites (newValue : NewValue) (stmt : Statement) : Option (Text × Text) :=
  match stmt.name, stmt.value with
  | some name, some value => (newValue name value).map fun new => (name, new)
  | _, _ => none

/-- The body of the loop: the text that is printed for a statement. -/
def rewriteStatement (newValue : NewValue) (stmt : Statement) : Text :=
  match newValue.rewrites stmt with
  | some (name, new) => commentOut stmt.text ++ quotedStatement name new
  | none => stmt.text

/-- The loop over the statements of the old file. -/
def shellUpdate (newValue : NewValue) (old : Text) : Text :=
  (statements old).flatMap (rewriteStatement newValue)

/-- `$name =~ /^GRUB_CMDLINE_LINUX(?:_DEFAULT)?$/`. -/
def isGrub2Name (name : Text) : Bool :=
  name = "GRUB_CMDLINE_LINUX" ∨ name = "GRUB_CMDLINE_LINUX_DEFAULT"

/-- The body of the loop of `grub2_list`. -/
def grub2Devices (stmt : Statement) : List Text :=
  match stmt.name, stmt.value with
  | some name, some value => if isGrub2Name name then kernelList value else []
  | _, _ => []

/-- `grub2_list`. -/
def grub2List (file : Text) : List Text := (statements file).flatMap grub2Devices

def grub2NewValue (map : DeviceMap) : NewValue := fun name value =>
  if isGrub2Name name then kernelUpdate value map else none

/-- `grub2_update`. -/
def grub2Update (old : Text) (map : DeviceMap) : Text := shellUpdate (grub2NewValue map) old

/-- The body of the loop of `initramfs_resume_list`: `$results[0] = $value`. -/
def resumeDevice (results : List Text) (stmt : Statement) : List Text :=
  match stmt.name, stmt.value with
  | some name, some value => if name = "RESUME" then [value] else results
  | _, _ => results

/-- `initramfs_resume_list`. -/
def initramfsResumeList (file : Text) : List Text := (statements file).foldl resumeDevice []

def resumeNewValue (map : DeviceMap) : NewValue := fun name value =>
  if name = "RESUME" then map value else none

/-- `initramfs_resume_update`. -/
def initramfsResumeUpdate (old : Text) (map : DeviceMap) : Text :=
  shellUpdate (resumeNewValue map) old

/-! ## The output, statement by statement -/

/-- Where a statement of the output comes from. -/
inductive Mark
  | kept | comment | added
  deriving DecidableEq, Repr

/-- The statements of the output for a statement of the input: the statement itself, or
a comment for each of its lines and the assignment of the new value. -/
def marked (newValue : NewValue) (stmt : Statement) : List (Mark × Statement) :=
  match newValue.rewrites stmt with
  | some (name, new) =>
    (lines stmt.text).map (fun line => (.comment, ⟨commentLine line, none, none⟩)) ++
      [(.added, ⟨quotedStatement name new, some name, some new⟩)]
  | none => [(.kept, stmt)]

/-- The text of the output without the added assignments and the comment signs. -/
def restore (out : List (Mark × Statement)) : Text :=
  out.flatMap fun
    | (.kept, stmt) => stmt.text
    | (.comment, stmt) => stmt.text.drop 2
    | (.added, _) => []

/-- The ids of the map can stand in a quoted value. -/
def DeviceMap.Quotable (map : DeviceMap) : Prop :=
  ∀ bdev id, map bdev = some id → id ≠ [] ∧
    ∀ c ∈ id, isSpace c = false ∧ c ≠ '\'' ∧ c ≠ '"' ∧ c ≠ '\\'

/-- No value that gets rewritten has a single quote or a backslash. -/
def PlainRewrites (newValue : NewValue) (file : Text) : Prop :=
  ∀ stmt ∈ statements file, newValue.rewrites stmt ≠ none →
    ∀ value ∈ stmt.value, '\'' ∉ value ∧ '\\' ∉ value

instance (newValue : NewValue) (file : Text) : Decidable (PlainRewrites newValue file) :=
  inferInstanceAs (Decidable (∀ stmt ∈ statements file, _ → ∀ value ∈ stmt.value, _))

namespace ShellUpdateLemmas

/-! ### Comments -/

theorem isLine_comment {line : Text} (h : IsLine line) : IsLine (commentLine line) := by
  obtain ⟨body, hbody, rfl⟩ := h
  exact ⟨"# " ++ body, by simp [hbody], by simp [commentLine]⟩

/-- A commented line is a statement without a name. -/
theorem statements_comment {line : Text} (h : IsLine line) (t : Text) :
    statements (commentLine line ++ t) = ⟨commentLine line, none, none⟩ :: statements t := by
  have hstart : startValue .initial (commentLine line) = (.initial, commentLine line) := rfl
  have hscan : nextLine true .initial (commentLine line) =
      ({ ScanState.initial with inValue := false }, true) := by
    obtain ⟨body, hbody, rfl⟩ := h
    have hdrop : (' ' :: (body ++ ['\n'])).dropWhile (· ≠ '\n') = ['\n'] := by
      rw [List.dropWhile_cons_of_pos (by decide), List.dropWhile_append_of_pos]
      · rfl
      · intro c hc
        exact decide_eq_true fun heq => hbody (heq ▸ hc)
    show scanLine .initial ('#' :: ' ' :: (body ++ ['\n'])) = _
    rw [scanLine_special (nextSpecial_of_special (special_of_isSpecialChar (by decide) _))]
    show scanLine .initial ((' ' :: (body ++ ['\n'])).dropWhile (· ≠ '\n')) = _
    rw [hdrop]
    rfl
  refine statements_cons ?_
  rw [lines_cons_isLine (isLine_comment h)]
  have hnext : nextLines true .initial [] (commentLine line :: lines t) =
      ({ ScanState.initial with inValue := false }, commentLine line, lines t) := by
    rw [nextLines, hscan]
    rfl
  rw [shellvarsNext_of_nextLines hnext (by simp [commentLine])]
  rfl

theorem statements_comments {ls : List Text} (h : ∀ l ∈ ls, IsLine l) (t : Text) :
    statements (ls.flatMap commentLine ++ t) =
      ls.map (fun line => ⟨commentLine line, none, none⟩) ++ statements t := by
  induction ls with
  | nil => rfl
  | cons l ls ih =>
    rw [List.flatMap_cons, List.append_assoc, statements_comment (h l List.mem_cons_self),
      ih fun l' hl' => h l' (List.mem_cons_of_mem _ hl')]
    rfl

/-! ### The loop -/

theorem shellUpdate_cons {newValue : NewValue} {t t' : Text} {stmt : Statement}
    (h : statements t = stmt :: statements t') :
    shellUpdate newValue t = rewriteStatement newValue stmt ++ shellUpdate newValue t' := by
  unfold shellUpdate
  rw [h, List.flatMap_cons]

/-- The statements of the output, when the new values can be read back. -/
theorem statements_shellUpdate {newValue : NewValue} {file : Text} (hterm : Terminated file)
    (h : ∀ stmt ∈ statements file, ∀ name new, newValue.rewrites stmt = some (name, new) →
      IsName name ∧ paired new = true) :
    statements (shellUpdate newValue file) =
      ((statements file).flatMap (marked newValue)).map Prod.snd := by
  by_cases hne : file = []
  · rw [hne]
    rfl
  · obtain ⟨stmt, file', hnext, hfile, htext⟩ := shellvarsNext_cut hne
    obtain ⟨hstmt, hterm'⟩ := shellvarsNext_terminated hnext hterm
    have hcons := statements_cons hnext
    rw [hcons] at h
    have hlen : file'.length < file.length := by
      have hpos := List.length_pos_iff.mpr htext
      rw [hfile, List.length_append]
      omega
    have ih := statements_shellUpdate hterm' fun s hs => h s (List.mem_cons_of_mem _ hs)
    rw [shellUpdate_cons hcons, hcons, List.flatMap_cons, List.map_append, ← ih]
    cases hr : newValue.rewrites stmt with
    | none =>
      have hkept : rewriteStatement newValue stmt = stmt.text := by
        rw [rewriteStatement, hr]
      have hmark : (marked newValue stmt).map Prod.snd = [stmt] := by
        rw [marked, hr]
        rfl
      rw [hkept, hmark]
      exact statements_replace_rest hnext hfile hterm fun hnil => by rw [hnil]; rfl
    | some m =>
      obtain ⟨name, new⟩ := m
      obtain ⟨hname, hpaired⟩ := h stmt List.mem_cons_self name new hr
      have hrewritten : rewriteStatement newValue stmt =
          commentOut stmt.text ++ quotedStatement name new := by
        rw [rewriteStatement, hr]
      have hmark : (marked newValue stmt).map Prod.snd =
          (lines stmt.text).map (fun line => ⟨commentLine line, none, none⟩) ++
            [⟨quotedStatement name new, some name, some new⟩] := by
        rw [marked, hr]
        simp
      rw [hrewritten, hmark, List.append_assoc, commentOut,
        statements_comments (fun l hl => isLine_of_mem_lines hstmt hl),
        statements_cons (shellvarsNext_quoted hname hpaired _), List.append_assoc]
      rfl
termination_by file.length

/-- The input is the output without what was added. -/
theorem restore_marked (newValue : NewValue) (file : Text) :
    restore ((statements file).flatMap (marked newValue)) = file := by
  have hone (stmt : Statement) : restore (marked newValue stmt) = stmt.text := by
    unfold marked
    split
    · unfold restore
      rw [List.flatMap_append, List.flatMap_map]
      show (lines stmt.text).flatMap (fun line => line) ++ [] = stmt.text
      rw [List.append_nil, List.flatMap_id', flatten_lines]
    · exact List.append_nil _
  have happ (ms ms' : List (Mark × Statement)) : restore (ms ++ ms') = restore ms ++ restore ms' :=
    List.flatMap_append
  have hall (stmts : List Statement) :
      restore (stmts.flatMap (marked newValue)) = stmts.flatMap Statement.text := by
    induction stmts with
    | nil => rfl
    | cons stmt stmts ih => rw [List.flatMap_cons, happ, hone, ih, List.flatMap_cons]
  rw [hall, flatMap_statements]

/-! ### The values -/

theorem rewrites_eq_some {newValue : NewValue} {stmt : Statement} {name new : Text}
    (h : newValue.rewrites stmt = some (name, new)) :
    ∃ value, stmt.name = some name ∧ stmt.value = some value ∧ newValue name value = some new := by
  unfold NewValue.rewrites at h
  split at h
  · next name' value hname hvalue =>
    obtain ⟨new', hnew, heq⟩ := Option.map_eq_some_iff.mp h
    cases heq
    exact ⟨value, hname, hvalue, hnew⟩
  · cases h

theorem paired_of_plain {value : Text} (hquote : '\'' ∉ value) (hb : '\\' ∉ value) :
    paired value = true := by
  induction value with
  | nil => rfl
  | cons c t ih =>
    rw [List.mem_cons, not_or] at hquote hb
    rw [paired_cons (Ne.symm hb.1), ih hquote.2 hb.2, Bool.and_true]
    exact decide_eq_true (Ne.symm hquote.1)

theorem isName_of_isGrub2Name {name : Text} (h : isGrub2Name name = true) : IsName name := by
  simp only [isGrub2Name, decide_eq_true_eq] at h
  cases h with
  | inl h => exact ⟨'G', "RUB_CMDLINE_LINUX", h, by decide, forall_mem_of_all rfl⟩
  | inr h => exact ⟨'G', "RUB_CMDLINE_LINUX_DEFAULT", h, by decide, forall_mem_of_all rfl⟩

theorem grub2NewValue_eq_some {map : DeviceMap} {name value new : Text}
    (h : grub2NewValue map name value = some new) :
    isGrub2Name name = true ∧ kernelUpdate value map = some new := by
  unfold grub2NewValue at h
  split at h
  · next hname => exact ⟨hname, h⟩
  · cases h

theorem resumeNewValue_eq_some {map : DeviceMap} {name value new : Text}
    (h : resumeNewValue map name value = some new) : name = "RESUME" ∧ map value = some new := by
  unfold resumeNewValue at h
  split at h
  · next hname => exact ⟨hname, h⟩
  · cases h

/-- A new command line can be quoted. -/
theorem grub2_readable {map : DeviceMap} (hmap : map.Quotable) {file : Text}
    (hplain : PlainRewrites (grub2NewValue map) file) :
    ∀ stmt ∈ statements file, ∀ name new, (grub2NewValue map).rewrites stmt = some (name, new) →
      IsName name ∧ paired new = true := by
  intro stmt hstmt name new hr
  obtain ⟨value, -, hvalue, hnew⟩ := rewrites_eq_some hr
  obtain ⟨hname, hupdate⟩ := grub2NewValue_eq_some hnew
  obtain ⟨hquote, hb⟩ := hplain stmt hstmt (by rw [hr]; exact Option.some_ne_none _) value hvalue
  refine ⟨isName_of_isGrub2Name hname, paired_of_plain ?_ ?_⟩
  · intro hc
    rcases kernelUpdate_chars hupdate hc with hc | ⟨bdev, id, hid, hc⟩
    · exact hquote hc
    · exact ((hmap bdev id hid).2 _ hc).2.1 rfl
  · intro hc
    rcases kernelUpdate_chars hupdate hc with hc | ⟨bdev, id, hid, hc⟩
    · exact hb hc
    · exact ((hmap bdev id hid).2 _ hc).2.2.2 rfl

/-- An id can be quoted. -/
theorem resume_readable {map : DeviceMap} (hmap : map.Quotable) (file : Text) :
    ∀ stmt ∈ statements file, ∀ name new, (resumeNewValue map).rewrites stmt = some (name, new) →
      IsName name ∧ paired new = true := by
  intro stmt _ name new hr
  obtain ⟨value, -, -, hnew⟩ := rewrites_eq_some hr
  obtain ⟨hname, hid⟩ := resumeNewValue_eq_some hnew
  obtain ⟨-, hchars⟩ := hmap value new hid
  refine ⟨⟨'R', "ESUME", hname, by decide, forall_mem_of_all rfl⟩,
    paired_of_plain (fun hc => ?_) fun hc => ?_⟩
  · exact (hchars _ hc).2.1 rfl
  · exact (hchars _ hc).2.2.2 rfl

/-! ### The listed devices -/

theorem marked_none {newValue : NewValue} {stmt : Statement} (h : newValue.rewrites stmt = none) :
    (marked newValue stmt).map Prod.snd = [stmt] := by
  rw [marked, h]
  rfl

theorem marked_some {newValue : NewValue} {stmt : Statement} {name new : Text}
    (h : newValue.rewrites stmt = some (name, new)) :
    (marked newValue stmt).map Prod.snd =
      (lines stmt.text).map (fun line => ⟨commentLine line, none, none⟩) ++
        [⟨quotedStatement name new, some name, some new⟩] := by
  rw [marked, h]
  simp

theorem grub2Devices_marked {map : DeviceMap} (hmap : map.Quotable) (stmt : Statement) :
    ((marked (grub2NewValue map) stmt).map Prod.snd).flatMap grub2Devices =
      (grub2Devices stmt).map map.replace := by
  cases hr : (grub2NewValue map).rewrites stmt with
  | none =>
    rw [marked_none hr, List.flatMap_singleton]
    unfold NewValue.rewrites at hr
    unfold grub2Devices
    split
    · next name value hname hvalue =>
      rw [hname, hvalue] at hr
      simp only [grub2NewValue, Option.map_eq_none_iff] at hr
      split
      · next hn =>
        rw [if_pos hn] at hr
        exact kernelList_of_not_updated hr
      · rfl
    · rfl
  | some m =>
    obtain ⟨name, new⟩ := m
    obtain ⟨value, hname, hvalue, hnew⟩ := rewrites_eq_some hr
    obtain ⟨hn, hupdate⟩ := grub2NewValue_eq_some hnew
    have hids (bdev id : Text) (h : map bdev = some id) :
        id ≠ [] ∧ ∀ c ∈ id, isSpace c = false :=
      ⟨(hmap bdev id h).1, fun c hc => ((hmap bdev id h).2 c hc).1⟩
    have hcomments : ((lines stmt.text).map fun line =>
        (⟨commentLine line, none, none⟩ : Statement)).flatMap grub2Devices = [] := by
      rw [List.flatMap_map]
      simp [grub2Devices]
    have hold : grub2Devices stmt = kernelList value := by
      unfold grub2Devices
      rw [hname, hvalue]
      exact if_pos hn
    rw [marked_some hr, List.flatMap_append, hcomments, List.nil_append, List.flatMap_singleton,
      hold, ← kernelList_kernelUpdate hids hupdate]
    exact if_pos hn

theorem resumeDevice_marked (map : DeviceMap) (stmt : Statement) (results : List Text) :
    ((marked (resumeNewValue map) stmt).map Prod.snd).foldl resumeDevice
        (results.map map.replace) = (resumeDevice results stmt).map map.replace := by
  cases hr : (resumeNewValue map).rewrites stmt with
  | none =>
    rw [marked_none hr]
    show resumeDevice (results.map map.replace) stmt = _
    unfold NewValue.rewrites at hr
    unfold resumeDevice
    split
    · next name value hname hvalue =>
      rw [hname, hvalue] at hr
      simp only [resumeNewValue, Option.map_eq_none_iff] at hr
      split
      · next hn =>
        rw [if_pos hn] at hr
        simp [DeviceMap.replace, hr]
      · rfl
    · rfl
  | some m =>
    obtain ⟨name, new⟩ := m
    obtain ⟨value, hname, hvalue, hnew⟩ := rewrites_eq_some hr
    obtain ⟨rfl, hid⟩ := resumeNewValue_eq_some hnew
    have hcomments : ∀ (ls : List Text) (r : List Text), (ls.map fun line =>
        (⟨commentLine line, none, none⟩ : Statement)).foldl resumeDevice r = r := by
      intro ls r
      induction ls with
      | nil => rfl
      | cons l ls ih => exact ih
    rw [marked_some hr, List.foldl_append, hcomments]
    simp [resumeDevice, hname, hvalue, DeviceMap.replace, hid]

end ShellUpdateLemmas

open ShellUpdateLemmas

/-! ## Both formats -/

/-- `grub2_update` and `initramfs_resume_update` change exactly the mapped devices: the
statements of the output, the input that is left without what was added, and the
devices that are listed. -/
theorem shell_update_exact {file : Text} (hterm : Terminated file) {map : DeviceMap}
    (hmap : map.Quotable) :
    (PlainRewrites (grub2NewValue map) file →
      statements (grub2Update file map) =
          ((statements file).flatMap (marked (grub2NewValue map))).map Prod.snd ∧
        restore ((statements file).flatMap (marked (grub2NewValue map))) = file ∧
        grub2List (grub2Update file map) = (grub2List file).map map.replace) ∧
    statements (initramfsResumeUpdate file map) =
        ((statements file).flatMap (marked (resumeNewValue map))).map Prod.snd ∧
      restore ((statements file).flatMap (marked (resumeNewValue map))) = file ∧
      initramfsResumeList (initramfsResumeUpdate file map) =
        (initramfsResumeList file).map map.replace := by
  constructor
  · intro hplain
    have hstmts := statements_shellUpdate hterm (grub2_readable hmap hplain)
    refine ⟨hstmts, restore_marked _ file, ?_⟩
    show (statements (shellUpdate (grub2NewValue map) file)).flatMap grub2Devices = _
    rw [hstmts, grub2List]
    induction statements file with
    | nil => rfl
    | cons stmt stmts ih =>
      rw [List.flatMap_cons, List.map_append, List.flatMap_append, grub2Devices_marked hmap, ih,
        List.flatMap_cons, List.map_append]
  · have hstmts := statements_shellUpdate hterm (resume_readable hmap file)
    refine ⟨hstmts, restore_marked _ file, ?_⟩
    show (statements (shellUpdate (resumeNewValue map) file)).foldl resumeDevice [] = _
    rw [hstmts, initramfsResumeList]
    have hfold (stmts : List Statement) (results : List Text) :
        ((stmts.flatMap (marked (resumeNewValue map))).map Prod.snd).foldl resumeDevice
          (results.map map.replace) = (stmts.foldl resumeDevice results).map map.replace := by
      induction stmts generalizing results with
      | nil => rfl
      | cons stmt stmts ih =>
        rw [List.flatMap_cons, List.map_append, List.foldl_append, resumeDevice_marked, ih,
          List.foldl_cons]
    exact hfold (statements file) []

/-- The map of one disk. -/
def hdaMap : DeviceMap := fun bdev => if bdev = "/dev/hda1" then some "UUID=0a" else none

theorem quotable_hdaMap : hdaMap.Quotable := by
  intro bdev id h
  unfold hdaMap at h
  split at h
  · cases h
    exact ⟨by decide, forall_mem_of_all rfl⟩
  · cases h

theorem shell_update_hda :
    grub2List (grub2Update "A=1\nGRUB_CMDLINE_LINUX=\"root=/dev/hda1\\\n ro\"\n" hdaMap) =
      ["UUID=0a"] := by
  have hterm : Terminated "A=1\nGRUB_CMDLINE_LINUX=\"root=/dev/hda1\\\n ro\"\n" :=
    .inr ⟨"A=1\nGRUB_CMDLINE_LINUX=\"root=/dev/hda1\\\n ro\"", rfl⟩
  have h := (shell_update_exact hterm quotable_hdaMap).1 (by decide +kernel)
  rw [h.2.2]
  decide +kernel

end DebianKernel.DiskId
