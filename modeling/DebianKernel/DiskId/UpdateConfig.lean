import DebianKernel.DiskId.Kernel
import Mathlib.Logic.Relation
import Mathlib.Logic.Function.Basic

/-!
# Replacing a configuration file

`update_config` writes the new content to `path.new`, makes a backup and renames. A step
relation over the file system gives every run: each call can fail, the output can reach
the file in pieces of any length, and the run can stop in any state.

`path.new` is opened without truncation, and the results of print and close are not
looked at.

Results:
1. `step_inv`, `run_inv`: what one step, and a run, keeps.
2. `Inv.replaced`: what is renamed, as long as all output is written.
3. `replacement_exact`: in a run that renames only complete output over no longer
   left-over, the replacement is all-or-nothing.
4. `configRun_old_or_new`: over all matches, each file is the old one or its update.
-/

namespace DebianKernel.DiskId

open Text

/-! ## Files -/

structure File where
  content : Text
  mode : Nat
  uid : Nat
  gid : Nat
  deriving DecidableEq

/-- The files by name. -/
abbrev Fs := Text → Option File

namespace Fs

def set (fs : Fs) (name : Text) (f : Option File) : Fs := Function.update fs name f

def content (fs : Fs) (name : Text) : Option Text := (fs name).map (·.content)

/-- The file that is opened with `O_CREAT`, and without `O_TRUNC`. -/
def openCreate (fs : Fs) (name : Text) : File := (fs name).getD ⟨[], 0o600, 0, 0⟩

/-- Characters written at a position that is not behind the end. -/
def overwrite (content : Text) (pos : Nat) (written : Text) : Text :=
  content.take pos ++ written ++ content.drop (pos + written.length)

/-- `write` on an open file. -/
def writeAt (fs : Fs) (name : Text) (pos : Nat) (written : Text) : Fs :=
  fs.set name ((fs name).map fun f => { f with content := overwrite f.content pos written })

end Fs

/-! ## Configurations -/

/-- The fields of an entry of `@config_files` that `update_config` reads. The update
function gives what is printed, or `none` when it dies. -/
structure Config where
  path : Text
  suffix : Option Text
  update : Text → DeviceMap → Option Text
  postUpdate : Bool
  suffix_ne : suffix ≠ some ".new"

/-- A match of `scan_config_files`, as `update_config` reads it. -/
structure ConfigMatch where
  config : Config
  installed : Bool

namespace ConfigMatch

variable (m : ConfigMatch)

def path : Text := m.config.path

def newPath : Text := m.config.path ++ ".new"

/-- `$match->{config}->{suffix} || '.old'`. -/
def backupSuffix : Text :=
  match m.config.suffix with
  | some suffix => if suffix = [] ∨ suffix = "0" then ".old" else suffix
  | none => ".old"

/-- `$old_path`. -/
def oldPath : Text := m.config.path ++ m.backupSuffix

/-- The files that are touched. -/
def names : List Text := [m.path, m.newPath, m.oldPath]

end ConfigMatch

/-! ## Runs -/

/-- The next call of `update_config` for a match. -/
inductive Stage
  | openOld
  | openNew (old : Text)
  /-- The update function prints: what is left to print, the buffer of the file handle and
  the position in `path.new`. -/
  | writing (rest buffer : Text) (pos : Nat)
  | stat
  | chown (st : File)
  | chmod (st : File)
  | unlink
  | link
  | rename
  | replaced
  | finished (posted : Bool)
  | died

namespace Stage

/-- A call whose failure is followed by `die`. -/
def dies : Stage → Bool
  | openOld | openNew _ | stat | chown _ | chmod _ | link | rename => true
  | _ => false

def pastRename : Stage → Bool
  | replaced | finished _ => true
  | _ => false

end Stage

/-- The state of a run, with what has happened so far: the content that `path.new` had
when it was opened, a print or a close has failed, any call has failed. -/
structure UpdateState where
  fs : Fs
  stage : Stage
  leftOver : Text
  unwritten : Bool
  failed : Bool

namespace UpdateState

def start (fs : Fs) : UpdateState := ⟨fs, .openOld, [], false, false⟩

end UpdateState

/-- One call of `update_config`, for one match. -/
inductive Step (m : ConfigMatch) (map : DeviceMap) : UpdateState → UpdateState → Prop
  | openOld {s : UpdateState} {f : File} (h : s.stage = .openOld) (hf : s.fs m.path = some f) :
      Step m map s { s with stage := .openNew f.content }
  | openNew {s : UpdateState} {old out : Text} (h : s.stage = .openNew old)
      (hout : m.config.update old map = some out) :
      Step m map s { s with
        fs := s.fs.set m.newPath (some (s.fs.openCreate m.newPath))
        stage := .writing out [] 0
        leftOver := (s.fs.openCreate m.newPath).content }
  /-- The update function dies, with any part of its output written. -/
  | updateDies {s : UpdateState} {old part : Text} (h : s.stage = .openNew old)
      (hout : m.config.update old map = none) :
      Step m map s { s with
        fs := s.fs.set m.newPath (some { s.fs.openCreate m.newPath with content := part })
        stage := .died
        failed := true }
  | print {s : UpdateState} {chunk rest buffer : Text} {pos : Nat}
      (h : s.stage = .writing (chunk ++ rest) buffer pos) :
      Step m map s { s with stage := .writing rest (buffer ++ chunk) pos }
  | flush {s : UpdateState} {rest buffer : Text} {pos : Nat}
      (h : s.stage = .writing rest buffer pos) :
      Step m map s { s with
        fs := s.fs.writeAt m.newPath pos buffer
        stage := .writing rest [] (pos + buffer.length) }
  /-- A flush fails: a part of the buffer is written, and the rest of it is dropped. -/
  | flushFails {s : UpdateState} {rest written dropped : Text} {pos : Nat}
      (h : s.stage = .writing rest (written ++ dropped) pos) :
      Step m map s { s with
        fs := s.fs.writeAt m.newPath pos written
        stage := .writing rest [] (pos + written.length)
        unwritten := true
        failed := true }
  | close {s : UpdateState} {buffer : Text} {pos : Nat} (h : s.stage = .writing [] buffer pos) :
      Step m map s { s with fs := s.fs.writeAt m.newPath pos buffer, stage := .stat }
  | closeFails {s : UpdateState} {written dropped : Text} {pos : Nat}
      (h : s.stage = .writing [] (written ++ dropped) pos) :
      Step m map s { s with
        fs := s.fs.writeAt m.newPath pos written
        stage := .stat
        unwritten := true
        failed := true }
  | stat {s : UpdateState} {f : File} (h : s.stage = .stat) (hf : s.fs m.path = some f) :
      Step m map s { s with stage := .chown f }
  | chown {s : UpdateState} {st : File} (h : s.stage = .chown st) :
      Step m map s { s with
        fs := s.fs.set m.newPath
          ((s.fs m.newPath).map fun f => { f with uid := st.uid, gid := st.gid })
        stage := .chmod st }
  | chmod {s : UpdateState} {st : File} (h : s.stage = .chmod st) :
      Step m map s { s with
        fs := s.fs.set m.newPath
          ((s.fs m.newPath).map fun f => { f with mode := st.mode % 0o10000 })
        stage := .unlink }
  | unlink {s : UpdateState} (h : s.stage = .unlink) :
      Step m map s { s with fs := s.fs.set m.oldPath none, stage := .link }
  /-- The result of `unlink` is not looked at. That there is no backup is no failure. -/
  | unlinkFails {s : UpdateState} (h : s.stage = .unlink) (hf : s.fs m.oldPath ≠ none) :
      Step m map s { s with stage := .link, failed := true }
  | link {s : UpdateState} {f : File} (h : s.stage = .link) (hf : s.fs m.path = some f)
      (hfree : s.fs m.oldPath = none) :
      Step m map s { s with fs := s.fs.set m.oldPath (some f), stage := .rename }
  | rename {s : UpdateState} {f : File} (h : s.stage = .rename) (hf : s.fs m.newPath = some f) :
      Step m map s { s with
        fs := (s.fs.set m.path (some f)).set m.newPath none
        stage := .replaced }
  | postUpdate {s : UpdateState} (h : s.stage = .replaced) :
      Step m map s { s with stage := .finished (m.installed && m.config.postUpdate) }
  | dies {s : UpdateState} (h : s.stage.dies = true) :
      Step m map s { s with stage := .died, failed := true }

/-- No print and no close has failed, and the left-over `path.new` was not longer than the
output. -/
def CompleteOutput (m : ConfigMatch) (map : DeviceMap) (old : Text) (s : UpdateState) : Prop :=
  s.unwritten = false ∧
    ∀ out, m.config.update old map = some out → s.leftOver.length ≤ out.length

/-- The condition on a step: only complete output is renamed. -/
def RenamesComplete (m : ConfigMatch) (map : DeviceMap) (old : Text) (s s' : UpdateState) : Prop :=
  s.stage = .rename → s'.stage = .replaced → CompleteOutput m map old s

/-- The replacement is all-or-nothing. -/
structure Exact (m : ConfigMatch) (map : DeviceMap) (old : Text) (s : UpdateState) : Prop where
  /-- The file holds its old content or the new one. -/
  old_or_new : s.fs.content m.path = some old ∨
    ∃ out, m.config.update old map = some out ∧ s.fs.content m.path = some out
  past_rename : s.stage.pastRename = true →
    (∃ out, m.config.update old map = some out ∧ s.fs.content m.path = some out) ∧
      s.fs.content m.oldPath = some old
  of_failed : s.failed = true → s.fs.content m.path = some old

namespace UpdateConfigLemmas

/-! ### Names -/

section Names

variable (m : ConfigMatch)

theorem path_ne_newPath : m.path ≠ m.newPath := by
  intro h
  have hlen := congrArg List.length h
  simp [ConfigMatch.path, ConfigMatch.newPath] at hlen

theorem backupSuffix_ne_nil : m.backupSuffix ≠ [] := by
  unfold ConfigMatch.backupSuffix
  split
  · split
    · decide
    · next h => exact fun hnil => h (.inl hnil)
  · decide

theorem path_ne_oldPath : m.path ≠ m.oldPath := by
  intro h
  have hlen := congrArg List.length h
  have hpos := List.length_pos_iff.mpr (backupSuffix_ne_nil m)
  rw [ConfigMatch.oldPath, List.length_append, ConfigMatch.path] at hlen
  omega

theorem newPath_ne_oldPath : m.newPath ≠ m.oldPath := by
  intro h
  have hsuffix : (".new" : Text) = m.backupSuffix := List.append_cancel_left h
  unfold ConfigMatch.backupSuffix at hsuffix
  split at hsuffix
  · next suffix hsome =>
    split at hsuffix
    · exact absurd hsuffix (by decide)
    · exact m.config.suffix_ne (hsome.trans (congrArg some hsuffix.symm))
  · exact absurd hsuffix (by decide)

end Names

/-! ### Files -/

section Files

variable {fs : Fs} {name other : Text} {f : Option File}

@[simp] theorem set_self : fs.set name f name = f := Function.update_self ..

theorem set_of_ne (h : other ≠ name) : fs.set name f other = fs other :=
  Function.update_of_ne h ..

theorem content_set_self : (fs.set name f).content name = f.map (·.content) := by
  rw [Fs.content, set_self]

theorem content_set_of_ne (h : other ≠ name) :
    (fs.set name f).content other = fs.content other := by
  rw [Fs.content, set_of_ne h, Fs.content]

theorem content_writeAt_of_ne {pos : Nat} {t : Text} (h : other ≠ name) :
    (fs.writeAt name pos t).content other = fs.content other :=
  content_set_of_ne h

theorem content_writeAt {pos : Nat} {t : Text} :
    (fs.writeAt name pos t).content name =
      (fs.content name).map fun content => Fs.overwrite content pos t := by
  rw [Fs.writeAt, content_set_self, Fs.content, Option.map_map, Option.map_map]
  rfl

theorem overwrite_append (written t rest : Text) :
    Fs.overwrite (written ++ rest) written.length t = written ++ t ++ rest.drop t.length := by
  rw [Fs.overwrite, List.take_left, ← List.drop_drop, List.drop_left]

end Files

/-! ### Steps -/

variable {m : ConfigMatch} {map : DeviceMap} {old : Text} {s s' : UpdateState}

/-- As long as all output is written, `path.new` holds it up to the position, and from
there on what was left over. -/
def Output (m : ConfigMatch) (map : DeviceMap) (old : Text) (s : UpdateState) (pending : Text)
    (pos : Nat) : Prop :=
  ∃ out, m.config.update old map = some out ∧ (s.unwritten = false → ∃ written,
    written ++ pending = out ∧ written.length = pos ∧
      s.fs.content m.newPath = some (written ++ s.leftOver.drop pos))

/-- The file holds its old content, and all output is written as far as nothing failed. -/
structure Closed (m : ConfigMatch) (map : DeviceMap) (old : Text) (s : UpdateState) : Prop where
  path : s.fs.content m.path = some old
  output : ∃ pos, Output m map old s [] pos

/-- What holds in the stages of a run. -/
def InvAt (m : ConfigMatch) (map : DeviceMap) (old : Text) (s : UpdateState) : Stage → Prop
  | .openOld => s.fs.content m.path = some old ∧ s.failed = false ∧ s.unwritten = false
  | .openNew text =>
    text = old ∧ s.fs.content m.path = some old ∧ s.failed = false ∧ s.unwritten = false
  | .writing rest buffer pos =>
    s.fs.content m.path = some old ∧ Output m map old s (buffer ++ rest) pos ∧
      s.failed = s.unwritten
  | .stat | .chown _ | .chmod _ | .unlink => Closed m map old s ∧ s.failed = s.unwritten
  | .link => Closed m map old s ∧ (s.failed = s.unwritten ∨ s.fs m.oldPath ≠ none)
  | .rename =>
    Closed m map old s ∧ s.fs.content m.oldPath = some old ∧ s.failed = s.unwritten
  | .replaced | .finished _ =>
    (∃ out, m.config.update old map = some out ∧ (s.unwritten = false →
      s.fs.content m.path = some (out ++ s.leftOver.drop out.length))) ∧
      s.fs.content m.oldPath = some old ∧ s.failed = s.unwritten
  | .died => s.fs.content m.path = some old

def Inv (m : ConfigMatch) (map : DeviceMap) (old : Text) (s : UpdateState) : Prop :=
  InvAt m map old s s.stage

theorem Inv.at_stage {stage : Stage} (hs : Inv m map old s) (h : s.stage = stage) :
    InvAt m map old s stage :=
  h ▸ hs

/-- Before the rename the file holds its old content. -/
theorem Inv.path (hs : Inv m map old s) (hbefore : s.stage.pastRename = false) :
    s.fs.content m.path = some old := by
  cases h : s.stage with
  | openOld => exact (hs.at_stage h).1
  | openNew text => exact (hs.at_stage h).2.1
  | writing rest buffer pos => exact (hs.at_stage h).1
  | stat => exact (hs.at_stage h).1.path
  | chown st => exact (hs.at_stage h).1.path
  | chmod st => exact (hs.at_stage h).1.path
  | unlink => exact (hs.at_stage h).1.path
  | link => exact (hs.at_stage h).1.path
  | rename => exact (hs.at_stage h).1.path
  | died => exact hs.at_stage h
  | replaced => rw [h] at hbefore; cases hbefore
  | finished posted => rw [h] at hbefore; cases hbefore

theorem Inv.replaced (hs : Inv m map old s) (hpast : s.stage.pastRename = true) :
    (∃ out, m.config.update old map = some out ∧ (s.unwritten = false →
      s.fs.content m.path = some (out ++ s.leftOver.drop out.length))) ∧
      s.fs.content m.oldPath = some old ∧ s.failed = s.unwritten := by
  cases h : s.stage with
  | replaced => exact hs.at_stage h
  | finished posted => exact hs.at_stage h
  | _ => rw [h] at hpast; cases hpast

theorem pastRename_of_dies {stage : Stage} (h : stage.dies = true) : stage.pastRename = false := by
  cases stage <;> first | rfl | cases h

theorem Output.flush {rest buffer : Text} {pos : Nat}
    (h : Output m map old s (buffer ++ rest) pos) (stage : Stage) :
    Output m map old { s with fs := s.fs.writeAt m.newPath pos buffer, stage := stage } rest
      (pos + buffer.length) := by
  obtain ⟨out, hout, hwritten⟩ := h
  refine ⟨out, hout, ?_⟩
  intro hu
  obtain ⟨written, hsplit, rfl, hcontent⟩ := hwritten hu
  refine ⟨written ++ buffer, by rw [List.append_assoc, hsplit], List.length_append, ?_⟩
  show (s.fs.writeAt m.newPath written.length buffer).content m.newPath = _
  rw [content_writeAt, hcontent, Option.map_some, overwrite_append, List.drop_drop]

/-- After a failure, only that there is an output. -/
theorem Output.fail {pending pending' : Text} {pos pos' : Nat} (h : Output m map old s pending pos)
    (hu : s'.unwritten = true) : Output m map old s' pending' pos' := by
  obtain ⟨out, hout, -⟩ := h
  refine ⟨out, hout, ?_⟩
  intro hno
  rw [hu] at hno
  cases hno

/-- A step that changes neither the file nor the content of `path.new`. -/
theorem Closed.keep (h : Closed m map old s)
    (hpath : s'.fs.content m.path = s.fs.content m.path)
    (hnew : s'.fs.content m.newPath = s.fs.content m.newPath)
    (hu : s'.unwritten = s.unwritten) (hleft : s'.leftOver = s.leftOver) :
    Closed m map old s' := by
  obtain ⟨pos, out, hout, hwritten⟩ := h.output
  refine ⟨hpath.trans h.path, pos, out, hout, ?_⟩
  intro hno
  rw [hnew, hleft]
  exact hwritten (hu.symm.trans hno)

theorem content_map_newPath {fs : Fs} {name : Text} {g : File → File}
    (hg : ∀ f, (g f).content = f.content) :
    (fs.set name ((fs name).map g)).content name = fs.content name := by
  rw [content_set_self, Fs.content, Option.map_map]
  exact congrArg (fun g => (fs name).map g) (funext hg)

/-- What one call keeps. -/
theorem step_inv (hs : Inv m map old s) (h : Step m map s s') : Inv m map old s' := by
  have hpath := path_ne_newPath m
  have hbackup := path_ne_oldPath m
  have hnew := newPath_ne_oldPath m
  cases h with
  | openOld h hf =>
    obtain ⟨hold, hfailed⟩ := hs.at_stage h
    rw [Fs.content, hf] at hold
    exact ⟨Option.some.inj hold, by rw [Fs.content, hf]; exact hold, hfailed⟩
  | openNew h hout =>
    obtain ⟨rfl, hold, hfailed, hunwritten⟩ := hs.at_stage h
    refine ⟨(content_set_of_ne hpath).trans hold, ⟨_, hout, fun _ => ⟨[], rfl, rfl, ?_⟩⟩,
      hfailed.trans hunwritten.symm⟩
    exact content_set_self
  | updateDies h hout =>
    have hs := hs.at_stage h
    exact (content_set_of_ne hpath).trans hs.2.1
  | print h =>
    obtain ⟨hold, hout, hfailed⟩ := hs.at_stage h
    refine ⟨hold, ?_, hfailed⟩
    rw [List.append_assoc]
    exact hout
  | flush h =>
    obtain ⟨hold, hout, hfailed⟩ := hs.at_stage h
    exact ⟨(content_writeAt_of_ne hpath).trans hold, hout.flush _, hfailed⟩
  | flushFails h =>
    have hs := hs.at_stage h
    exact ⟨(content_writeAt_of_ne hpath).trans hs.1, hs.2.1.fail rfl, rfl⟩
  | close h =>
    obtain ⟨hold, hout, hfailed⟩ := hs.at_stage h
    exact ⟨⟨(content_writeAt_of_ne hpath).trans hold, _, hout.flush _⟩, hfailed⟩
  | closeFails h =>
    have hs := hs.at_stage h
    exact ⟨⟨(content_writeAt_of_ne hpath).trans hs.1, 0, hs.2.1.fail rfl⟩, rfl⟩
  | stat h hf =>
    have hs := hs.at_stage h
    exact ⟨hs.1.keep rfl rfl rfl rfl, hs.2⟩
  | chown h =>
    have hs := hs.at_stage h
    exact ⟨hs.1.keep (content_set_of_ne hpath) (content_map_newPath fun _ => rfl) rfl rfl, hs.2⟩
  | chmod h =>
    have hs := hs.at_stage h
    exact ⟨hs.1.keep (content_set_of_ne hpath) (content_map_newPath fun _ => rfl) rfl rfl, hs.2⟩
  | unlink h =>
    have hs := hs.at_stage h
    exact ⟨hs.1.keep (content_set_of_ne hbackup) (content_set_of_ne hnew) rfl rfl, .inl hs.2⟩
  | unlinkFails h hf =>
    have hs := hs.at_stage h
    exact ⟨hs.1.keep rfl rfl rfl rfl, .inr hf⟩
  | link h hf hfree =>
    obtain ⟨hclosed, hfailed⟩ := hs.at_stage h
    refine ⟨hclosed.keep (content_set_of_ne hbackup) (content_set_of_ne hnew) rfl rfl, ?_,
      hfailed.resolve_right fun hne => hne hfree⟩
    have hold := hclosed.path
    rw [Fs.content, hf] at hold
    exact content_set_self.trans hold
  | rename h hf =>
    obtain ⟨hclosed, hold, hfailed⟩ := hs.at_stage h
    obtain ⟨pos, out, hout, hwritten⟩ := hclosed.output
    refine ⟨⟨out, hout, ?_⟩, ?_, hfailed⟩
    · intro hu
      obtain ⟨written, hsplit, rfl, hcontent⟩ := hwritten hu
      rw [List.append_nil] at hsplit
      rw [Fs.content, hf] at hcontent
      rw [content_set_of_ne hpath, content_set_self, hcontent, hsplit]
    · rw [content_set_of_ne hnew.symm, content_set_of_ne hbackup.symm]
      exact hold
  | postUpdate h =>
    have hs := hs.at_stage h
    exact hs
  | dies h => exact hs.path (pastRename_of_dies h)

/-- A call changes no other files than the three of its match. -/
theorem step_frame {name : Text} (hname : name ∉ m.names) (h : Step m map s s') :
    s'.fs name = s.fs name := by
  simp only [ConfigMatch.names, List.mem_cons, List.not_mem_nil, or_false, not_or] at hname
  obtain ⟨hpath, hnew, hbackup⟩ := hname
  cases h with
  | openNew => exact set_of_ne hnew
  | updateDies => exact set_of_ne hnew
  | flush => exact set_of_ne hnew
  | flushFails => exact set_of_ne hnew
  | close => exact set_of_ne hnew
  | closeFails => exact set_of_ne hnew
  | chown => exact set_of_ne hnew
  | chmod => exact set_of_ne hnew
  | unlink => exact set_of_ne hbackup
  | link => exact set_of_ne hbackup
  | rename => exact (set_of_ne hnew).trans (set_of_ne hpath)
  | _ => rfl

theorem run_frame {name : Text} {fs : Fs} (hname : name ∉ m.names)
    (hrun : Relation.ReflTransGen (Step m map) (.start fs) s) : s.fs name = fs name := by
  induction hrun with
  | refl => rfl
  | tail _ h ih => exact (step_frame hname h).trans ih

theorem run_inv {fs : Fs} (hold : fs.content m.path = some old)
    (hrun : Relation.ReflTransGen (Step m map) (.start fs) s) : Inv m map old s := by
  induction hrun with
  | refl => exact ⟨hold, rfl, rfl⟩
  | tail _ h ih => exact step_inv ih h

theorem Inv.exact (h : Inv m map old s)
    (hcomplete : s.stage.pastRename = true → CompleteOutput m map old s) : Exact m map old s := by
  cases hpast : s.stage.pastRename with
  | false =>
    have hold := h.path hpast
    exact ⟨.inl hold, fun hyes => absurd (hpast.symm.trans hyes) (by decide), fun _ => hold⟩
  | true =>
    obtain ⟨hunwritten, hlength⟩ := hcomplete hpast
    obtain ⟨⟨out, hout, hcontent⟩, hbackup, hfailed⟩ := h.replaced hpast
    have hnew : s.fs.content m.path = some out := by
      rw [hcontent hunwritten, List.drop_eq_nil_iff.mpr (hlength out hout), List.append_nil]
    refine ⟨.inr ⟨out, hout, hnew⟩, fun _ => ⟨⟨out, hout, hnew⟩, hbackup⟩, fun hyes => ?_⟩
    rw [hfailed, hunwritten] at hyes
    cases hyes

/-- An update that changes the file is exact only if its output was complete. -/
theorem Inv.complete (h : Inv m map old s) (hchange : m.config.update old map ≠ some old)
    (hexact : Exact m map old s) (hpast : s.stage.pastRename = true) :
    CompleteOutput m map old s := by
  obtain ⟨⟨out, hout, hcontent⟩, -, hfailed⟩ := h.replaced hpast
  obtain ⟨⟨out', hout', hnew⟩, -⟩ := hexact.past_rename hpast
  obtain rfl : out = out' := Option.some.inj (hout.symm.trans hout')
  have hunwritten : s.unwritten = false := by
    refine Bool.eq_false_iff.mpr fun hyes => hchange ?_
    rw [hout, ← hnew]
    exact hexact.of_failed (hfailed.trans hyes)
  refine ⟨hunwritten, ?_⟩
  intro out'' hout''
  obtain rfl : out = out'' := Option.some.inj (hout.symm.trans hout'')
  rw [hcontent hunwritten, Option.some.injEq, List.append_right_eq_self] at hnew
  exact List.drop_eq_nil_iff.mp hnew

/-- The output stays complete behind the rename. -/
theorem step_complete (hs : s.stage.pastRename = true → CompleteOutput m map old s)
    (h : Step m map s s') (hcond : RenamesComplete m map old s s') :
    s'.stage.pastRename = true → CompleteOutput m map old s' := by
  intro hpast
  cases h with
  | rename h hf => exact hcond h rfl
  | postUpdate h => exact hs (by rw [h]; rfl)
  | _ => cases hpast

/-- A step of a run that meets the condition. -/
abbrev CompleteStep (m : ConfigMatch) (map : DeviceMap) (old : Text) (s s' : UpdateState) : Prop :=
  Step m map s s' ∧ RenamesComplete m map old s s'

/-- A run that meets the condition. -/
theorem run_exact {fs : Fs} (hold : fs.content m.path = some old)
    (hrun : Relation.ReflTransGen (CompleteStep m map old) (.start fs) s) : Exact m map old s := by
  have hinv : Inv m map old s := run_inv hold (hrun.lift id fun _ _ h => h.1)
  refine hinv.exact ?_
  clear hinv
  induction hrun with
  | refl => exact fun hpast => by cases hpast
  | tail _ h ih => exact step_complete ih h.1 h.2

/-- A state that is reached without a failure, with `path.new` open or written. -/
structure Undisturbed (m : ConfigMatch) (map : DeviceMap) (old : Text) (fs : Fs) (f : File)
    (stage : Stage) (s : UpdateState) : Prop where
  reached : Relation.ReflTransGen (CompleteStep m map old) (.start fs) s
  stage : s.stage = stage
  path : s.fs m.path = some f
  new : (s.fs m.newPath).isSome = true
  leftOver : s.leftOver = (fs.openCreate m.newPath).content
  clean : s.unwritten = false ∧ s.failed = false

theorem Undisturbed.run {fs : Fs} {f : File} {stage : Stage}
    (h : Undisturbed m map old fs f stage s) :
    Relation.ReflTransGen (Step m map) (.start fs) s :=
  h.reached.lift id fun _ _ h => h.1

/-- A call before the rename that does not change the file and keeps `path.new`. -/
theorem Undisturbed.next {fs fs' : Fs} {f : File} {stage stage' : Stage}
    (h : Undisturbed m map old fs f stage s)
    (hstep : Step m map s { s with fs := fs', stage := stage' }) (hno : stage ≠ .rename)
    (hpath : fs' m.path = s.fs m.path) (hnew : (fs' m.newPath).isSome = true) :
    Undisturbed m map old fs f stage' { s with fs := fs', stage := stage' } where
  reached := h.reached.tail ⟨hstep, fun hyes => absurd (h.stage.symm.trans hyes) hno⟩
  stage := rfl
  path := hpath.trans h.path
  new := hnew
  leftOver := h.leftOver
  clean := h.clean

/-- Without failures, the calls lead to the rename. -/
theorem run_to_rename {fs : Fs} {f : File} {out : Text} (hf : fs m.path = some f)
    (hout : m.config.update f.content map = some out) :
    ∃ s, Undisturbed m map old fs f .rename s := by
  have hpath := path_ne_newPath m
  have hbackup := path_ne_oldPath m
  have hnew := newPath_ne_oldPath m
  obtain ⟨s, h⟩ : ∃ s, Undisturbed m map old fs f (.writing (out ++ []) [] 0) s := by
    rw [List.append_nil]
    refine ⟨_, .tail (.tail .refl ⟨.openOld rfl hf, nofun⟩)
      ⟨.openNew rfl hout, nofun⟩, rfl, (set_of_ne hpath).trans hf, ?_, rfl, rfl, rfl⟩
    exact congrArg Option.isSome set_self
  obtain ⟨s, h⟩ : ∃ s, Undisturbed m map old fs f (.writing [] out 0) s :=
    ⟨_, h.next (.print h.stage) nofun rfl h.new⟩
  obtain ⟨s, h⟩ : ∃ s, Undisturbed m map old fs f .stat s := by
    refine ⟨_, h.next (.close h.stage) nofun (set_of_ne hpath) ?_⟩
    rw [Fs.writeAt, set_self, Option.isSome_map]
    exact h.new
  obtain ⟨s, h⟩ : ∃ s, Undisturbed m map old fs f (.chown f) s :=
    ⟨_, h.next (.stat h.stage h.path) nofun rfl h.new⟩
  obtain ⟨s, h⟩ : ∃ s, Undisturbed m map old fs f (.chmod f) s := by
    refine ⟨_, h.next (.chown h.stage) nofun (set_of_ne hpath) ?_⟩
    rw [set_self, Option.isSome_map]
    exact h.new
  obtain ⟨s, h⟩ : ∃ s, Undisturbed m map old fs f .unlink s := by
    refine ⟨_, h.next (.chmod h.stage) nofun (set_of_ne hpath) ?_⟩
    rw [set_self, Option.isSome_map]
    exact h.new
  obtain ⟨s, h, hfree⟩ : ∃ s, Undisturbed m map old fs f .link s ∧ s.fs m.oldPath = none :=
    ⟨_, h.next (.unlink h.stage) nofun (set_of_ne hbackup)
      ((congrArg Option.isSome (set_of_ne hnew)).trans h.new), set_self⟩
  exact ⟨_, h.next (.link h.stage h.path hfree) nofun (set_of_ne hbackup)
    ((congrArg Option.isSome (set_of_ne hnew)).trans h.new)⟩

end UpdateConfigLemmas

open UpdateConfigLemmas

/-- In a run that renames only complete output, the replacement is all-or-nothing in every
state; and for an update that changes the file, it is so in no other state. -/
theorem replacement_exact {m : ConfigMatch} {map : DeviceMap} {fs : Fs} {old : Text}
    (hold : fs.content m.path = some old) (s : UpdateState) :
    (Relation.ReflTransGen (fun s s' => Step m map s s' ∧ RenamesComplete m map old s s')
      (.start fs) s → Exact m map old s) ∧
    (m.config.update old map ≠ some old → Relation.ReflTransGen (Step m map) (.start fs) s →
      (Exact m map old s ↔ (s.stage.pastRename = true → CompleteOutput m map old s))) := by
  refine ⟨run_exact hold, ?_⟩
  intro hchange hrun
  have hinv := run_inv hold hrun
  exact ⟨fun hexact hpast => hinv.complete hchange hexact hpast, hinv.exact⟩

/-- A file that is replaced by a longer one. -/
def resumeMatch : ConfigMatch where
  config :=
    { path := "/resume"
      suffix := some "^old"
      update := fun old map => (map old).map fun id => "RESUME=" ++ id
      postUpdate := false
      suffix_ne := by decide }
  installed := true

def resumeMap : DeviceMap := fun _ => some "UUID=0b"

/-- The files with a left-over `path.new`. -/
def resumeFs (leftOver : Text) : Fs := fun name =>
  if name = "/resume" then some ⟨"RESUME=/dev/hda2", 0o644, 0, 0⟩
  else if name = "/resume.new" then some ⟨leftOver, 0o600, 0, 0⟩
  else none

theorem resume_replaced :
    ∃ s, s.stage = .replaced ∧ Exact resumeMatch resumeMap "RESUME=/dev/hda2" s := by
  have hfile : resumeFs "RESUME=" resumeMatch.path = some ⟨"RESUME=/dev/hda2", 0o644, 0, 0⟩ := rfl
  obtain ⟨s, h⟩ : ∃ s, Undisturbed resumeMatch resumeMap "RESUME=/dev/hda2" _ _ .rename s :=
    run_to_rename hfile rfl
  obtain ⟨new, hnew⟩ := Option.isSome_iff_exists.mp h.new
  refine ⟨_, rfl, (replacement_exact (congrArg (Option.map File.content) hfile) _).1
    (h.reached.tail ⟨.rename h.stage hnew, fun _ _ => ⟨h.clean.1, fun out hout => ?_⟩⟩)⟩
  cases hout
  rw [h.leftOver]
  decide

/-- No call fails, and the end of a longer left-over file stays behind the new content. -/
theorem resume_garbled :
    ∃ s, Relation.ReflTransGen (Step resumeMatch resumeMap)
        (.start (resumeFs "RESUME=UUID=0b-long")) s ∧
      s.failed = false ∧ s.fs.content resumeMatch.path = some ("RESUME=UUID=0b-long" : Text) ∧
      ¬ Exact resumeMatch resumeMap "RESUME=/dev/hda2" s := by
  have hfile : resumeFs "RESUME=UUID=0b-long" resumeMatch.path =
      some ⟨"RESUME=/dev/hda2", 0o644, 0, 0⟩ := rfl
  obtain ⟨s, h⟩ : ∃ s, Undisturbed resumeMatch resumeMap "RESUME=/dev/hda2" _ _ .rename s :=
    run_to_rename hfile rfl
  obtain ⟨new, hnew⟩ := Option.isSome_iff_exists.mp h.new
  have hrun := h.run.tail (.rename h.stage hnew)
  have hinv := run_inv (congrArg (Option.map File.content) hfile) hrun
  obtain ⟨⟨out, hout, hcontent⟩, -⟩ := hinv.replaced rfl
  cases hout
  have hleft : s.leftOver = "RESUME=UUID=0b-long" := h.leftOver
  refine ⟨_, hrun, h.clean.2, ?_, ?_⟩
  · refine (hcontent h.clean.1).trans ?_
    show some (("RESUME=UUID=0b" : Text) ++ s.leftOver.drop 14) = _
    rw [hleft]
    rfl
  · intro hexact
    have hlength := (hinv.complete (by decide) hexact rfl).2 _ rfl
    have hshort : ¬ (("RESUME=UUID=0b-long" : Text).length ≤ ("RESUME=UUID=0b" : Text).length) := by
      decide
    exact hshort (hleft ▸ hlength)

/-! ## All matches -/

/-- The states of `update_config`: those of the run for a match, when the runs for the
matches before it have ended. -/
inductive ConfigRun (map : DeviceMap) : List ConfigMatch → Fs → UpdateState → Prop
  | within {m : ConfigMatch} {ms : List ConfigMatch} {fs : Fs} {s : UpdateState}
      (h : Relation.ReflTransGen (CompleteStep m map ((fs.content m.path).getD [])) (.start fs) s) :
      ConfigRun map (m :: ms) fs s
  | next {m : ConfigMatch} {ms : List ConfigMatch} {fs : Fs} {s s' : UpdateState}
      (h : Relation.ReflTransGen (CompleteStep m map ((fs.content m.path).getD [])) (.start fs) s)
      (hpast : s.stage.pastRename = true) (hrest : ConfigRun map ms s.fs s') :
      ConfigRun map (m :: ms) fs s'

namespace UpdateConfigLemmas

theorem configRun_frame {map : DeviceMap} {ms : List ConfigMatch} {fs : Fs} {s : UpdateState}
    {name : Text} (hname : ∀ m ∈ ms, name ∉ m.names) (h : ConfigRun map ms fs s) :
    s.fs name = fs name := by
  induction h with
  | within h =>
    exact run_frame (hname _ List.mem_cons_self) (h.lift id fun _ _ h => h.1)
  | next h _ _ ih =>
    have hrest := ih fun m hm => hname m (List.mem_cons_of_mem _ hm)
    exact hrest.trans (run_frame (hname _ List.mem_cons_self) (h.lift id fun _ _ h => h.1))

end UpdateConfigLemmas

/-- In every state of an update that renames only complete output, each of the files has
its old content or the new one, when no match touches the file of another. -/
theorem configRun_old_or_new {map : DeviceMap} {ms : List ConfigMatch} {fs : Fs} {s : UpdateState}
    (hapart : ms.Pairwise fun m m' => m.path ∉ m'.names ∧ m'.path ∉ m.names)
    (h : ConfigRun map ms fs s) {m : ConfigMatch} (hm : m ∈ ms) {old : Text}
    (hold : fs.content m.path = some old) :
    s.fs.content m.path = some old ∨
      ∃ out, m.config.update old map = some out ∧ s.fs.content m.path = some out := by
  induction h with
  | within h =>
    rw [List.pairwise_cons] at hapart
    cases hm with
    | head =>
      rw [hold] at h
      exact (run_exact hold h).old_or_new
    | tail _ hm =>
      refine .inl (Eq.trans ?_ hold)
      have hframe := run_frame (hapart.1 m hm).2 (h.lift id fun _ _ h => h.1)
      exact congrArg (Option.map File.content) hframe
  | next h hpast hrest ih =>
    rw [List.pairwise_cons] at hapart
    cases hm with
    | head =>
      rw [hold] at h
      have hframe := configRun_frame (fun m' hm' => (hapart.1 m' hm').1) hrest
      obtain ⟨hnew, -⟩ := (run_exact hold h).past_rename hpast
      refine .inr (hnew.imp fun out hout => ⟨hout.1, Eq.trans ?_ hout.2⟩)
      exact congrArg (Option.map File.content) hframe
    | tail _ hm =>
      refine ih hapart.2 hm (Eq.trans ?_ hold)
      have hframe := run_frame (hapart.1 m hm).2 (h.lift id fun _ _ h => h.1)
      exact congrArg (Option.map File.content) hframe

end DebianKernel.DiskId
