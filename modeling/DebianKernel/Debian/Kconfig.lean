import DebianKernel.Lib.LineEdit
import DebianKernel.Lib.OrderedDict
import DebianKernel.Lib.Pattern
import DebianKernel.Lib.Words

/-!
# Kernel configuration files

`KconfigFile` of `debian_linux/kconfig.py` and `merge` of `bin/kconfig.py`: the settings of
several files and of the command line are collected in a dictionary, which is written as
one file.

Results:
1. `readLines_eq`: reading lines is setting, in order, what each line sets.
2. `read_toText`: a dictionary of printable entries is read back as it was.
3. `printable_read`: all entries that come from files are printable.
-/

namespace DebianKernel.Debian

open Text

/-! ## Entries -/

/-- The value of an entry. The first three are those of `KConfigEntryTristate`. -/
inductive KconfigValue
  | no
  | yes
  | mod
  | other (value : Text)
  deriving DecidableEq

namespace KconfigValue

/-- The entry that `set` makes of a value. -/
def ofText (value : Text) : KconfigValue :=
  if value = "n" then .no else if value = "y" then .yes else if value = "m" then .mod
  else .other value

def text : KconfigValue → Text
  | .no => "n"
  | .yes => "y"
  | .mod => "m"
  | .other value => value

@[simp] theorem text_ofText (value : Text) : (ofText value).text = value := by
  unfold ofText
  split
  · next h => exact h.symm
  · split
    · next h => exact h.symm
    · split
      · next h => exact h.symm
      · rfl

theorem ofText_eq_no {value : Text} : ofText value = .no ↔ value = "n" := by
  constructor
  · intro h
    rw [← text_ofText value, h]
    rfl
  · rintro rfl
    rfl

/-- `KConfigEntry.__str__` and `KConfigEntryTristate.__str__`. -/
def entryText (key : Text) : KconfigValue → Text
  | .no => "# CONFIG_" ++ key ++ " is not set"
  | value => "CONFIG_" ++ key ++ ['='] ++ value.text

end KconfigValue

/-! ## Files -/

/-- `KconfigFile`: the entries by the names of the options. -/
abbrev KconfigFile := OrderedDict Text KconfigValue

namespace KconfigFile

/-- `set`. -/
def setValue (d : KconfigFile) (key value : Text) : KconfigFile := d.set key (.ofText value)

/-- What `read` does with a line: it is passed over, or it sets an option. `none` when it
raises. -/
def recognize (line : Text) : Option (Option (Text × Text)) :=
  let line := strip line
  if ("CONFIG_" : Text).isPrefixOf line then
    if line.contains '=' then
      some (some ((line.drop 7).takeWhile (· ≠ '='), ((line.drop 7).dropWhile (· ≠ '=')).tail))
    -- `find` returns -1: the slices are `line[7:-1]` and `line[0:]`
    else some (some ((line.drop 7).dropLast, line))
  -- `line[9:-11]`
  else if ("# CONFIG_" : Text).isPrefixOf line then
    some (some ((line.drop 9).take (line.length - 20), "n"))
  else if ("#" : Text).isPrefixOf line ∨ line = [] then some none
  else none

def readLine (d : KconfigFile) (line : Text) : Option KconfigFile :=
  (recognize line).map fun
    | some (key, value) => d.setValue key value
    | none => d

def readLines (d : KconfigFile) (ls : List Text) : Option KconfigFile := ls.foldlM readLine d

/-- `read`. -/
def read (d : KconfigFile) (f : Text) : Option KconfigFile := readLines d (lines f)

/-- `__str__`. -/
def toText (d : KconfigFile) : Text :=
  List.intercalate ['\n'] (d.entries.map fun p => p.2.entryText p.1) ++ ['\n']

end KconfigFile

/-- The overrides of the command line. -/
structure Overrides where
  dict : OrderedDict Text Text
  isWord : ∀ p ∈ dict.entries, IsWord p.1 ∧ IsWord p.2

namespace Overrides

def empty : Overrides := ⟨OrderedDict.empty, nofun⟩

open Pattern in
/-- `^\s*(\S+)=(\S+)\s*$`. -/
def optionRe : Pattern (Text × Text) := do
  let _ ← run isSpace
  let key ← run1 (!isSpace ·)
  lit "="
  let value ← run1 (!isSpace ·)
  let _ ← run isSpace
  atEnd
  pure (key, value)

theorem isWord_of_mem_optionRe {t : Text} {p : Text × Text} {r : Text}
    (h : (p, r) ∈ optionRe t) : IsWord p.1 ∧ IsWord p.2 := by
  have hword : ∀ {w s s' : Text}, (w, s') ∈ Pattern.run1 (!isSpace ·) s → IsWord w := by
    intro w s s' hw
    obtain ⟨-, hne, hall⟩ := Pattern.mem_run1.mp hw
    exact ⟨hne, fun c hc => by simpa using hall c hc⟩
  obtain ⟨_, _, -, h⟩ := Pattern.mem_bind.mp h
  obtain ⟨key, _, hkey, h⟩ := Pattern.mem_bind.mp h
  obtain ⟨_, _, -, h⟩ := Pattern.mem_bind.mp h
  obtain ⟨value, _, hvalue, h⟩ := Pattern.mem_bind.mp h
  obtain ⟨_, _, -, h⟩ := Pattern.mem_bind.mp h
  obtain ⟨_, _, -, h⟩ := Pattern.mem_bind.mp h
  obtain ⟨rfl, -⟩ := Pattern.mem_pure.mp h
  exact ⟨hword hkey, hword hvalue⟩

/-- `opt_callback_dict`. `none` when it raises. -/
def add (overrides : Overrides) (value : Text) : Option Overrides :=
  match h : Pattern.first optionRe value with
  | some ((key, v), r) => some ⟨overrides.dict.set key v, fun p hp => by
      rcases OrderedDict.mem_setEntries hp with rfl | hp
      · exact isWord_of_mem_optionRe (List.mem_of_head? h)
      · exact overrides.isWord p hp⟩
  | none => none

end Overrides

/-- `merge`: the file that is written for the contents of the files. -/
def kconfigMerge (configs : List Text) (overrides : Overrides) : Option Text :=
  (configs.foldlM KconfigFile.read OrderedDict.empty).map fun kconfig =>
    (overrides.dict.entries.foldl (fun d p => d.setValue p.1 p.2) kconfig).toText

/-! ## What lines set -/

namespace KconfigFile

/-- The settings are made in order. -/
def setAll (d : KconfigFile) (settings : List (Text × Text)) : KconfigFile :=
  settings.foldl (fun d p => d.setValue p.1 p.2) d

theorem setAll_append (d : KconfigFile) (ss ss' : List (Text × Text)) :
    d.setAll (ss ++ ss') = (d.setAll ss).setAll ss' := List.foldl_append

/-- The settings of some lines, with a reader for a line. `none` when it raises. -/
def settings (readLine : Text → Option (Option (Text × Text))) (ls : List Text) :
    Option (List (Text × Text)) :=
  (ls.mapM readLine).map (List.filterMap id)

theorem settings_cons (f : Text → Option (Option (Text × Text))) (l : Text) (ls : List Text) :
    settings f (l :: ls) =
      (f l).bind fun s => (settings f ls).map fun ss => s.toList ++ ss := by
  rw [settings, List.mapM_cons, settings]
  cases f l with
  | none => rfl
  | some s =>
    cases ls.mapM f with
    | none => rfl
    | some ss => cases s <;> rfl

theorem readLines_eq (d : KconfigFile) (ls : List Text) :
    readLines d ls = (settings recognize ls).map d.setAll := by
  induction ls generalizing d with
  | nil => rfl
  | cons l ls ih =>
    rw [readLines, List.foldlM_cons, settings_cons, readLine]
    cases recognize l with
    | none => rfl
    | some s =>
      have hrest := fun d' : KconfigFile => ih d'
      unfold readLines at hrest
      cases s with
      | none =>
        refine (hrest d).trans ?_
        cases settings recognize ls <;> rfl
      | some p =>
        refine (hrest _).trans ?_
        cases settings recognize ls <;> rfl

theorem readLines_append (d : KconfigFile) (ls ls' : List Text) :
    readLines d (ls ++ ls') = (readLines d ls).bind fun d' => readLines d' ls' :=
  List.foldlM_append

/-- Reading files is reading their lines. -/
theorem foldlM_read (d : KconfigFile) (configs : List Text) :
    configs.foldlM read d = readLines d (configs.flatMap lines) := by
  induction configs generalizing d with
  | nil => rfl
  | cons c configs ih =>
    rw [List.foldlM_cons, List.flatMap_cons, readLines_append]
    exact congrArg _ (funext ih)

section

variable {κ ν : Type} [DecidableEq κ]

/-- The last setting of an option. -/
def lastSetting (settings : List (κ × ν)) (key : κ) : Option ν := settings.reverse.lookup key

theorem lastSetting_append (ss ss' : List (κ × ν)) (key : κ) :
    lastSetting (ss ++ ss') key = (lastSetting ss' key).or (lastSetting ss key) := by
  rw [lastSetting, List.reverse_append, List.lookup_append]
  rfl

theorem lastSetting_concat (ss : List (κ × ν)) (k : κ) (v : ν) (key : κ) :
    lastSetting (ss ++ [(k, v)]) key = if key = k then some v else lastSetting ss key := by
  rw [lastSetting, List.reverse_append, List.reverse_singleton, List.singleton_append,
    List.lookup_cons]
  split
  · next h => rw [if_pos (by simpa using h)]
  · next h => rw [if_neg (by simpa using h)]; rfl

theorem lastSetting_eq_none {ss : List (κ × ν)} {key : κ} :
    lastSetting ss key = none ↔ ∀ p ∈ ss, p.1 ≠ key := by
  simp only [lastSetting, List.lookup_eq_none_iff, List.mem_reverse, bne_iff_ne, ne_comm]

theorem mem_of_lastSetting {ss : List (κ × ν)} {key : κ} {v : ν}
    (h : lastSetting ss key = some v) : (key, v) ∈ ss := by
  obtain ⟨l₁, l₂, heq, -⟩ := List.lookup_eq_some_iff.mp h
  exact List.mem_reverse.mp (by rw [heq]; simp)

/-- In a dictionary every option is set once. -/
theorem lastSetting_entries (d : OrderedDict κ ν) (key : κ) :
    lastSetting d.entries key = d.get? key := by
  have hnodup : (d.entries.reverse.map Prod.fst).Nodup := by
    rw [List.map_reverse]
    exact List.nodup_reverse.mpr d.nodup
  have hiff : ∀ v, lastSetting d.entries key = some v ↔ d.get? key = some v := fun v => by
    rw [lastSetting, OrderedDict.lookup_eq_some_iff hnodup, List.mem_reverse,
      OrderedDict.get?_eq_some_iff]
  exact Option.ext hiff

end

theorem get?_setAll (d : KconfigFile) (ss : List (Text × Text)) (key : Text) :
    (d.setAll ss).get? key = ((lastSetting ss key).map .ofText).or (d.get? key) := by
  induction ss using List.reverseRecOn with
  | nil => rfl
  | append_singleton ss p ih =>
    obtain ⟨k, v⟩ := p
    rw [setAll, List.foldl_append, lastSetting_concat]
    show OrderedDict.get? (setValue (d.setAll ss) k v) key = _
    split
    · next h =>
      rw [h, setValue, OrderedDict.get?_set_self]
      rfl
    · next h => rw [setValue, OrderedDict.get?_set_ne _ _ h, ih]

end KconfigFile

/-! ## Reading back -/

/-- The entry is found again in the line that is written for it. -/
def Printable (key : Text) (value : KconfigValue) : Prop :=
  '\n' ∉ key ∧ KconfigValue.ofText value.text = value ∧
    (value = .no ∨ '=' ∉ key ∧ '\n' ∉ value.text ∧
      ∀ c ∈ value.text.getLast?, isSpace c = false)

namespace KconfigLemmas

open KconfigFile

theorem isPrefixOf_append (s t : Text) : s.isPrefixOf (s ++ t) = true :=
  List.isPrefixOf_iff_prefix.mpr (List.prefix_append s t)

theorem entryText_of_ne {key : Text} {value : KconfigValue} (h : value ≠ .no) :
    value.entryText key = "CONFIG_" ++ key ++ ['='] ++ value.text := by
  cases value with
  | no => exact absurd rfl h
  | yes => rfl
  | mod => rfl
  | other v => rfl

/-- A line that sets an option to a value other than n. -/
theorem recognize_config {line key v : Text} (hline : strip line = "CONFIG_" ++ key ++ '=' :: v)
    (hkey : '=' ∉ key) : recognize line = some (some (key, v)) := by
  have hall : ∀ c ∈ key, (c ≠ '=' : Bool) = true := fun c hc =>
    decide_eq_true fun heq => hkey (heq ▸ hc)
  have hdrop : (("CONFIG_" : Text) ++ key ++ '=' :: v).drop 7 = key ++ '=' :: v := rfl
  have htake : (key ++ '=' :: v).takeWhile (· ≠ '=') = key := by
    rw [List.takeWhile_append_of_pos hall]
    simp
  have hrest : ((key ++ '=' :: v).dropWhile (· ≠ '=')).tail = v := by
    rw [List.dropWhile_append_of_pos hall]
    simp
  rw [recognize, hline]
  show (if ("CONFIG_" : Text).isPrefixOf _ then _ else _) = _
  rw [if_pos (by rw [List.append_assoc]; exact isPrefixOf_append _ _),
    if_pos (List.contains_iff_mem.mpr (by simp)), hdrop, htake, hrest]

/-- A line that says that an option is not set. -/
theorem recognize_not_set {line key : Text}
    (hline : strip line = "# CONFIG_" ++ key ++ " is not set") :
    recognize line = some (some (key, ("n" : Text))) := by
  have hslice : ((("# CONFIG_" : Text) ++ key ++ " is not set").drop 9).take
      ((("# CONFIG_" : Text) ++ key ++ " is not set").length - 20) = key := by
    have hlen : (("# CONFIG_" : Text) ++ key ++ " is not set").length - 20 = key.length := by
      simp
    rw [hlen]
    exact @List.take_left Char key " is not set"
  rw [recognize, hline]
  show (if ("CONFIG_" : Text).isPrefixOf _ then _ else
    if ("# CONFIG_" : Text).isPrefixOf _ then _ else _) = _
  rw [if_neg (by rw [List.append_assoc]; exact Bool.false_ne_true),
    if_pos (by rw [List.append_assoc]; exact isPrefixOf_append _ _), hslice]

/-- What is read from the line of a printable entry. -/
theorem recognize_entryText {key : Text} {value : KconfigValue} (h : Printable key value) :
    recognize (value.entryText key ++ ['\n']) = some (some (key, value.text)) ∧
      '\n' ∉ value.entryText key := by
  have hnl : ∀ c ∈ ['\n'], isSpace c = true := by simp [isSpace]
  obtain ⟨hkey, -, hvalue⟩ := h
  by_cases hno : value = .no
  · subst hno
    constructor
    · refine recognize_not_set (strip_append_of_space ?_ ?_ hnl)
      · rintro c ⟨⟩
        rfl
      · show ∀ c ∈ (("# CONFIG_" : Text) ++ key ++ " is not set").getLast?, _
        rw [List.getLast?_append]
        rintro c ⟨⟩
        rfl
    · show '\n' ∉ ("# CONFIG_" : Text) ++ key ++ " is not set"
      simp [hkey]
  · obtain ⟨heq, hline, hlast⟩ := hvalue.resolve_left hno
    rw [entryText_of_ne hno]
    constructor
    · refine recognize_config ?_ heq
      rw [strip_append_of_space _ _ hnl, List.append_assoc]
      · rfl
      · rintro c ⟨⟩
        rfl
      · rw [List.getLast?_append]
        intro c hc
        cases hl : value.text.getLast? with
        | none =>
          rw [hl, Option.none_or, List.getLast?_append] at hc
          cases hc
          rfl
        | some d =>
          rw [hl] at hc hlast
          cases hc
          exact hlast _ rfl
    · simp [hkey, hline]

theorem flatten_intercalate {ls : List Text} (h : ls ≠ []) :
    List.intercalate ['\n'] ls ++ ['\n'] = (ls.map (· ++ ['\n'])).flatten := by
  induction ls with
  | nil => exact absurd rfl h
  | cons l ls ih =>
    cases ls with
    | nil => simp [List.intercalate]
    | cons l' ls =>
      rw [List.map_cons, List.flatten_cons, ← ih (List.cons_ne_nil _ _)]
      simp [List.intercalate]

end KconfigLemmas

open KconfigLemmas

/-- A dictionary of printable entries is read back as it was. -/
theorem KconfigFile.read_toText {d : KconfigFile} (h : ∀ p ∈ d.entries, Printable p.1 p.2) :
    read OrderedDict.empty d.toText = some d := by
  cases hd : d.entries with
  | nil =>
    have hempty : d = OrderedDict.empty := OrderedDict.eq_of_entries hd
    rw [hempty]
    rfl
  | cons p ps =>
    have hlines : lines d.toText = d.entries.map fun p => p.2.entryText p.1 ++ ['\n'] := by
      rw [toText, flatten_intercalate (by simp [hd]), List.map_map]
      refine lines_flatten fun l hl => ?_
      obtain ⟨q, hq, rfl⟩ := List.mem_map.mp hl
      exact ⟨_, (recognize_entryText (h q hq)).2, rfl⟩
    have hsettings : ∀ ps : List (Text × KconfigValue), (∀ p ∈ ps, Printable p.1 p.2) →
        settings recognize (ps.map fun p => p.2.entryText p.1 ++ ['\n']) =
          some (ps.map fun p => (p.1, p.2.text)) := by
      intro ps hps
      induction ps with
      | nil => rfl
      | cons p ps ih =>
        rw [List.map_cons, settings_cons, (recognize_entryText (hps p List.mem_cons_self)).1,
          ih fun q hq => hps q (List.mem_cons_of_mem _ hq)]
        rfl
    rw [read, readLines_eq, hlines, hsettings _ h]
    refine congrArg some (Eq.trans ?_ (OrderedDict.foldl_set_entries d))
    rw [setAll, List.foldl_map]
    refine List.foldl_ext _ _ _ fun d' p hp => ?_
    rw [setValue, (h p hp).2.1]

/-! ## Entries from files -/

namespace KconfigLemmas

open KconfigFile

theorem printable_ofText {key v : Text} (hkey : '\n' ∉ key)
    (h : v = "n" ∨ '=' ∉ key ∧ '\n' ∉ v ∧ ∀ c ∈ v.getLast?, isSpace c = false) :
    Printable key (.ofText v) := by
  refine ⟨hkey, by rw [KconfigValue.text_ofText], ?_⟩
  rw [KconfigValue.text_ofText]
  exact h.imp_left KconfigValue.ofText_eq_no.mpr

/-- What a line sets is printable. -/
theorem printable_of_recognize {file line key v : Text} (hmem : line ∈ lines file)
    (h : recognize line = some (some (key, v))) : Printable key (.ofText v) := by
  have hline := newline_strip hmem
  have hlast := strip_getLast? line
  unfold recognize at h
  simp only at h
  generalize strip line = l at h hline hlast
  have hsub : ∀ {t : Text}, (∀ c ∈ t, c ∈ l) → '\n' ∉ t := fun ht hmem => hline (ht _ hmem)
  split at h
  · split at h
    · -- `CONFIG_X=v`
      cases h
      have hrest : ((l.drop 7).dropWhile (· ≠ '=')).tail <:+ l :=
        ((List.tail_suffix _).trans (List.dropWhile_suffix _)).trans (List.drop_suffix _ _)
      refine printable_ofText (hsub fun c hc => ?_) (.inr ⟨?_, hsub fun c hc => ?_, ?_⟩)
      · exact List.mem_of_mem_drop ((List.takeWhile_sublist _).mem hc)
      · intro hmem
        have := List.mem_takeWhile_imp hmem
        simp at this
      · exact hrest.subset hc
      · intro c hc
        obtain ⟨pre, hpre⟩ := hrest
        refine hlast c ?_
        rw [← hpre, List.getLast?_append]
        rw [Option.mem_def] at hc ⊢
        rw [hc]
        rfl
    · -- no `=` in the line
      next hno =>
      cases h
      have hno' : '=' ∉ v := fun hmem => hno (List.contains_iff_mem.mpr hmem)
      have hkey : ∀ c ∈ (v.drop 7).dropLast, c ∈ v :=
        fun c hc => List.mem_of_mem_drop (List.dropLast_subset _ hc)
      exact printable_ofText (hsub hkey) (.inr ⟨fun hmem => hno' (hkey _ hmem), hline, hlast⟩)
  · split at h
    · cases h
      exact printable_ofText (hsub fun c hc => List.mem_of_mem_drop (List.mem_of_mem_take hc))
        (.inl rfl)
    · split at h <;> cases h

theorem printable_set {d : KconfigFile} (hd : ∀ p ∈ d.entries, Printable p.1 p.2)
    {key : Text} {value : KconfigValue} (h : Printable key value) :
    ∀ p ∈ (d.set key value).entries, Printable p.1 p.2 := by
  intro p hp
  rcases OrderedDict.mem_setEntries hp with rfl | hp
  · exact h
  · exact hd p hp

theorem printable_setAll {d : KconfigFile} (hd : ∀ p ∈ d.entries, Printable p.1 p.2)
    {ss : List (Text × Text)} (h : ∀ p ∈ ss, Printable p.1 (.ofText p.2)) :
    ∀ p ∈ (d.setAll ss).entries, Printable p.1 p.2 := by
  induction ss generalizing d with
  | nil => exact hd
  | cons p ss ih =>
    exact ih (printable_set hd (h p List.mem_cons_self)) fun q hq => h q (List.mem_cons_of_mem _ hq)

/-- A setting of some lines comes from one of them. -/
theorem mem_settings {f : Text → Option (Option (Text × Text))} {ls : List Text}
    {ss : List (Text × Text)} (h : settings f ls = some ss) {p : Text × Text} (hp : p ∈ ss) :
    ∃ l ∈ ls, f l = some (some p) := by
  induction ls generalizing ss with
  | nil =>
    cases h
    cases hp
  | cons l ls ih =>
    rw [settings_cons] at h
    obtain ⟨s, hs, h⟩ := Option.bind_eq_some_iff.mp h
    obtain ⟨ss', hss', rfl⟩ := Option.map_eq_some_iff.mp h
    rcases List.mem_append.mp hp with hp | hp
    · obtain rfl := Option.mem_toList.mp hp
      exact ⟨l, List.mem_cons_self, hs⟩
    · obtain ⟨l', hl', hf⟩ := ih hss' hp
      exact ⟨l', List.mem_cons_of_mem _ hl', hf⟩

end KconfigLemmas

/-- All entries that are read from files are printable. -/
theorem printable_read {d d' : KconfigFile} {configs : List Text}
    (hd : ∀ p ∈ d.entries, Printable p.1 p.2) (h : configs.foldlM KconfigFile.read d = some d') :
    ∀ p ∈ d'.entries, Printable p.1 p.2 := by
  rw [KconfigFile.foldlM_read, KconfigFile.readLines_eq] at h
  obtain ⟨ss, hss, rfl⟩ := Option.map_eq_some_iff.mp h
  refine printable_setAll hd fun p hp => ?_
  obtain ⟨l, hl, hrec⟩ := mem_settings hss hp
  obtain ⟨file, -, hl⟩ := List.mem_flatMap.mp hl
  exact printable_of_recognize hl hrec

end DebianKernel.Debian
