import DebianKernel.Debian.Kconfig

/-!
# Merged kernel configurations

What a merged configuration stands for: every option has the value of its override, or its
last setting in the files, and there are no other options. Lines are understood strictly
here: `CONFIG_X=v` and `# CONFIG_X is not set` are settings, other comments have no effect,
and everything else is an error.

Results:
1. `kconfigMerge_eq`: the file that is written, by the settings that are recognized.
2. `merge_again`: the output of a merge can stand for the files it was made of.
3. `mergeCorrect_iff`: the lines and overrides for which a merge does what it stands for.
-/

namespace DebianKernel.Debian

open Text KconfigFile

/-! ## Strict reading -/

/-- The option of a line `# CONFIG_X is not set`. -/
def notSetOption (line : Text) : Option Text :=
  if ("# CONFIG_" : Text).isPrefixOf line ∧ (" is not set" : Text).isSuffixOf line then
    some ((line.drop 9).take (line.length - 20))
  else none

/-- What a line sets. `none` for a line that is an error. -/
def strictLine (line : Text) : Option (Option (Text × Text)) :=
  let line := strip line
  if ("CONFIG_" : Text).isPrefixOf line then
    if line.contains '=' then
      some (some ((line.drop 7).takeWhile (· ≠ '='), ((line.drop 7).dropWhile (· ≠ '=')).tail))
    else none
  else if ("#" : Text).isPrefixOf line then
    some ((notSetOption line).map fun key => (key, "n"))
  else if line = [] then some none
  else none

/-! ## What a merge stands for -/

/-- The value of an option, with the settings of the files in order. -/
def mergedValue (overrides : Overrides) (ss : List (Text × Text)) (key : Text) :
    Option KconfigValue :=
  ((overrides.dict.get? key).or (lastSetting ss key)).map .ofText

/-- Both results are errors, or files with the same values. -/
def SameValues (out out' : Option Text) : Prop :=
  match out, out' with
  | none, none => True
  | some t, some t' => ∃ d d', KconfigFile.read OrderedDict.empty t = some d ∧
      KconfigFile.read OrderedDict.empty t' = some d' ∧ ∀ key, d.get? key = d'.get? key
  | _, _ => False

structure MergeCorrect (configs : List Text) (overrides : Overrides) : Prop where
  /-- A bad line is an error. Without one, the options of the output are those that are
  set, with their values. -/
  outcome : match settings strictLine (configs.flatMap lines) with
    | none => kconfigMerge configs overrides = none
    | some ss => ∃ out d, kconfigMerge configs overrides = some out ∧
        KconfigFile.read OrderedDict.empty out = some d ∧
        ∀ key, d.get? key = mergedValue overrides ss key
  /-- The first files can be replaced by their merged file. -/
  again : ∀ {first rest : List Text} {out : Text}, configs = first ++ rest →
    kconfigMerge first .empty = some out →
    kconfigMerge (out :: rest) overrides = kconfigMerge configs overrides
  /-- They can be replaced by their merged file with the overrides in it. -/
  againOverrides : ∀ {first rest : List Text} {out : Text}, configs = first ++ rest →
    kconfigMerge first overrides = some out →
    SameValues (kconfigMerge (out :: rest) overrides) (kconfigMerge configs overrides)

/-! ## Lines that are misread -/

/-- The comment is taken for a setting of the option. -/
def Misread (line key : Text) : Prop :=
  strictLine line = some none ∧ ∃ v, recognize line = some (some (key, v))

/-- The line sets the option. -/
def Sets (line key : Text) : Prop := ∃ v, strictLine line = some (some (key, v))

/-- An override, a later setting, or an earlier one with the same result hides what is
misread. -/
def MisreadHidden (ls : List Text) (overrides : Overrides) : Prop :=
  ∀ pre line post key, ls = pre ++ line :: post → Misread line key →
    overrides.dict.get? key ≠ none ∨ (∃ l ∈ post, Sets l key) ∨
      (settings strictLine pre).bind (lastSetting · key) = some ("n" : Text)

/-- The files and overrides for which a merge does what it stands for: there is a line that
no reader accepts; or all lines `CONFIG_…` have a `=`, misread comments are hidden, and no
override of an option with a `=` in its name sets it to anything but n. -/
def MergeSafe (configs : List Text) (overrides : Overrides) : Prop :=
  (∃ line ∈ configs.flatMap lines, recognize line = none) ∨
    (∀ line ∈ configs.flatMap lines,
      ("CONFIG_" : Text).isPrefixOf (strip line) = true → '=' ∈ strip line) ∧
    MisreadHidden (configs.flatMap lines) overrides ∧
    ∀ p ∈ overrides.dict.entries, '=' ∈ p.1 → p.2 = "n"

/-! ## The two readers of a line -/

namespace KconfigLemmas

/-- How the two readers of a line differ: a misread comment sets an option to n, and a
line `CONFIG_…` without `=` is accepted. -/
theorem line_cases (line : Text) :
    recognize line = strictLine line ∨
      (∃ key, recognize line = some (some (key, ("n" : Text))) ∧ strictLine line = some none) ∨
      (∃ p, recognize line = some (some p)) ∧ strictLine line = none ∧
        ("CONFIG_" : Text).isPrefixOf (strip line) = true ∧ '=' ∉ strip line := by
  unfold recognize strictLine
  simp only
  generalize strip line = l
  split
  · next hconfig =>
    split
    · exact .inl rfl
    · next hno => exact .inr (.inr ⟨⟨_, rfl⟩, rfl, hconfig, fun h => hno (by simpa using h)⟩)
  · split
    · next hconfig =>
      obtain ⟨t, rfl⟩ := List.isPrefixOf_iff_prefix.mp hconfig
      rw [if_pos (by rfl)]
      unfold notSetOption
      split
      · exact .inl rfl
      · exact .inr (.inl ⟨_, rfl, rfl⟩)
    · next hconfig =>
      split
      · next h =>
        rcases h with h | rfl
        · rw [if_pos h, notSetOption, if_neg fun h => hconfig h.1]
          exact .inl rfl
        · exact .inl rfl
      · next h =>
        rw [not_or] at h
        rw [if_neg h.1, if_neg h.2]
        exact .inl rfl

theorem settings_append (f : Text → Option (Option (Text × Text))) (ls ls' : List Text) :
    settings f (ls ++ ls') =
      (settings f ls).bind fun ss => (settings f ls').map fun ss' => ss ++ ss' := by
  induction ls with
  | nil =>
    show _ = (some []).bind _
    rw [Option.bind_some, List.nil_append]
    cases settings f ls' <;> rfl
  | cons l ls ih =>
    rw [List.cons_append, settings_cons, settings_cons, ih]
    cases f l with
    | none => rfl
    | some s =>
      cases settings f ls with
      | none => rfl
      | some ss => cases settings f ls' <;> simp

theorem settings_eq_none {f : Text → Option (Option (Text × Text))} {ls : List Text} :
    settings f ls = none ↔ ∃ l ∈ ls, f l = none := by
  induction ls with
  | nil => exact iff_of_false nofun nofun
  | cons l ls ih =>
    rw [settings_cons]
    cases hl : f l with
    | none => exact iff_of_true rfl ⟨l, List.mem_cons_self, hl⟩
    | some s =>
      rw [Option.bind_some, Option.map_eq_none_iff, ih]
      simp [hl]

/-- An option that no line sets has no last setting. -/
theorem lastSetting_of_no_line {f : Text → Option (Option (Text × Text))} {ls : List Text}
    {ss : List (Text × Text)} (h : settings f ls = some ss) {key : Text}
    (hno : ∀ l ∈ ls, ∀ v, f l ≠ some (some (key, v))) : lastSetting ss key = none := by
  refine lastSetting_eq_none.mpr ?_
  rintro p hp rfl
  obtain ⟨l, hl, hf⟩ := mem_settings h hp
  exact hno l hl _ hf

end KconfigLemmas

/-! ## The file that is written -/

/-- The dictionary of a merge. -/
def mergedDict (configs : List Text) (overrides : Overrides) : Option KconfigFile :=
  (settings recognize (configs.flatMap lines)).map fun ss =>
    (setAll OrderedDict.empty ss).setAll overrides.dict.entries

theorem kconfigMerge_eq (configs : List Text) (overrides : Overrides) :
    kconfigMerge configs overrides = (mergedDict configs overrides).map toText := by
  rw [kconfigMerge, foldlM_read, readLines_eq, mergedDict, Option.map_map, Option.map_map]
  rfl

namespace KconfigLemmas

theorem get?_merged (overrides : Overrides) (d : KconfigFile) (key : Text) :
    (d.setAll overrides.dict.entries).get? key =
      ((overrides.dict.get? key).map .ofText).or (d.get? key) := by
  rw [get?_setAll, lastSetting_entries]

theorem get?_merged_settings (overrides : Overrides) (ss : List (Text × Text)) (key : Text) :
    ((setAll OrderedDict.empty ss).setAll overrides.dict.entries).get? key =
      mergedValue overrides ss key := by
  rw [get?_merged, get?_setAll, mergedValue]
  cases overrides.dict.get? key with
  | some v => rfl
  | none => cases lastSetting ss key <;> rfl

theorem printable_empty : ∀ p ∈ (OrderedDict.empty : KconfigFile).entries, Printable p.1 p.2 :=
  nofun

theorem printable_settings {configs : List Text} {ss : List (Text × Text)}
    (h : settings recognize (configs.flatMap lines) = some ss) :
    ∀ p ∈ (setAll OrderedDict.empty ss).entries, Printable p.1 p.2 := by
  refine printable_read printable_empty (?_ : configs.foldlM KconfigFile.read OrderedDict.empty = _)
  rw [foldlM_read, readLines_eq, h]
  rfl

/-- The overrides can be read back if a `=` in a name goes with the value n. -/
theorem printable_overrides {overrides : Overrides}
    (hkeys : ∀ p ∈ overrides.dict.entries, '=' ∈ p.1 → p.2 = "n") {d : KconfigFile}
    (hd : ∀ p ∈ d.entries, Printable p.1 p.2) :
    ∀ p ∈ (d.setAll overrides.dict.entries).entries, Printable p.1 p.2 := by
  refine printable_setAll hd fun p hp => ?_
  obtain ⟨hkey, hvalue⟩ := overrides.isWord p hp
  have hline : ∀ {w : Text}, IsWord w → '\n' ∉ w := fun hw hmem => by
    have := hw.2 _ hmem
    cases this
  refine printable_ofText (hline hkey) ?_
  by_cases heq : '=' ∈ p.1
  · exact .inl (hkeys p hp heq)
  · exact .inr ⟨heq, hline hvalue, fun c hc => hvalue.2 c (List.mem_of_getLast? hc)⟩

theorem kconfigMerge_cons {out : Text} {overrides : Overrides}
    {d : KconfigFile} (hread : KconfigFile.read OrderedDict.empty out = some d)
    (rest : List Text) :
    kconfigMerge (out :: rest) overrides = (settings recognize (rest.flatMap lines)).map fun ss =>
      ((d.setAll ss).setAll overrides.dict.entries).toText := by
  rw [kconfigMerge, List.foldlM_cons, hread]
  show (rest.foldlM KconfigFile.read d).map _ = _
  rw [foldlM_read, readLines_eq, Option.map_map]
  rfl

end KconfigLemmas

open KconfigLemmas

/-- The output of a merge can stand for the files it was made of. -/
theorem merge_again {first rest : List Text} {out : Text} {overrides : Overrides}
    (h : kconfigMerge first .empty = some out) :
    kconfigMerge (out :: rest) overrides = kconfigMerge (first ++ rest) overrides := by
  rw [kconfigMerge_eq, mergedDict, Option.map_map] at h
  obtain ⟨ss, hss, hout⟩ := Option.map_eq_some_iff.mp h
  obtain rfl : toText (setAll OrderedDict.empty ss) = out := hout
  have hread : KconfigFile.read OrderedDict.empty (toText (setAll OrderedDict.empty ss)) =
      some (setAll OrderedDict.empty ss) := read_toText (printable_settings hss)
  rw [kconfigMerge_cons hread, kconfigMerge_eq, mergedDict, List.flatMap_append,
    settings_append, hss, Option.bind_some, Option.map_map, Option.map_map]
  refine congrArg (Option.map · _) (funext fun ss' => ?_)
  show _ = toText ((setAll OrderedDict.empty (ss ++ ss')).setAll _)
  rw [setAll_append]

/-- With the overrides already in it, the values are still the same. -/
theorem merge_again_overrides {first rest : List Text} {out : Text} {overrides : Overrides}
    (hkeys : ∀ p ∈ overrides.dict.entries, '=' ∈ p.1 → p.2 = "n")
    (h : kconfigMerge first overrides = some out) :
    SameValues (kconfigMerge (out :: rest) overrides) (kconfigMerge (first ++ rest) overrides) := by
  rw [kconfigMerge_eq, mergedDict, Option.map_map] at h
  obtain ⟨ss, hss, hout⟩ := Option.map_eq_some_iff.mp h
  have hprint := printable_settings hss
  have hread := read_toText (printable_overrides hkeys hprint)
  obtain rfl : toText ((setAll OrderedDict.empty ss).setAll overrides.dict.entries) = out := hout
  rw [kconfigMerge_cons hread, kconfigMerge_eq, mergedDict, List.flatMap_append, settings_append,
    hss, Option.bind_some, Option.map_map, Option.map_map]
  cases hrest : settings recognize (rest.flatMap lines) with
  | none => trivial
  | some ss' =>
    have hall : settings recognize ((first ++ rest).flatMap lines) = some (ss ++ ss') := by
      rw [List.flatMap_append, settings_append, hss, hrest]
      rfl
    have hss' : ∀ p ∈ ss', Printable p.1 (.ofText p.2) := by
      intro p hp
      obtain ⟨l, hl, hrec⟩ := mem_settings hrest hp
      obtain ⟨file, -, hl⟩ := List.mem_flatMap.mp hl
      exact printable_of_recognize hl hrec
    refine ⟨_, _, read_toText (printable_overrides hkeys
      (printable_setAll (printable_overrides hkeys hprint) hss')),
      read_toText (printable_overrides hkeys (printable_settings hall)), fun key => ?_⟩
    rw [get?_merged, get?_setAll, get?_merged, get?_merged, setAll_append, get?_setAll _ ss']
    cases overrides.dict.get? key <;> cases lastSetting ss' key <;> rfl

/-! ## When the values are the expected ones -/

namespace KconfigLemmas

theorem misread_iff {line key : Text} :
    Misread line key ↔ strictLine line = some none ∧
      recognize line = some (some (key, ("n" : Text))) := by
  refine and_congr_right fun hstrict => ⟨?_, fun h => ⟨_, h⟩⟩
  rintro ⟨v, hv⟩
  rcases line_cases line with h | ⟨key', hrec, -⟩ | ⟨-, hnone, -⟩
  · rw [h, hstrict] at hv
    cases hv
  · rw [hrec] at hv
    cases hv
    exact hrec
  · rw [hstrict] at hnone
    cases hnone

/-- Lines that both readers accept: they agree, or one misreads a comment. -/
theorem accepted_cases {line : Text} {s s' : Option (Text × Text)}
    (hs : recognize line = some s) (hs' : strictLine line = some s') :
    s = s' ∨ ∃ key, s = some (key, ("n" : Text)) ∧ s' = none ∧ Misread line key := by
  rcases line_cases line with h | ⟨key, hrec, hstrict⟩ | ⟨-, hnone, -⟩
  · rw [hs, hs'] at h
    exact .inl (Option.some.inj h)
  · have hmis := misread_iff.mpr ⟨hstrict, hrec⟩
    rw [hs] at hrec
    rw [hs'] at hstrict
    exact .inr ⟨key, Option.some.inj hrec, Option.some.inj hstrict, hmis⟩
  · rw [hs'] at hnone
    cases hnone

/-- The last settings agree at the end if what is misread is hidden. They agree at the
start, or a later line sets the option anyway. -/
theorem lastSetting_agree {key : Text} {ls : List Text} {cs ps : List (Text × Text)}
    (hcs : settings recognize ls = some cs) (hps : settings strictLine ls = some ps)
    (c₀ p₀ : List (Text × Text))
    (hstart : lastSetting c₀ key = lastSetting p₀ key ∨ ∃ l ∈ ls, Sets l key)
    (hhidden : ∀ pre line post, ls = pre ++ line :: post → Misread line key →
      (∃ l ∈ post, Sets l key) ∨
        (settings strictLine pre).bind (fun ps => lastSetting (p₀ ++ ps) key) = some ("n" : Text)) :
    lastSetting (c₀ ++ cs) key = lastSetting (p₀ ++ ps) key := by
  induction ls generalizing cs ps c₀ p₀ with
  | nil =>
    cases hcs
    cases hps
    show lastSetting (c₀ ++ []) key = lastSetting (p₀ ++ []) key
    rw [List.append_nil, List.append_nil]
    exact hstart.resolve_right nofun
  | cons l ls ih =>
    rw [settings_cons] at hcs hps
    obtain ⟨s, hs, hcs⟩ := Option.bind_eq_some_iff.mp hcs
    obtain ⟨cs', hcs', rfl⟩ := Option.map_eq_some_iff.mp hcs
    obtain ⟨s', hs', hps⟩ := Option.bind_eq_some_iff.mp hps
    obtain ⟨ps', hps', rfl⟩ := Option.map_eq_some_iff.mp hps
    rw [← List.append_assoc, ← List.append_assoc]
    refine ih hcs' hps' (c₀ ++ s.toList) (p₀ ++ s'.toList) ?_ ?_
    · rcases accepted_cases hs hs' with rfl | ⟨k, rfl, rfl, hmis⟩
      · cases s with
        | none =>
          simp only [Option.toList_none, List.append_nil]
          refine hstart.imp_right ?_
          rintro ⟨l', hl', v, hv⟩
          rcases List.mem_cons.mp hl' with rfl | hl'
          · rw [hs'] at hv
            cases hv
          · exact ⟨l', hl', v, hv⟩
        | some p =>
          obtain ⟨k, v⟩ := p
          simp only [Option.toList_some, lastSetting_concat]
          split
          · exact .inl rfl
          · next hk =>
            refine hstart.imp_right ?_
            rintro ⟨l', hl', w, hw⟩
            rcases List.mem_cons.mp hl' with rfl | hl'
            · rw [hs'] at hw
              cases hw
              exact absurd rfl hk
            · exact ⟨l', hl', w, hw⟩
      · simp only [Option.toList_some, Option.toList_none, List.append_nil, lastSetting_concat]
        split
        · next hk =>
          subst hk
          refine (hhidden [] l ls rfl hmis).symm.imp_left fun h => ?_
          have hp₀ : lastSetting (p₀ ++ []) key = some ("n" : Text) := h
          rw [List.append_nil] at hp₀
          exact hp₀.symm
        · refine hstart.imp_right ?_
          rintro ⟨l', hl', w, hw⟩
          rcases List.mem_cons.mp hl' with rfl | hl'
          · rw [hs'] at hw
            cases hw
          · exact ⟨l', hl', w, hw⟩
    · intro pre line post hsplit hmis
      refine (hhidden (l :: pre) line post (by rw [hsplit]; rfl) hmis).imp_right ?_
      rw [settings_cons, hs', Option.bind_some]
      cases settings strictLine pre with
      | none => exact id
      | some ps => simp

end KconfigLemmas

/-! ## The condition -/

namespace KconfigLemmas

/-- What is expected is what is written, if the last settings agree. -/
theorem hidden_of_agree {ls : List Text} {overrides : Overrides} {cs ps : List (Text × Text)}
    (hcs : settings recognize ls = some cs) (hps : settings strictLine ls = some ps)
    (h : ∀ key, mergedValue overrides cs key = mergedValue overrides ps key) :
    MisreadHidden ls overrides := by
  intro pre line post key hsplit hmis
  by_cases hover : overrides.dict.get? key = none
  · refine .inr (or_iff_not_imp_left.mpr fun hno => ?_)
    have hlast : lastSetting cs key = lastSetting ps key := by
      have := h key
      rw [mergedValue, mergedValue, hover, Option.none_or, Option.none_or] at this
      have htext := congrArg (Option.map KconfigValue.text) this
      rw [Option.map_map, Option.map_map] at htext
      have hid : KconfigValue.text ∘ KconfigValue.ofText = id :=
        funext KconfigValue.text_ofText
      rwa [hid, Option.map_id_fun, id, id] at htext
    subst hsplit
    rw [settings_append] at hcs hps
    obtain ⟨cpre, hcpre, hcs⟩ := Option.bind_eq_some_iff.mp hcs
    obtain ⟨cpost, hcpost, rfl⟩ := Option.map_eq_some_iff.mp hcs
    obtain ⟨ppre, hppre, hps⟩ := Option.bind_eq_some_iff.mp hps
    obtain ⟨ppost, hppost, rfl⟩ := Option.map_eq_some_iff.mp hps
    have hnone : lastSetting ppost key = none := by
      refine lastSetting_of_no_line hppost fun l hl v hv => ?_
      rcases List.mem_cons.mp hl with rfl | hl
      · rw [hmis.1] at hv
        cases hv
      · exact hno ⟨l, hl, v, hv⟩
    have hsome : lastSetting cpost key = some ("n" : Text) := by
      -- the line sets the option to n, and so does every later line that sets it
      have hset : (key, ("n" : Text)) ∈ cpost := by
        obtain ⟨-, hrec⟩ := misread_iff.mp hmis
        rw [settings_cons, hrec] at hcpost
        obtain ⟨_, -, rfl⟩ := Option.map_eq_some_iff.mp hcpost
        exact List.mem_cons_self
      cases hl : lastSetting cpost key with
      | none => exact absurd rfl (lastSetting_eq_none.mp hl _ hset)
      | some v =>
        obtain ⟨l, hl, hrec⟩ := mem_settings hcpost (mem_of_lastSetting hl)
        have hstrict : strictLine l ≠ none :=
          fun h => by rw [settings_eq_none.mpr ⟨l, hl, h⟩] at hppost; cases hppost
        obtain ⟨s', hs'⟩ := Option.ne_none_iff_exists'.mp hstrict
        rcases accepted_cases hrec hs' with rfl | ⟨k, heq, -, -⟩
        · rcases List.mem_cons.mp hl with rfl | hl
          · rw [hmis.1] at hs'
            cases hs'
          · exact absurd ⟨l, hl, v, hs'⟩ hno
        · cases heq
          rfl
    rw [lastSetting_append, lastSetting_append, hsome, hnone, Option.none_or] at hlast
    rw [hppre]
    exact hlast.symm
  · exact .inl hover

theorem agree_of_hidden {ls : List Text} {overrides : Overrides} {cs ps : List (Text × Text)}
    (hcs : settings recognize ls = some cs) (hps : settings strictLine ls = some ps)
    (h : MisreadHidden ls overrides) (key : Text) :
    mergedValue overrides cs key = mergedValue overrides ps key := by
  rw [mergedValue, mergedValue]
  cases hover : overrides.dict.get? key with
  | some v => rfl
  | none =>
    rw [Option.none_or, Option.none_or]
    refine congrArg _ (lastSetting_agree hcs hps [] [] (.inl rfl) ?_)
    intro pre line post hsplit hmis
    exact (h pre line post key hsplit hmis).resolve_left fun hne => hne hover

end KconfigLemmas

/-- A line that no reader accepts is an error in every merge. -/
theorem mergeCorrect_of_error {configs : List Text} {overrides : Overrides}
    (h : ∃ line ∈ configs.flatMap lines, recognize line = none) :
    MergeCorrect configs overrides := by
  have hnone := settings_eq_none.mpr h
  have hmerge : kconfigMerge configs overrides = none := by
    rw [kconfigMerge_eq, mergedDict, hnone]
    rfl
  refine ⟨?_, fun heq h => by rw [heq]; exact merge_again h, ?_⟩
  · obtain ⟨line, hline, hbad⟩ := h
    have hstrict : strictLine line = none := by
      rcases line_cases line with h | ⟨key, hrec, -⟩ | ⟨⟨p, hrec⟩, -⟩
      · rw [← h, hbad]
      · rw [hbad] at hrec
        cases hrec
      · rw [hbad] at hrec
        cases hrec
    rw [settings_eq_none.mpr ⟨line, hline, hstrict⟩]
    exact hmerge
  · rintro first rest out rfl hout
    have hrest : settings recognize (rest.flatMap lines) = none := by
      rw [kconfigMerge_eq, mergedDict, Option.map_map] at hout
      obtain ⟨ss, hss, -⟩ := Option.map_eq_some_iff.mp hout
      rw [List.flatMap_append, settings_append, hss] at hnone
      exact Option.map_eq_none_iff.mp hnone
    have hagain : kconfigMerge (out :: rest) overrides = none := by
      rw [kconfigMerge_eq, mergedDict, List.flatMap_cons, settings_append, hrest]
      cases settings recognize (lines out) <;> rfl
    rw [hagain, hmerge]
    trivial

theorem mergeCorrect_of_hidden {configs : List Text} {overrides : Overrides}
    (hgood : ¬ ∃ line ∈ configs.flatMap lines, recognize line = none)
    (hconfig : ∀ line ∈ configs.flatMap lines,
      ("CONFIG_" : Text).isPrefixOf (strip line) = true → '=' ∈ strip line)
    (hhidden : MisreadHidden (configs.flatMap lines) overrides)
    (hkeys : ∀ p ∈ overrides.dict.entries, '=' ∈ p.1 → p.2 = "n") :
    MergeCorrect configs overrides := by
  refine ⟨?_, fun heq h => by rw [heq]; exact merge_again h,
    fun heq h => by rw [heq]; exact merge_again_overrides hkeys h⟩
  obtain ⟨cs, hcs⟩ := Option.ne_none_iff_exists'.mp fun h => hgood (settings_eq_none.mp h)
  have hstrict : settings strictLine (configs.flatMap lines) ≠ none := by
    intro h
    obtain ⟨line, hline, hbad⟩ := settings_eq_none.mp h
    rcases line_cases line with heq | ⟨key, -, hs⟩ | ⟨-, -, hpre, hno⟩
    · exact hgood ⟨line, hline, heq.trans hbad⟩
    · rw [hbad] at hs
      cases hs
    · exact hno (hconfig line hline hpre)
  obtain ⟨ps, hps⟩ := Option.ne_none_iff_exists'.mp hstrict
  rw [hps]
  refine ⟨_, _, by rw [kconfigMerge_eq, mergedDict, hcs]; rfl,
    read_toText (printable_overrides hkeys (printable_settings hcs)), fun key => ?_⟩
  rw [get?_merged_settings, agree_of_hidden hcs hps hhidden]

/-- A merge does what it stands for if and only if no line or override gets in its way. -/
theorem mergeCorrect_iff (configs : List Text) (overrides : Overrides) :
    MergeCorrect configs overrides ↔ MergeSafe configs overrides := by
  constructor
  · intro h
    have houtcome := h.outcome
    cases hps : settings strictLine (configs.flatMap lines) with
    | none =>
      rw [hps] at houtcome
      rw [kconfigMerge_eq, mergedDict, Option.map_map] at houtcome
      exact .inl (settings_eq_none.mp (Option.map_eq_none_iff.mp houtcome))
    | some ps =>
      rw [hps] at houtcome
      obtain ⟨out, d, hout, hread, hvalues⟩ := houtcome
      have hstrict : ∀ l ∈ configs.flatMap lines, strictLine l ≠ none := fun l hl hnone => by
        rw [settings_eq_none.mpr ⟨l, hl, hnone⟩] at hps
        cases hps
      -- what is read back is printable, and so are the overrides
      have hkeys : ∀ p ∈ overrides.dict.entries, '=' ∈ p.1 → p.2 = "n" := by
        intro p hp heq
        have hget : d.get? p.1 = some (.ofText p.2) := by
          rw [hvalues, mergedValue, (OrderedDict.get?_eq_some_iff _).mpr hp]
          rfl
        have hprint : ∀ q ∈ d.entries, Printable q.1 q.2 :=
          have hfold : [out].foldlM KconfigFile.read OrderedDict.empty = some d := by
            rw [List.foldlM_cons, hread]
            rfl
          printable_read printable_empty hfold
        have hp' := (hprint _ ((OrderedDict.get?_eq_some_iff _).mp hget)).2.2
        exact KconfigValue.ofText_eq_no.mp (hp'.resolve_right fun h => h.1 heq)
      rw [kconfigMerge_eq, mergedDict, Option.map_map] at hout
      obtain ⟨cs, hcs, rfl⟩ := Option.map_eq_some_iff.mp hout
      refine .inr ⟨?_, ?_, hkeys⟩
      · intro l hl hconfig
        by_contra hno
        refine hstrict l hl ?_
        rw [strictLine]
        simp only [hconfig, if_true]
        exact if_neg fun h => hno (List.contains_iff_mem.mp h)
      · refine hidden_of_agree hcs hps fun key => ?_
        have hback := read_toText (printable_overrides hkeys (printable_settings hcs))
        have hd : some d = some _ := hread.symm.trans hback
        rw [← hvalues, Option.some.inj hd, get?_merged_settings]
  · intro h
    by_cases hbad : ∃ line ∈ configs.flatMap lines, recognize line = none
    · exact mergeCorrect_of_error hbad
    · obtain ⟨hconfig, hhidden, hkeys⟩ := h.resolve_left hbad
      exact mergeCorrect_of_hidden hbad hconfig hhidden hkeys

/-- A remark about an option turns it off. -/
theorem remark_turns_option_off :
    kconfigMerge ["CONFIG_USB=y\n# CONFIG_USB is enabled\n"] .empty =
        some ("# CONFIG_USB is not set\n" : Text) ∧
      ¬ MergeCorrect ["CONFIG_USB=y\n# CONFIG_USB is enabled\n"] .empty := by
  have hmerge : kconfigMerge ["CONFIG_USB=y\n# CONFIG_USB is enabled\n"] .empty =
      some ("# CONFIG_USB is not set\n" : Text) := by decide
  refine ⟨hmerge, fun h => ?_⟩
  have hstrict : settings strictLine (lines "CONFIG_USB=y\n# CONFIG_USB is enabled\n") =
      some [(("USB" : Text), ("y" : Text))] := by decide
  have houtcome := h.outcome
  rw [List.flatMap_singleton, hstrict] at houtcome
  obtain ⟨out, d, hout, hread, hvalues⟩ := houtcome
  obtain rfl := Option.some.inj (hmerge.symm.trans hout)
  have hback : (KconfigFile.read OrderedDict.empty "# CONFIG_USB is not set\n").map
      (fun d : KconfigFile => OrderedDict.get? d ("USB" : Text)) = some (some .no) := by decide
  rw [hread, Option.map_some, hvalues] at hback
  exact absurd hback (by decide)

end DebianKernel.Debian
