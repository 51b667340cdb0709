import DebianKernel.Debian.KconfigMerge
import DebianKernel.Lib.SortedMap
import DebianKernel.Lib.Split
import Mathlib.Data.Char
import Mathlib.Data.List.Lex

/-!
# The kernel configuration tool

`kconfig.ml`, which reads the files that `debian_linux/kconfig.py` reads, and tells what two
configurations differ in.

Results:
1. `find?_foldl_addLine`: what is in a configuration that was read.
2. `kconfig_readers_agree_iff`: the files of which both readers make the same configuration.
3. `diffConfigs_exact`: what the diff of two configurations is.
-/

namespace DebianKernel.Debian

open Text

/-! ## Reading -/

namespace KconfigMl

/-- `options`. -/
inductive Options
  | yes (s : Text)
  | no (s : Text)
  | module (s : Text)
  | value (s v : Text)
  | comment (s : Text)
  | empty
  deriving DecidableEq

/-- `String.sub line 1 (len - 1)`. -/
def commentOf (line : Text) : Options := .comment line.tail

/-- The line starts with `# CONFIG_`. The search for a blank starts behind it, and ends with
`Not_found` when there is none; `String.sub` fails when less than ten characters are left. -/
def parseNotSet (line : Text) : Options :=
  let o := (line.drop 9).takeWhile (· ≠ ' ')
  let rest := ((line.drop 9).dropWhile (· ≠ ' ')).tail
  if rest.take 10 = "is not set" then .no o else commentOf line

/-- The line starts with `CONFIG`, and the search for the `=` starts behind that. The name
is one character further on, so `String.sub` fails for `CONFIG=`. -/
def parseSet (line : Text) : Options :=
  if (line.drop 6).head? = some '=' ∨ '=' ∉ line.drop 7 then commentOf line
  else
    let o := (line.drop 7).takeWhile (· ≠ '=')
    let v := ((line.drop 7).dropWhile (· ≠ '=')).tail
    if v = "y" then .yes o else if v = "m" then .module o else .value o v

/-- `parse_config_line`, for the line that `input_line` returns. -/
def parseConfigLine (line : Text) : Options :=
  if line = [] then .empty
  else if line.length ≤ 9 then commentOf line
  else if ("# CONFIG_" : Text).isPrefixOf line then parseNotSet line
  else if ("#" : Text).isPrefixOf line then commentOf line
  else if ("CONFIG" : Text).isPrefixOf line then parseSet line
  else commentOf line

/-- A configuration, `options C.t`. -/
abbrev Config := SortedMap Text Options

/-- What `parse_config` does with a line. -/
def addLine (m : Config) (line : Text) : Config :=
  match parseConfigLine line with
  | .comment _ | .empty => m
  | .yes s => m.insert s (.yes s)
  | .no s => m.insert s (.no s)
  | .module s => m.insert s (.module s)
  | .value s v => m.insert s (.value s v)

/-- The lines as `input_line` returns them. -/
def inputLines (f : Text) : List Text := (lines f).map (·.takeWhile (· ≠ '\n'))

/-- `parse_config`. -/
def parseConfig (m : Config) (f : Text) : Config := (inputLines f).foldl addLine m

/-! ## The same configuration -/

/-- The state of an option. A comment is none. -/
def Options.state : Options → Option KconfigValue
  | .yes _ => some .yes
  | .no _ => some .no
  | .module _ => some .mod
  | .value _ v => some (.ofText v)
  | .comment _ => none
  | .empty => none

/-- `kconfig.py` reads the files, and finds the same options in the same states. -/
def SameConfiguration (fragments : List Text) : Prop :=
  ∃ d, fragments.foldlM KconfigFile.read OrderedDict.empty = some d ∧
    ∀ key, ((fragments.foldl parseConfig SortedMap.empty).find? key).map Options.state =
      (d.get? key).map some

/-- The name of an option: letters, digits and underscores, at least one. -/
def IsIdentifier (x : Text) : Prop := x ≠ [] ∧ ∀ c ∈ x, (c.isAlphanum || c = '_') = true

/-- The lines that a fragment is made of. -/
structure FragmentLine (line : Text) : Prop where
  trimmed : Trimmed line
  form : line = [] ∨
    (∃ x v, IsIdentifier x ∧ line = "CONFIG_" ++ x ++ '=' :: v) ∨
    (∃ x, IsIdentifier x ∧ line = "# CONFIG_" ++ x ++ " is not set") ∨
    (line.head? = some '#' ∧ ("# CONFIG_" : Text).isPrefixOf line = false)

def IsFragment (f : Text) : Prop := ∀ line ∈ inputLines f, FragmentLine line

/-- What the lines of the fragments set, in order. -/
def fragmentSettings (fragments : List Text) : List (Text × Text) :=
  (fragments.flatMap lines).filterMap fun line => (strictLine line).join

namespace KconfigMlLemmas

open KconfigFile KconfigLemmas

/-- The name and the state. A comment has none. -/
def optionSetting : Options → Option (Text × KconfigValue)
  | .yes s => some (s, .yes)
  | .no s => some (s, .no)
  | .module s => some (s, .mod)
  | .value s v => some (s, .ofText v)
  | .comment _ => none
  | .empty => none

/-- What a line sets. -/
def setting (line : Text) : Option (Text × KconfigValue) := optionSetting (parseConfigLine line)

theorem addLine_of_none {m : Config} {line : Text} (h : setting line = none) :
    addLine m line = m := by
  rw [setting] at h
  rw [addLine]
  cases hp : parseConfigLine line with
  | comment s => rfl
  | empty => rfl
  | _ => rw [hp] at h; cases h

theorem addLine_of_some {m : Config} {line s : Text} {v : KconfigValue}
    (h : setting line = some (s, v)) :
    ∃ o : Options, addLine m line = m.insert s o ∧ o.state = some v := by
  rw [setting] at h
  rw [addLine]
  cases hp : parseConfigLine line with
  | comment s => rw [hp] at h; cases h
  | empty => rw [hp] at h; cases h
  | _ => rw [hp] at h; cases h; exact ⟨_, rfl, rfl⟩

/-- The configuration that lines make: the last setting of each option. -/
theorem find?_foldl_addLine (ls : List Text) (key : Text) :
    ((ls.foldl addLine SortedMap.empty).find? key).map Options.state =
      (lastSetting (ls.filterMap setting) key).map some := by
  induction ls using List.reverseRecOn with
  | nil => rfl
  | append_singleton ls l ih =>
    rw [List.foldl_append, List.foldl_cons, List.foldl_nil, List.filterMap_append]
    cases hs : setting l with
    | none =>
      rw [addLine_of_none hs, ih, List.filterMap_cons, hs, List.filterMap_nil, List.append_nil]
    | some p =>
      obtain ⟨s, v⟩ := p
      obtain ⟨o, hadd, hstate⟩ := addLine_of_some (m := ls.foldl addLine SortedMap.empty) hs
      rw [hadd, List.filterMap_cons, hs, List.filterMap_nil]
      dsimp only
      rw [lastSetting_concat]
      split
      · next h => rw [h, SortedMap.find?_insert_self, Option.map_some, hstate, Option.map_some]
      · next h => rw [SortedMap.find?_insert_ne _ _ h, ih]

theorem foldl_parseConfig (fragments : List Text) (m : Config) :
    fragments.foldl parseConfig m = (fragments.flatMap inputLines).foldl addLine m := by
  induction fragments generalizing m with
  | nil => rfl
  | cons f fragments ih =>
    rw [List.foldl_cons, ih, List.flatMap_cons, List.foldl_append]
    rfl

/-! ### One line -/

/-- The line that sets an option of a one-character name to nothing, for which the length
guard is one too high. -/
def Dropped (s : Option (Text × Text)) : Prop := ∃ x : Text, x.length = 1 ∧ s = some (x, [])

theorem takeWhile_identifier {x r : Text} {d : Char} (hx : IsIdentifier x)
    (hd : (d.isAlphanum || d = '_') = false) :
    (x ++ d :: r).takeWhile (· ≠ d) = x ∧ (x ++ d :: r).dropWhile (· ≠ d) = d :: r := by
  have hall : ∀ c ∈ x, decide (c ≠ d) = true := by
    intro c hc
    refine decide_eq_true ?_
    rintro rfl
    rw [hx.2 c hc] at hd
    cases hd
  constructor
  · rw [List.takeWhile_append_of_pos hall]
    simp
  · rw [List.dropWhile_append_of_pos hall]
    simp

/-- What both readers find in a line that sets an option. -/
theorem setting_config {x v : Text} (hx : IsIdentifier x) :
    (x.length = 1 ∧ v = [] ∧ setting ("CONFIG_" ++ x ++ '=' :: v) = none) ∨
      (¬ (x.length = 1 ∧ v = []) ∧
        setting ("CONFIG_" ++ x ++ '=' :: v) = some (x, .ofText v)) := by
  have hlen : (("CONFIG_" : Text) ++ x ++ '=' :: v).length = 8 + x.length + v.length := by
    simp only [List.length_append, List.length_cons]
    show 7 + x.length + (v.length + 1) = _
    omega
  have hpos : 0 < x.length := List.length_pos_of_ne_nil hx.1
  have hhead : (("CONFIG_" : Text) ++ x ++ '=' :: v).drop 7 = x ++ '=' :: v := rfl
  obtain ⟨htake, hdrop⟩ := takeWhile_identifier (r := v) hx (d := '=') (by decide)
  rcases Decidable.em (x.length = 1 ∧ v = []) with ⟨hone, rfl⟩ | hnot
  · refine .inl ⟨hone, rfl, ?_⟩
    rw [setting, parseConfigLine, if_neg (by simp), if_pos (by rw [hlen, hone]; decide)]
    rfl
  · refine .inr ⟨hnot, ?_⟩
    have hlong : ¬ 8 + x.length + v.length ≤ 9 := by
      intro hle
      refine hnot ⟨by omega, List.length_eq_zero_iff.mp (by omega)⟩
    have hmem : '=' ∈ x ++ '=' :: v := by simp
    have hparse : parseConfigLine ("CONFIG_" ++ x ++ '=' :: v) =
        if v = "y" then .yes x else if v = "m" then .module x else .value x v := by
      rw [parseConfigLine, if_neg (by simp), hlen, if_neg hlong]
      show parseSet _ = _
      rw [parseSet, hhead, if_neg (not_or.mpr ⟨?_, not_not.mpr hmem⟩), htake, hdrop]
      · rfl
      · show ¬ some '_' = some '='
        decide
    rw [setting, hparse]
    rcases eq_or_ne v "y" with rfl | hy
    · rfl
    · rcases eq_or_ne v "m" with rfl | hm
      · rfl
      · rw [if_neg hy, if_neg hm]
        rfl

theorem setting_not_set {x : Text} (hx : IsIdentifier x) :
    setting ("# CONFIG_" ++ x ++ " is not set") = some (x, .no) := by
  obtain ⟨htake, hdrop⟩ := takeWhile_identifier (r := "is not set") hx (d := ' ') (by decide)
  have hhead : (("# CONFIG_" : Text) ++ x ++ " is not set").drop 9 = x ++ ' ' :: "is not set" := rfl
  have hlong : ¬ (("# CONFIG_" : Text) ++ x ++ " is not set").length ≤ 9 := by
    simp only [List.length_append]
    show ¬ 9 + x.length + 11 ≤ 9
    omega
  have hparse : parseConfigLine ("# CONFIG_" ++ x ++ " is not set") = .no x := by
    rw [parseConfigLine, if_neg (by simp), if_neg hlong]
    show parseNotSet _ = _
    rw [parseNotSet, hhead, htake, hdrop]
    rfl
  rw [setting, hparse]
  rfl

/-- A comment sets nothing when it does not look like a setting. -/
theorem setting_comment {line : Text} (hhead : line.head? = some '#')
    (hno : ("# CONFIG_" : Text).isPrefixOf line = false) : setting line = none := by
  obtain ⟨t, rfl⟩ := List.head?_eq_some_iff.mp hhead
  rw [setting, parseConfigLine, if_neg (List.cons_ne_nil _ _)]
  split
  · rfl
  · rw [if_neg (by rw [hno]; exact Bool.false_ne_true)]
    rfl

/-! ### The same line read strictly -/

theorem strictLine_config {line : Text}
    ( hprefix : ("CONFIG_" : Text).isPrefixOf (strip line) = true)
    (hmem : '=' ∈ strip line) : strictLine line = recognize line := by
  have hcontains := List.contains_iff_mem.mpr hmem
  unfold strictLine recognize
  simp only
  rw [if_pos hprefix, if_pos hprefix, if_pos hcontains, if_pos hcontains]

/-- What the readers of a line agree on, and where the guard makes them differ. -/
theorem line_readers {line : Text} (hl : IsLineOrEnd line)
    (h : FragmentLine (line.takeWhile (· ≠ '\n'))) :
    ∃ s, recognize line = some s ∧ strictLine line = some s ∧
      (Dropped s ∧ setting (line.takeWhile (· ≠ '\n')) = none ∨
        ¬ Dropped s ∧ setting (line.takeWhile (· ≠ '\n')) = s.map fun p => (p.1, .ofText p.2)) := by
  have hstrip : strip line = line.takeWhile (· ≠ '\n') := by
    have htrim := h.trimmed
    have hall : ∀ {t : Text}, '\n' ∉ t → ∀ c ∈ t, decide (c ≠ '\n') = true := by
      intro t ht c hc
      refine decide_eq_true ?_
      rintro rfl
      exact ht hc
    rcases hl with ⟨body, hbody, rfl⟩ | ⟨hbody, -⟩
    · have htake : (body ++ ['\n']).takeWhile (· ≠ '\n') = body := by
        rw [List.takeWhile_append_of_pos (hall hbody)]
        simp
      rw [htake] at htrim ⊢
      exact strip_append_of_space htrim.head htrim.last (Text.forall_mem_of_all (by decide))
    · have htake : line.takeWhile (· ≠ '\n') = line :=
        List.takeWhile_eq_self_iff.mpr (hall hbody)
      rw [htake] at htrim ⊢
      exact strip_of_trimmed htrim
  have hform := h.form
  generalize line.takeWhile (· ≠ '\n') = body at hstrip hform ⊢
  rcases hform with rfl | ⟨x, v, hx, rfl⟩ | ⟨x, hx, rfl⟩ | ⟨hhead, hno⟩
  · refine ⟨none, ?_, ?_, .inr ⟨?_, rfl⟩⟩
    · rw [recognize, hstrip]
      rfl
    · rw [strictLine, hstrip]
      rfl
    · rintro ⟨x, -, hnone⟩
      cases hnone
  · have heq : '=' ∉ x := by
      intro hmem
      have hchar := hx.2 '=' hmem
      exact absurd hchar (by decide)
    have hread := recognize_config hstrip heq
    refine ⟨some (x, v), hread, ?_, ?_⟩
    · rw [strictLine_config (by rw [hstrip]; rfl) (by rw [hstrip]; simp), hread]
    · rcases setting_config (v := v) hx with ⟨hone, rfl, hnone⟩ | ⟨hnot, hsome⟩
      · exact .inl ⟨⟨x, hone, rfl⟩, hnone⟩
      · refine .inr ⟨?_, hsome⟩
        rintro ⟨x', hone, heq'⟩
        obtain ⟨rfl, rfl⟩ := Prod.mk.inj (Option.some.inj heq')
        exact hnot ⟨hone, rfl⟩
  · have hread := recognize_not_set hstrip
    refine ⟨some (x, ("n" : Text)), hread, ?_, .inr ⟨?_, setting_not_set hx⟩⟩
    · rcases line_cases line with heq | ⟨key, -, hnone⟩ | ⟨-, -, hprefix, -⟩
      · rw [← heq, hread]
      · have hsuffix :
            (" is not set" : Text).isSuffixOf ("# CONFIG_" ++ x ++ " is not set") = true :=
          List.isSuffixOf_iff_suffix.mpr (List.suffix_append _ _)
        have hstrict : strictLine line =
            some ((notSetOption ("# CONFIG_" ++ x ++ " is not set")).map
              fun key => (key, ("n" : Text))) := by
          unfold strictLine
          rw [hstrip]
          rfl
        rw [hstrict, notSetOption, if_pos ⟨rfl, hsuffix⟩] at hnone
        cases hnone
      · rw [hstrip] at hprefix
        cases hprefix
    · rintro ⟨x', -, heq'⟩
      cases (Prod.mk.inj (Option.some.inj heq')).2
  · have hconfig : ("CONFIG_" : Text).isPrefixOf body = false := by
      obtain ⟨t, rfl⟩ := List.head?_eq_some_iff.mp hhead
      rfl
    have hhash : ("#" : Text).isPrefixOf body = true := by
      obtain ⟨t, rfl⟩ := List.head?_eq_some_iff.mp hhead
      rfl
    refine ⟨none, ?_, ?_, .inr ⟨?_, setting_comment hhead hno⟩⟩
    · rw [recognize, hstrip]
      simp only [hconfig, hno, hhash, Bool.false_eq_true, if_false, true_or, if_true]
    · rw [strictLine, hstrip]
      simp only [hconfig, hhash, Bool.false_eq_true, if_false, if_true]
      rw [notSetOption, if_neg fun h => by rw [hno] at h; exact Bool.false_ne_true h.1]
      rfl
    · rintro ⟨x, -, hnone⟩
      cases hnone

/-! ### All lines -/

/-- The last settings agree unless the last one is dropped. -/
theorem lastSetting_readers {ls : List Text} (hl : ∀ l ∈ ls, IsLineOrEnd l)
    (h : ∀ l ∈ ls, FragmentLine (l.takeWhile (· ≠ '\n'))) (key : Text) :
    lastSetting ((ls.map (·.takeWhile (· ≠ '\n'))).filterMap setting) key =
        (lastSetting (ls.filterMap fun l => (strictLine l).join) key).map .ofText ↔
      ¬ (key.length = 1 ∧
        lastSetting (ls.filterMap fun l => (strictLine l).join) key = some []) := by
  have hall : ((key.length = 1 →
        lastSetting ((ls.map (·.takeWhile (· ≠ '\n'))).filterMap setting) key ≠
          some (.ofText []))) ∧
      (lastSetting ((ls.map (·.takeWhile (· ≠ '\n'))).filterMap setting) key =
          (lastSetting (ls.filterMap fun l => (strictLine l).join) key).map .ofText ↔
        ¬ (key.length = 1 ∧
          lastSetting (ls.filterMap fun l => (strictLine l).join) key = some [])) := by
    induction ls using List.reverseRecOn with
    | nil =>
      refine ⟨fun _ h => ?_, iff_of_true rfl fun h => ?_⟩
      · cases h
      · cases h.2
    | append_singleton ls l ih =>
      obtain ⟨ihne, ihiff⟩ := ih (fun l hl' => hl l (List.mem_append_left _ hl'))
        fun l hl' => h l (List.mem_append_left _ hl')
      obtain ⟨s, -, hstrict, hline⟩ := line_readers (hl l (by simp)) (h l (by simp))
      simp only [List.map_append, List.filterMap_append, List.map_cons, List.map_nil,
        List.filterMap_cons, List.filterMap_nil, hstrict, Option.join_some]
      rcases hline with ⟨⟨x, hone, rfl⟩, hnone⟩ | ⟨hkept, hsome⟩
      · -- the line is dropped by one of the readers
        rw [hnone, List.append_nil]
        dsimp only
        rw [lastSetting_concat]
        split
        · next hkey =>
          subst hkey
          refine ⟨ihne, iff_of_false (ihne hone) fun hnot => hnot ⟨hone, rfl⟩⟩
        · exact ⟨ihne, ihiff⟩
      · rw [hsome]
        cases s with
        | none =>
          dsimp only [Option.map_none]
          rw [List.append_nil, List.append_nil]
          exact ⟨ihne, ihiff⟩
        | some p =>
          obtain ⟨k, v⟩ := p
          dsimp only [Option.map_some]
          rw [lastSetting_concat, lastSetting_concat]
          split
          · next hkey =>
            subst hkey
            have hne : key.length = 1 → v ≠ [] := by
              rintro hone rfl
              exact hkept ⟨key, hone, rfl⟩
            refine ⟨fun hone heq => hne hone ?_, iff_of_true rfl fun hboth => ?_⟩
            · have htext := congrArg KconfigValue.text (Option.some.inj heq)
              rwa [KconfigValue.text_ofText, KconfigValue.text_ofText] at htext
            · exact hne hboth.1 (Option.some.inj hboth.2)
          · exact ⟨ihne, ihiff⟩
  exact hall.2

/-- No line of a fragment is an error. -/
theorem settings_recognize {ls : List Text} (hl : ∀ l ∈ ls, IsLineOrEnd l)
    (h : ∀ l ∈ ls, FragmentLine (l.takeWhile (· ≠ '\n'))) :
    settings recognize ls = some (ls.filterMap fun l => (strictLine l).join) := by
  induction ls with
  | nil => rfl
  | cons l ls ih =>
    obtain ⟨s, hread, hstrict, -⟩ := line_readers (hl l List.mem_cons_self) (h l List.mem_cons_self)
    rw [settings_cons, hread, ih (fun l hl' => hl l (List.mem_cons_of_mem _ hl'))
      fun l hl' => h l (List.mem_cons_of_mem _ hl'), List.filterMap_cons, hstrict]
    cases s <;> rfl

end KconfigMlLemmas

open KconfigMlLemmas KconfigFile

/-- The two readers make the same configuration exactly if no option with a name of one
character has nothing as its last value: a line `CONFIG_X=` is too short for `kconfig.ml`. -/
theorem kconfig_readers_agree_iff {fragments : List Text}
    (h : ∀ f ∈ fragments, IsFragment f) :
    SameConfiguration fragments ↔
      ∀ x : Text, x.length = 1 → lastSetting (fragmentSettings fragments) x ≠ some [] := by
  have hl : ∀ l ∈ fragments.flatMap lines, IsLineOrEnd l := by
    intro l hl
    obtain ⟨f, -, hl⟩ := List.mem_flatMap.mp hl
    exact lineOrEnd_of_mem_lines hl
  have hform : ∀ l ∈ fragments.flatMap lines, FragmentLine (l.takeWhile (· ≠ '\n')) := by
    intro l hl
    obtain ⟨f, hf, hl⟩ := List.mem_flatMap.mp hl
    exact h f hf _ (List.mem_map_of_mem hl)
  have hlines : fragments.flatMap inputLines =
      (fragments.flatMap lines).map (·.takeWhile (· ≠ '\n')) := by
    rw [List.map_flatMap]
    rfl
  have hread : fragments.foldlM KconfigFile.read OrderedDict.empty =
      some (KconfigFile.setAll OrderedDict.empty (fragmentSettings fragments)) := by
    rw [foldlM_read, readLines_eq, settings_recognize hl hform]
    rfl
  have hkey : ∀ key, ((fragments.foldl parseConfig SortedMap.empty).find? key).map Options.state =
        ((KconfigFile.setAll OrderedDict.empty (fragmentSettings fragments)).get? key).map some ↔
      ¬ (key.length = 1 ∧ lastSetting (fragmentSettings fragments) key = some []) := by
    intro key
    rw [foldl_parseConfig, hlines, find?_foldl_addLine, get?_setAll, OrderedDict.get?_empty,
      Option.or_none, (Option.map_injective fun _ _ => Option.some.inj).eq_iff]
    exact lastSetting_readers hl hform key
  rw [SameConfiguration, hread]
  simp only [Option.some.injEq, exists_eq_left', hkey, not_and]

theorem fragment_trimmed {line : Text} (hhead : line.head?.all (!isSpace ·) = true)
    (hlast : line.getLast?.all (!isSpace ·) = true) : Trimmed line := by
  refine ⟨fun c hc => ?_, fun c hc => ?_⟩
  · rw [Option.mem_def.mp hc] at hhead
    simpa using hhead
  · rw [Option.mem_def.mp hc] at hlast
    simpa using hlast

theorem short_options_agree : SameConfiguration ["CONFIG_A=y\n# CONFIG_B is not set\n"] := by
  have hlines : inputLines "CONFIG_A=y\n# CONFIG_B is not set\n" =
      [("CONFIG_A=y" : Text), ("# CONFIG_B is not set" : Text)] := rfl
  have h : IsFragment "CONFIG_A=y\n# CONFIG_B is not set\n" := by
    intro line hline
    rw [hlines, List.mem_cons, List.mem_singleton] at hline
    rcases hline with rfl | rfl
    · refine ⟨fragment_trimmed rfl rfl, .inr (.inl ⟨"A", "y", ?_, rfl⟩)⟩
      exact ⟨List.cons_ne_nil _ _, Text.forall_mem_of_all rfl⟩
    · refine ⟨fragment_trimmed rfl rfl, .inr (.inr (.inl ⟨"B", ?_, rfl⟩))⟩
      exact ⟨List.cons_ne_nil _ _, Text.forall_mem_of_all rfl⟩
  refine (kconfig_readers_agree_iff fun f hf => by rw [List.mem_singleton.mp hf]; exact h).mpr ?_
  have hvalues : ∀ p ∈ fragmentSettings ["CONFIG_A=y\n# CONFIG_B is not set\n"], p.2 ≠ [] := by
    decide
  intro x _ hx
  exact hvalues _ (mem_of_lastSetting hx) rfl

/-- `kconfig.ml` passes over `CONFIG_A=`, and `kconfig.py` does not. -/
theorem empty_value_dropped :
    ¬ ∀ fragments : List Text, (∀ f ∈ fragments, IsFragment f) → SameConfiguration fragments := by
  intro h
  have hfragment : ∀ f ∈ [("CONFIG_A=\n" : Text)], IsFragment f := by
    intro f hf line hline
    rw [List.mem_singleton.mp hf] at hline
    rw [show line = "CONFIG_A=" from List.mem_singleton.mp hline]
    refine ⟨fragment_trimmed rfl rfl, .inr (.inl ⟨"A", [], ?_, rfl⟩)⟩
    exact ⟨List.cons_ne_nil _ _, Text.forall_mem_of_all rfl⟩
  obtain ⟨d, hd, hkey⟩ := h [("CONFIG_A=\n" : Text)] hfragment
  have hread : [("CONFIG_A=\n" : Text)].foldlM KconfigFile.read OrderedDict.empty =
      some (KconfigFile.setValue OrderedDict.empty "A" []) := rfl
  rw [hread] at hd
  have hA := hkey "A"
  rw [← Option.some.inj hd, KconfigFile.setValue, OrderedDict.get?_set_self] at hA
  exact absurd hA (by decide)

/-! ## The difference of two configurations -/

/-- `diff`. -/
inductive Diff
  | add (v : Options)
  | del (v : Options)
  | change (v v' : Options)
  deriving DecidableEq

/-- `diff1`: the options that are left of `b`, and the diff so far. -/
def diff1 (s : Config × SortedMap Text Diff) (p : Text × Options) :
    Config × SortedMap Text Diff :=
  match s.1.find? p.1 with
  | some v' =>
    let b := s.1.erase p.1
    if p.2 = v' then (b, s.2) else (b, s.2.insert p.1 (.change p.2 v'))
  | none => (s.1, s.2.insert p.1 (.add p.2))

/-- `diff2`. -/
def diff2 (d : SortedMap Text Diff) (p : Text × Options) : SortedMap Text Diff :=
  d.insert p.1 (.del p.2)

/-- `diff_configs`. -/
def diffConfigs (a b : Config) : SortedMap Text Diff :=
  let (b, d) := a.entries.foldl diff1 (b, SortedMap.empty)
  b.entries.foldl diff2 d

/-- How the values of one option differ. -/
def diffAt : Option Options → Option Options → Option Diff
  | some v, none => some (.add v)
  | none, some v => some (.del v)
  | some v, some v' => if v = v' then none else some (.change v v')
  | none, none => none

/-- The value that the difference leaves. -/
def Diff.newValue : Diff → Option Options
  | .add v => some v
  | .del _ => none
  | .change v _ => some v

/-- Setting a value that is added or changed, and deleting the name of a deleted one. -/
def Config.change (m : Config) (n : Text) (d : Diff) : Config :=
  match d with
  | .add v => m.insert n v
  | .del _ => m.erase n
  | .change v _ => m.insert n v

def applyDiff (d : SortedMap Text Diff) (b : Config) : Config :=
  d.entries.foldl (fun m p => m.change p.1 p.2) b

/-- The difference seen from the other side. -/
def Diff.reversed : Diff → Diff
  | .add v => .del v
  | .del v => .add v
  | .change v v' => .change v' v

namespace KconfigMlLemmas

/-- What is left of `b`, and what is in the diff, when all of `a` is met. -/
theorem foldl_diff1 (a b : Config) (n : Text) :
    let s := a.entries.foldl diff1 (b, SortedMap.empty)
    (∀ v, a.find? n = some v → s.1.find? n = none ∧ s.2.find? n = diffAt (some v) (b.find? n)) ∧
      (a.find? n = none → s.1.find? n = b.find? n ∧ s.2.find? n = none) := by
  have hother : ∀ k v s, k ≠ n → (diff1 s (k, v)).1.find? n = s.1.find? n ∧
      (diff1 s (k, v)).2.find? n = s.2.find? n := by
    intro k v s hk
    rw [diff1]
    split
    · dsimp only
      split
      · exact ⟨SortedMap.find?_erase_ne _ hk.symm, rfl⟩
      · exact ⟨SortedMap.find?_erase_ne _ hk.symm, SortedMap.find?_insert_ne _ _ hk.symm⟩
    · exact ⟨rfl, SortedMap.find?_insert_ne _ _ hk.symm⟩
  refine a.foldl_key n
    (fun s : Config × SortedMap Text Diff => s.1.find? n = b.find? n ∧ s.2.find? n = none)
    (fun v s => s.1.find? n = none ∧ s.2.find? n = diffAt (some v) (b.find? n)) ⟨rfl, rfl⟩ ?_ ?_ ?_
  · intro k v s hk h
    rw [(hother k v s hk).1, (hother k v s hk).2]
    exact h
  · intro k v w s hk h
    rw [(hother k v s hk).1, (hother k v s hk).2]
    exact h
  · rintro v s ⟨hb, hd⟩
    rw [diff1, ← hb]
    cases hfind : s.1.find? n with
    | none => exact ⟨hfind, SortedMap.find?_insert_self _ _ _⟩
    | some v' =>
      dsimp only
      rw [diffAt]
      split
      · exact ⟨SortedMap.find?_erase_self _ _, hd⟩
      · exact ⟨SortedMap.find?_erase_self _ _, SortedMap.find?_insert_self _ _ _⟩

theorem foldl_diff2 (b : Config) (d : SortedMap Text Diff) (n : Text) :
    (b.entries.foldl diff2 d).find? n = ((b.find? n).map Diff.del).or (d.find? n) := by
  obtain ⟨hmet, hno⟩ := b.foldl_key n (f := diff2) (s := d) (fun s => s.find? n = d.find? n)
    (fun v s => s.find? n = some (.del v)) rfl
    (fun _ _ _ hk h => (SortedMap.find?_insert_ne _ _ hk.symm).trans h)
    (fun _ _ _ _ hk h => (SortedMap.find?_insert_ne _ _ hk.symm).trans h)
    (fun _ _ _ => SortedMap.find?_insert_self _ _ _)
  cases hfind : b.find? n with
  | some v => exact hmet v hfind
  | none => exact hno hfind

/-- The diff, option by option. -/
theorem find?_diffConfigs (a b : Config) (n : Text) :
    (diffConfigs a b).find? n = diffAt (a.find? n) (b.find? n) := by
  obtain ⟨hgot, hleft⟩ := foldl_diff1 a b n
  show SortedMap.find? (List.foldl diff2 _ _) n = _
  rw [foldl_diff2]
  cases ha : a.find? n with
  | some v =>
    obtain ⟨hb, hd⟩ := hgot v ha
    rw [hb, hd]
    rfl
  | none =>
    obtain ⟨hb, hd⟩ := hleft ha
    rw [hb, hd]
    cases b.find? n <;> rfl

/-- What one option is after a diff is applied. -/
theorem find?_applyDiff (d : SortedMap Text Diff) (b : Config) (n : Text) :
    (applyDiff d b).find? n =
      match d.find? n with
      | some c => c.newValue
      | none => b.find? n := by
  have hother : ∀ (k : Text) (c : Diff) (m : Config), k ≠ n →
      (m.change k c).find? n = m.find? n := by
    intro k c m hk
    cases c with
    | add v => exact SortedMap.find?_insert_ne _ _ hk.symm
    | del v => exact SortedMap.find?_erase_ne _ hk.symm
    | change v v' => exact SortedMap.find?_insert_ne _ _ hk.symm
  have hself : ∀ (c : Diff) (m : Config), (m.change n c).find? n = c.newValue := by
    intro c m
    cases c with
    | add v => exact SortedMap.find?_insert_self _ _ _
    | del v => exact SortedMap.find?_erase_self _ _
    | change v v' => exact SortedMap.find?_insert_self _ _ _
  obtain ⟨hmet, hno⟩ := d.foldl_key n (f := fun m p => m.change p.1 p.2) (s := b)
    (fun m => m.find? n = b.find? n) (fun c m => m.find? n = c.newValue) rfl
    (fun k c m hk h => (hother k c m hk).trans h) (fun k c _ m hk h => (hother k c m hk).trans h)
    (fun c m _ => hself c m)
  cases hfind : d.find? n with
  | some c => exact hmet c hfind
  | none => exact hno hfind

end KconfigMlLemmas

open KconfigMlLemmas

/-- The diff has an entry for an option exactly if the two configurations differ there. It
turns the second configuration into the first one, and the other diff is its reverse. -/
theorem diffConfigs_exact (a b : Config) :
    (∀ n, (diffConfigs a b).find? n = diffAt (a.find? n) (b.find? n)) ∧
    applyDiff (diffConfigs a b) b = a ∧
    diffConfigs a a = SortedMap.empty ∧
    ∀ n, (diffConfigs b a).find? n = ((diffConfigs a b).find? n).map Diff.reversed := by
  refine ⟨find?_diffConfigs a b, ?_, ?_, ?_⟩
  · refine SortedMap.ext fun n => ?_
    rw [find?_applyDiff, find?_diffConfigs]
    cases a.find? n with
    | none => cases b.find? n <;> rfl
    | some v =>
      cases b.find? n with
      | none => rfl
      | some v' =>
        rcases eq_or_ne v v' with rfl | hne
        · simp [diffAt]
        · simp [diffAt, hne, Diff.newValue]
  · refine SortedMap.ext fun n => ?_
    rw [find?_diffConfigs]
    cases a.find? n with
    | none => rfl
    | some v => simp [diffAt]
  · intro n
    rw [find?_diffConfigs, find?_diffConfigs]
    cases a.find? n with
    | none => cases b.find? n <;> rfl
    | some v =>
      cases b.find? n with
      | none => rfl
      | some v' =>
        rw [diffAt, diffAt]
        rcases eq_or_ne v v' with rfl | hne
        · rw [if_pos rfl]
          rfl
        · rw [if_neg hne.symm, if_neg hne]
          rfl

end KconfigMl

end DebianKernel.Debian
