import DebianKernel.DiskId.UdevNext

/-!
# The persistent CD rules

`udev_cd_update` copies the rules for CD drives, and adds after a rule for an IDE device a
rule for the same device under its SCSI path, unless there is one.

Results:
1. `findUnmatched_iff`: the IDE rules that get a new rule.
2. `udevRules_update`: the rules that are read back from the new file.
3. `updateCorrect_iff`: the files whose update is lossless, complete and stable.
-/

namespace DebianKernel.DiskId

open Text Pattern

/-! ## Definitions -/

/-- `ENV{ID_PATH}`. -/
def idPathKey : Text := "ENV\x7bID_PATH\x7d"

/-- The loop of `udev_parse_symlink_rule`, with `$path` and `$symlink`. -/
def symlinkStep (found : Option Text × Option Text) (piece : UdevPiece) :
    Option Text × Option Text :=
  match piece.key with
  | none => found
  | some k =>
    if k.key = idPathKey ∧ k.op = ['=', '='] then (some k.value, found.2)
    else if k.key = "SYMLINK" ∧ k.op = ['+', '='] then (found.1, some k.value)
    else found

/-- `udev_parse_symlink_rule`: the last path and the last symlink. -/
def udevParseSymlinkRule (keys : List UdevPiece) : Option Text × Option Text :=
  keys.foldl symlinkStep (none, none)

/-- `-ide-(\d+):(\d+)$`. -/
def ideRe : Pattern (Text × Text) := do
  lit "-ide-"
  let controller ← run1 Char.isDigit
  lit [':']
  let device ← run1 Char.isDigit
  atEnd
  pure (controller, device)

/-- The path with `-scsi-$1:0:$2:0` in place of the match. -/
def idePath (path : Text) : Option Text :=
  (search ideRe path).map fun (before, (controller, device), rest) =>
    before ++ "-scsi-" ++ controller ++ ":0:" ++ device ++ ":0" ++ rest

/-- `-scsi-\d+:\d+:\d+:\d+$`. -/
def scsiRe : Pattern Unit := do
  lit "-scsi-"
  let _ ← run1 Char.isDigit
  lit [':']
  let _ ← run1 Char.isDigit
  lit [':']
  let _ ← run1 Char.isDigit
  lit [':']
  let _ ← run1 Char.isDigit
  atEnd

def isScsiPath (path : Text) : Bool := (search scsiRe path).isSome

/-- The translated path and the `$rule_key` of a rule for an IDE path. -/
def ideRule (keys : List UdevPiece) : Option (Text × Text) :=
  match udevParseSymlinkRule keys with
  | (some path, some symlink) => (idePath path).map fun path => (path, path ++ [' '] ++ symlink)
  | _ => none

/-- The `$rule_key` of a rule for a SCSI path. -/
def scsiRule (keys : List UdevPiece) : Option Text :=
  match udevParseSymlinkRule keys with
  | (some path, some symlink) =>
    if idePath path = none ∧ isScsiPath path then some (path ++ [' '] ++ symlink) else none
  | _ => none

/-- The variables of `udev_cd_find_unmatched_ide_rules`. A wanted rule is `-1` (`none`) when
it exists. -/
structure CdState where
  wanted : Text → Option (Option Nat)
  unmatched : Nat → Option Text
  i : Nat

def CdState.init : CdState := ⟨fun _ => none, fun _ => none, 0⟩

def CdState.step (s : CdState) (keys : List UdevPiece) : CdState :=
  match ideRule keys, scsiRule keys with
  | some (path, key), _ =>
    match s.wanted key with
    | none => ⟨Function.update s.wanted key (some (some s.i)),
        Function.update s.unmatched s.i (some path), s.i + 1⟩
    | some _ => { s with i := s.i + 1 }
  | none, some key =>
    ⟨Function.update s.wanted key (some none),
      match s.wanted key with
      | some (some j) => Function.update s.unmatched j none
      | _ => s.unmatched, s.i + 1⟩
  | none, none => { s with i := s.i + 1 }

/-- `udev_cd_find_unmatched_ide_rules`. -/
def findUnmatched (rules : List (List UdevPiece)) : Nat → Option Text :=
  (rules.foldl CdState.step CdState.init).unmatched

/-- The keys of `%paths`. -/
def needsUpdatePaths (rules : List (List UdevPiece)) : List Text :=
  ((List.range rules.length).filterMap (findUnmatched rules)).dedup

/-- `udev_cd_needs_update`, for the order in which the hash gives its keys. -/
def udevCdNeedsUpdate (paths : List Text) : Text :=
  List.intercalate "\\n" (paths.map fun path => "+ PATH=" ++ path)

/-- `", $key$op\"$value\""`. -/
def keyText (k : UdevKey) (value : Text) : Text :=
  [',', ' '] ++ k.key ++ k.op ++ ['"'] ++ value ++ ['"']

/-- `$new_text`. -/
def newText (value : Text) (keys : List UdevPiece) : Text :=
  keys.flatMap fun piece => match piece.key with
    | none => []
    | some k =>
      if k.key = idPathKey ∧ k.op = ['=', '='] then keyText k value else piece.text

/-- The second pass, from the rule with that number on. -/
def updateRules (unmatched : Nat → Option Text) : Nat → List (List UdevPiece) → Text
  | _, [] => []
  | i, keys :: rules =>
    pieceText keys ++
      (match (unmatched i).filter fun value => value ≠ [] ∧ value ≠ "0" with
        | some value => newText value keys ++ ['\n']
        | none => []) ++
      updateRules unmatched (i + 1) rules

/-- `udev_cd_update`. -/
def udevCdUpdate (file : Text) : Text :=
  updateRules (findUnmatched (udevRules (lines file))) 0 (udevRules (lines file))

/-! ## What an update stands for -/

/-- The keys of a rule, with another path. -/
def newPieces (value : Text) (keys : List UdevPiece) : List UdevPiece :=
  keys.filterMap fun piece => piece.key.map fun k =>
    if k.key = idPathKey ∧ k.op = ['=', '='] then ⟨keyText k value, some { k with value }⟩
    else piece

/-- The new rule, in a line of its own. -/
def newRule (value : Text) (keys : List UdevPiece) : List UdevPiece :=
  newPieces value keys ++ [⟨['\n'], none⟩]

/-- The rules with the new ones among them. -/
def withNewRules (needs : Nat → Option Text) : Nat → List (List UdevPiece) → List (List UdevPiece)
  | _, [] => []
  | i, keys :: rules =>
    keys :: ((needs i).map fun value => newRule value keys).toList ++
      withNewRules needs (i + 1) rules

/-- A rule for an IDE path without a rule for the SCSI path and the same symlink. -/
def UnmatchedRule (rules : List (List UdevPiece)) (i : Nat) (value : Text) : Prop :=
  ∃ keys path symlink, rules[i]? = some keys ∧
    udevParseSymlinkRule keys = (some path, some symlink) ∧ idePath path = some value ∧
    ∀ keys' ∈ rules, udevParseSymlinkRule keys' ≠ (some value, some symlink)

structure UpdateCorrect (file : Text) : Prop where
  /-- Nothing is lost when the rules are read. -/
  lossless : (udevRules (lines file)).flatMap pieceText = file
  /-- The new file has all rules in order, and new ones behind rules that have no match. -/
  rules : ∃ needs : Nat → Option Text,
    (∀ i value, needs i = some value → UnmatchedRule (udevRules (lines file)) i value) ∧
    udevRules (lines (udevCdUpdate file)) = withNewRules needs 0 (udevRules (lines file))
  /-- It needs no update. -/
  complete : ∀ paths, paths.Perm (needsUpdatePaths (udevRules (lines (udevCdUpdate file)))) →
    udevCdNeedsUpdate paths = []
  stable : udevCdUpdate (udevCdUpdate file) = udevCdUpdate file

/-- The lines behind the last complete rule. -/
def openLines (file : Text) : List Text := (lines file).rtakeWhile opens

/-- If the last rule is unfinished, then it needs no new rule. -/
def UpdateSafe (file : Text) : Prop :=
  ∀ path key, ideRule (ruleOf (openLines file)) = some (path, key) →
    ∃ keys ∈ udevRules ((lines file).rdropWhile opens),
      (∃ path', ideRule keys = some (path', key)) ∨ scsiRule keys = some key

/-! ## Paths -/

namespace UdevLemmas

/-- The final newline that `$` allows is no digit. -/
theorem end_unique {w w' a a' r r' : Text} (h : w ++ a ++ r = w' ++ a' ++ r')
    (ha : a ≠ [] ∧ ∀ d ∈ a, d.isDigit = true) (ha' : a' ≠ [] ∧ ∀ d ∈ a', d.isDigit = true)
    (hr : r = [] ∨ r = ['\n']) (hr' : r' = [] ∨ r' = ['\n']) : w ++ a = w' ++ a' := by
  have hlast : ∀ {w a v b : Text}, a ≠ [] ∧ (∀ d ∈ a, d.isDigit = true) →
      w ++ a ≠ v ++ b ++ ['\n'] := by
    intro w a v b ⟨hne, hdigits⟩ heq
    obtain ⟨a, d, rfl⟩ := (List.eq_nil_or_concat a).resolve_left hne
    rw [List.concat_eq_append, ← List.append_assoc] at heq
    have hd : [d] = ['\n'] := List.append_inj_right' heq rfl
    have hdigit := hdigits d (by simp)
    rw [(List.cons.inj hd).1] at hdigit
    exact absurd hdigit (by decide)
  rcases hr with rfl | rfl <;> rcases hr' with rfl | rfl
  · rwa [List.append_nil, List.append_nil] at h
  · rw [List.append_nil] at h
    exact absurd h (hlast ha)
  · rw [List.append_nil] at h
    exact absurd h.symm (hlast ha')
  · exact List.append_inj_left' h rfl

theorem mem_ideRe {t r m n : Text} (h : ((m, n), r) ∈ ideRe t) :
    t = "-ide-".toList ++ (m ++ ':' :: (n ++ r)) ∧ (m ≠ [] ∧ ∀ d ∈ m, d.isDigit = true) ∧
      (n ≠ [] ∧ ∀ d ∈ n, d.isDigit = true) ∧ (r = [] ∨ r = ['\n']) := by
  obtain ⟨_, s₁, h₁, h⟩ := mem_bind.mp h
  obtain ⟨m', s₂, h₂, h⟩ := mem_bind.mp h
  obtain ⟨_, s₃, h₃, h⟩ := mem_bind.mp h
  obtain ⟨n', s₄, h₄, h⟩ := mem_bind.mp h
  obtain ⟨_, s₅, h₅, h⟩ := mem_bind.mp h
  obtain ⟨heq, rfl⟩ := mem_pure.mp h
  obtain ⟨rfl, rfl⟩ := Prod.mk.inj heq
  obtain rfl := mem_lit.mp h₁
  obtain ⟨rfl, hm⟩ := mem_run1.mp h₂
  obtain rfl := mem_lit.mp h₃
  obtain ⟨rfl, hn⟩ := mem_run1.mp h₄
  rw [atEnd, look] at h₅
  split at h₅
  · next hend =>
    obtain ⟨-, rfl⟩ := Prod.mk.inj (List.mem_singleton.mp h₅)
    exact ⟨rfl, hm, hn, of_decide_eq_true hend⟩
  · cases h₅

/-- What is known of a translated path. -/
structure Translated (path value : Text) : Prop where
  scsi : isScsiPath value = true
  notIde : idePath value = none
  truth : value ≠ [] ∧ value ≠ "0"
  chars : ∀ c ∈ value, c ∈ path ∨ c ∈ "-scsi:0".toList

theorem translated {path value : Text} (h : idePath path = some value) :
    Translated path value := by
  obtain ⟨⟨before, ⟨m, n⟩, r⟩, hs, rfl⟩ := Option.map_eq_some_iff.mp h
  obtain ⟨s, rfl, hfirst⟩ := search_eq_some hs
  obtain ⟨rfl, hm, hn, hr⟩ := mem_ideRe (mem_of_first hfirst)
  have hzero : (['0'] : Text) ≠ [] ∧ ∀ d ∈ (['0'] : Text), d.isDigit = true :=
    ⟨List.cons_ne_nil _ _, forall_mem_of_all rfl⟩
  refine ⟨?_, ?_, ?_, ?_⟩
  · refine search_isSome.mpr ⟨before, "-scsi-".toList ++ (m ++ (':' :: ('0' :: (':' :: (n ++ (':' ::
      ('0' :: r))))))), by simp, first_isSome.mpr ⟨((), r), ?_⟩⟩
    have hend : ((), r) ∈ atEnd r := by
      rw [atEnd, look, if_pos (by simpa using hr)]
      exact List.mem_cons_self
    exact mem_bind.mpr ⟨(), _, mem_lit.mpr rfl, mem_bind.mpr ⟨m, _, mem_run1.mpr ⟨rfl, hm⟩,
      mem_bind.mpr ⟨(), _, mem_lit.mpr rfl, mem_bind.mpr ⟨['0'], _, mem_run1.mpr ⟨rfl, hzero⟩,
      mem_bind.mpr ⟨(), _, mem_lit.mpr rfl, mem_bind.mpr ⟨n, _, mem_run1.mpr ⟨rfl, hn⟩,
      mem_bind.mpr ⟨(), _, mem_lit.mpr rfl, mem_bind.mpr ⟨['0'], _, mem_run1.mpr ⟨rfl, hzero⟩,
      hend⟩⟩⟩⟩⟩⟩⟩⟩
  · rw [idePath, Option.map_eq_none_iff, ← Option.not_isSome_iff_eq_none, search_isSome]
    rintro ⟨before', s, heq, hsome⟩
    obtain ⟨⟨⟨m', n'⟩, r'⟩, hmem⟩ := first_isSome.mp hsome
    obtain ⟨rfl, hm', hn', hr'⟩ := mem_ideRe hmem
    -- the two texts are compared from their ends, a run of digits at a time
    have hend : before ++ "-scsi-".toList ++ m ++ ":0:".toList ++ n ++ [':'] ++ ['0'] ++ r =
        before' ++ "-ide-".toList ++ m' ++ [':'] ++ n' ++ r' := by simpa using heq
    have hcolon : before ++ "-scsi-".toList ++ m ++ ":0:".toList ++ n ++ ':' :: ['0'] =
        before' ++ "-ide-".toList ++ m' ++ ':' :: n' := by
      simpa using end_unique hend hzero hn' hr hr'
    have hdash : before ++ "-scsi-".toList ++ m ++ ":0".toList ++ ':' :: n =
        before' ++ "-ide".toList ++ '-' :: m' := by
      simpa using (Text.split_unique hcolon hzero.2 hn'.2 rfl rfl).1
    exact absurd (Text.split_unique hdash hn.2 hm'.2 rfl rfl).2.1 (by decide)
  · refine ⟨by simp, fun heq => ?_⟩
    have hlen := congrArg List.length heq
    simp at hlen
    omega
  · have hscsi : ∀ c ∈ "-scsi-".toList, c ∈ "-scsi:0".toList := forall_mem_of_all (by decide)
    have hlun : ∀ c ∈ ":0:".toList, c ∈ "-scsi:0".toList := forall_mem_of_all (by decide)
    have hend : ∀ c ∈ ":0".toList, c ∈ "-scsi:0".toList := forall_mem_of_all (by decide)
    intro c hc
    simp only [List.mem_append, List.mem_cons] at hc ⊢
    rcases hc with (((((hc | hc) | hc) | hc) | hc) | hc) | hc
    · exact .inl (.inl hc)
    · exact .inr (hscsi c hc)
    · exact .inl (.inr (.inr (.inl hc)))
    · exact .inr (hlun c hc)
    · exact .inl (.inr (.inr (.inr (.inr (.inl hc)))))
    · exact .inr (hend c hc)
    · exact .inl (.inr (.inr (.inr (.inr (.inr hc)))))

/-! ## The new rule -/

/-- The edited key is read back. -/
theorem readable_keyText {k : UdevKey} {value : Text} (hkey : k.key = idPathKey)
    (hop : k.op = ['=', '=']) (hvalue : '"' ∉ value) :
    Readable ⟨keyText k value, some { k with value }⟩ := by
  refine ⟨_, rfl, fun rest => ?_⟩
  have htext : keyText k value ++ rest =
      [',', ' '] ++ (idPathKey ++ ([] ++ '=' :: ('=' :: ('"' :: (value ++ ('"' :: rest)))))) := by
    rw [keyText, hkey, hop]
    simp
  have hchars : ∀ c ∈ idPathKey, isSpace c = false ∧ ("=+!:" : Text).contains c = false :=
    forall_mem_of_all (by decide)
  rw [htext]
  refine first_bind (first_run (forall_mem_of_all (by decide)) fun c hc => ?_) ?_
  · obtain rfl := Option.some.inj (show some 'E' = some c from hc)
    decide
  refine first_bind (first_runIf1 (by decide) (fun c hc s => ?_) fun c hc s => ?_) ?_
  · rw [isKeyChar, (hchars c hc).1, (hchars c hc).2]
    simp
  · obtain rfl := Option.some.inj (show some '=' = some c from hc)
    simp [isKeyChar]
  refine first_bind (first_run (fun c hc => absurd hc List.not_mem_nil) fun c hc => ?_) ?_
  · obtain rfl := Option.some.inj (show some '=' = some c from hc)
    decide
  refine first_bind (a := some '=') rfl ?_
  refine first_bind (a := ()) rfl ?_
  refine first_bind (a := ()) rfl ?_
  refine first_bind (first_run (fun c hc => ?_) fun c hc => ?_) ?_
  · exact decide_eq_true fun heq => hvalue (heq ▸ hc)
  · obtain rfl := Option.some.inj (show some '"' = some c from hc)
    decide
  refine first_bind (a := ()) rfl ?_
  rw [show k = ⟨idPathKey, ['=', '='], k.value⟩ by rw [← hkey, ← hop]]
  rfl

/-- The rule has a path and a symlink, and the path is that of an IDE device. -/
theorem ideRule_eq_some {keys : List UdevPiece} {value key : Text}
    (h : ideRule keys = some (value, key)) :
    ∃ path symlink, udevParseSymlinkRule keys = (some path, some symlink) ∧
      idePath path = some value ∧ key = value ++ [' '] ++ symlink := by
  rw [ideRule] at h
  split at h
  · next path symlink heq =>
    obtain ⟨value', hvalue, hkey⟩ := Option.map_eq_some_iff.mp h
    obtain ⟨rfl, rfl⟩ := Prod.mk.inj hkey
    exact ⟨path, symlink, heq, hvalue, rfl⟩
  · cases h

theorem scsiRule_of_ideRule {keys : List UdevPiece} {value key : Text}
    (h : ideRule keys = some (value, key)) : scsiRule keys = none := by
  obtain ⟨path, symlink, hparse, hpath, -⟩ := ideRule_eq_some h
  rw [scsiRule, hparse]
  exact if_neg fun h => by rw [hpath] at h; cases h.1

/-- A rule with a path has the key of the path. -/
theorem mem_of_parse {keys : List UdevPiece} {path : Text} {symlink : Option Text}
    (h : udevParseSymlinkRule keys = (some path, symlink)) :
    ∃ piece ∈ keys, ∃ k, piece.key = some k ∧ k.value = path := by
  have hstep : ∀ (keys : List UdevPiece) (found : Option Text × Option Text),
      (keys.foldl symlinkStep found).1 = some path →
      found.1 = some path ∨ ∃ piece ∈ keys, ∃ k, piece.key = some k ∧ k.value = path := by
    intro keys
    induction keys with
    | nil => exact fun found h => .inl h
    | cons piece keys ih =>
      intro found h
      rcases ih _ h with h | ⟨piece', hmem, k, hk, hvalue⟩
      · rw [symlinkStep] at h
        split at h
        · exact .inl h
        · next k hk =>
          split at h
          · exact .inr ⟨piece, List.mem_cons_self, k, hk, Option.some.inj h⟩
          · split at h <;> exact .inl h
      · exact .inr ⟨piece', List.mem_cons_of_mem _ hmem, k, hk, hvalue⟩
  refine (hstep keys (none, none) ?_).resolve_left nofun
  exact congrArg Prod.fst h

/-- The new rule has the new path and the old symlink. -/
theorem parse_newRule {keys : List UdevPiece} {path value : Text} {symlink : Option Text}
    (h : udevParseSymlinkRule keys = (some path, symlink)) :
    udevParseSymlinkRule (newRule value keys) = (some value, symlink) := by
  have hstep : ∀ (keys : List UdevPiece) (found : Option Text × Option Text),
      (newPieces value keys).foldl symlinkStep (found.1.map fun _ => value, found.2) =
        ((keys.foldl symlinkStep found).1.map fun _ => value,
          (keys.foldl symlinkStep found).2) := by
    intro keys
    induction keys with
    | nil => exact fun found => rfl
    | cons piece keys ih =>
      intro found
      rw [List.foldl_cons, ← ih, newPieces, List.filterMap_cons]
      cases hk : piece.key with
      | none => simp only [Option.map_none, symlinkStep, hk, newPieces]
      | some k =>
        simp only [Option.map_some, List.foldl_cons, newPieces]
        congr 1
        split
        · next hpath => simp [symlinkStep, hk, hpath]
        · next hpath =>
          simp only [symlinkStep, hk, hpath, if_false]
          split <;> rfl
  rw [newRule, udevParseSymlinkRule, List.foldl_append]
  have hfold := hstep keys (none, none)
  rw [← udevParseSymlinkRule, h] at hfold
  exact congrArg (List.foldl symlinkStep · [⟨['\n'], none⟩]) hfold

/-! What the new rule looks like -/

theorem newPieces_text (value : Text) (keys : List UdevPiece) :
    pieceText (newPieces value keys) = newText value keys := by
  induction keys with
  | nil => rfl
  | cons piece keys ih =>
    rw [newText, List.flatMap_cons, ← newText, ← ih, newPieces, List.filterMap_cons]
    cases piece.key with
    | none => rfl
    | some k =>
      simp only [Option.map_some]
      rw [pieceText, List.flatMap_cons]
      split <;> rfl

theorem mem_newPieces {value : Text} {keys : List UdevPiece} {piece : UdevPiece}
    (h : piece ∈ newPieces value keys) :
    (piece ∈ keys ∧ piece.key ≠ none) ∨ ∃ k, k.key = idPathKey ∧ k.op = ['=', '='] ∧
      piece = ⟨keyText k value, some { k with value }⟩ := by
  obtain ⟨piece', hmem, h⟩ := List.mem_filterMap.mp h
  obtain ⟨k, hk, rfl⟩ := Option.map_eq_some_iff.mp h
  split
  · next hpath => exact .inr ⟨k, hpath.1, hpath.2, rfl⟩
  · exact .inl ⟨hmem, by rw [hk]; exact Option.some_ne_none k⟩

/-- The new rule begins with the first key of the old one. -/
theorem isComment_newPieces (value : Text) (file : List Text) :
    ∀ piece ∈ (newPieces value (ruleOf file)).head?, isComment piece.text = false := by
  have hedit : ∀ {piece piece' : UdevPiece} {k : UdevKey}, isComment piece.text = false →
      (if k.key = idPathKey ∧ k.op = ['=', '='] then
        ⟨keyText k value, some { k with value }⟩ else piece) = piece' →
      isComment piece'.text = false := by
    intro piece piece' k hcomment heq
    split at heq
    · rw [← heq]
      exact isComment_eq_false.mpr ⟨',', rfl, by decide⟩
    · rw [← heq]
      exact hcomment
  induction file with
  | nil => nofun
  | cons t file ih =>
    have happend : newPieces value (ruleOf (t :: file)) =
        newPieces value (udevLine t) ++ newPieces value (ruleOf file) := by
      rw [ruleOf, List.flatMap_cons, newPieces, List.filterMap_append]
      rfl
    rw [happend, List.head?_append]
    cases hcomment : isComment t with
    | true =>
      rw [udevLine, if_pos hcomment]
      exact ih
    | false =>
      rw [udevLine, if_neg (by rw [hcomment]; exact Bool.false_ne_true)]
      have hhead := isComment_udevKeys hcomment
      have hreadable := readable_udevKeys t
      cases hkeys : (udevKeys t).1 with
      | nil => exact ih
      | cons piece pieces =>
        rw [hkeys] at hhead hreadable
        obtain ⟨k, hk, -⟩ := hreadable piece List.mem_cons_self
        have hfirst : (newPieces value (piece :: pieces ++ [⟨(udevKeys t).2, none⟩])).head? =
            some (if k.key = idPathKey ∧ k.op = ['=', '='] then
              ⟨keyText k value, some { k with value }⟩ else piece) := by
          rw [newPieces, List.cons_append, List.filterMap_cons, hk]
          rfl
        rw [hfirst]
        exact fun piece' hpiece' => hedit (hhead piece rfl) (Option.some.inj hpiece')

/-- What is known of a new rule. -/
theorem udevLine_newText {file : List Text} {value key : Text}
    (h : ideRule (ruleOf file) = some (value, key)) :
    opens (newText value (ruleOf file) ++ ['\n']) = false ∧
      udevLine (newText value (ruleOf file) ++ ['\n']) = newRule value (ruleOf file) := by
  obtain ⟨path, symlink, hparse, hpath, -⟩ := ideRule_eq_some h
  obtain ⟨piece, hpiece, k, hk, rfl⟩ := mem_of_parse hparse
  obtain ⟨-, -, hquote⟩ := text_of_readable
    (readable_ruleOf hpiece (by rw [hk]; exact Option.some_ne_none k))
  have hvalue : '"' ∉ value := fun hmem => by
    rcases (translated hpath).chars _ hmem with hmem | hmem
    · exact (hquote k hk).1 hmem
    · exact absurd hmem (by decide)
  rw [← newPieces_text, newRule]
  refine udevLine_of_readable (fun piece' hpiece' => ?_) ?_ (isComment_newPieces value file)
  · rcases mem_newPieces hpiece' with ⟨hmem, hkey⟩ | ⟨k', hkey, hop, rfl⟩
    · exact readable_ruleOf hmem hkey
    · exact readable_keyText hkey hop hvalue
  · intro hnil
    have hnone := List.filterMap_eq_nil_iff.mp hnil piece hpiece
    rw [hk] at hnone
    cases hnone

theorem isLine_newText {file : List Text} (hfile : ∀ t ∈ file, IsLine t) {value key : Text}
    (h : ideRule (ruleOf file) = some (value, key)) :
    IsLine (newText value (ruleOf file) ++ ['\n']) := by
  obtain ⟨path, symlink, hparse, hpath, -⟩ := ideRule_eq_some h
  obtain ⟨piece, hpiece, k, hk, rfl⟩ := mem_of_parse hparse
  have hkey : piece.key ≠ none := by
    rw [hk]
    exact Option.some_ne_none k
  obtain ⟨-, -, hvalue⟩ := text_of_readable (readable_ruleOf hpiece hkey)
  refine ⟨_, fun hmem => ?_, rfl⟩
  rw [← newPieces_text] at hmem
  obtain ⟨piece', hpiece', hmem⟩ := List.mem_flatMap.mp hmem
  rcases mem_newPieces hpiece' with ⟨hin, hkey'⟩ | ⟨k', hk', hop, rfl⟩
  · exact newline_ruleOf hfile hin hkey' hmem
  · -- the translated path has no newline, because the old one has none
    have hnew : '\n' ∈ value := by
      have hconst : '\n' ∉ [',', ' '] ++ idPathKey ++ ['=', '='] ++ ['"'] := by decide
      rw [show UdevPiece.text ⟨keyText k' value, _⟩ = keyText k' value from rfl, keyText, hk', hop,
        List.append_assoc, List.mem_append] at hmem
      rcases hmem.resolve_left hconst |> List.mem_append.mp with hmem | hmem
      · exact hmem
      · exact absurd hmem (by decide)
    rcases (translated hpath).chars _ hnew with hold | hold
    · exact newline_ruleOf hfile hpiece hkey ((hvalue k hk).2 _ hold)
    · exact absurd hold (by decide)

end UdevLemmas

/-! ## Unmatched rules -/

/-- The first rule for its IDE path and its symlink, without a rule for the SCSI path. -/
def Unmatched (rules : List (List UdevPiece)) (j : Nat) (path key : Text) : Prop :=
  (∃ keys, rules[j]? = some keys ∧ ideRule keys = some (path, key)) ∧
    (∀ keys ∈ rules.take j, ∀ path', ideRule keys ≠ some (path', key)) ∧
    ∀ keys ∈ rules, scsiRule keys ≠ some key

/-- No rule has the key. -/
def Free (rules : List (List UdevPiece)) (key : Text) : Prop :=
  ∀ keys ∈ rules, (∀ path, ideRule keys ≠ some (path, key)) ∧ scsiRule keys ≠ some key

/-- What the first pass knows after some of the rules. -/
structure CdInv (rules : List (List UdevPiece)) (s : CdState) : Prop where
  i : s.i = rules.length
  wanted : ∀ key j, s.wanted key = some (some j) ↔ ∃ path, Unmatched rules j path key
  free : ∀ key, s.wanted key = none ↔ Free rules key
  unmatched : ∀ j path, s.unmatched j = some path ↔ ∃ key, Unmatched rules j path key

namespace UdevLemmas

theorem Unmatched.lt {rules : List (List UdevPiece)} {j : Nat} {path key : Text}
    (h : Unmatched rules j path key) : j < rules.length := by
  obtain ⟨⟨keys, hkeys, -⟩, -⟩ := h
  exact (List.getElem?_eq_some_iff.mp hkeys).1

theorem unmatched_concat {rules : List (List UdevPiece)} {keys : List UdevPiece} {j : Nat}
    {path key : Text} :
    Unmatched (rules ++ [keys]) j path key ↔
      (Unmatched rules j path key ∧ scsiRule keys ≠ some key) ∨
      (j = rules.length ∧ ideRule keys = some (path, key) ∧ Free rules key) := by
  constructor
  · rintro ⟨⟨keys', hkeys', hide⟩, hfirst, hscsi⟩
    rcases Nat.lt_or_ge j rules.length with hj | hj
    · rw [List.getElem?_append_left hj] at hkeys'
      rw [List.take_append_of_le_length hj.le] at hfirst
      exact .inl ⟨⟨⟨keys', hkeys', hide⟩, hfirst, fun k hk => hscsi k (List.mem_append_left _ hk)⟩,
        hscsi keys (by simp)⟩
    · have hlt := (List.getElem?_eq_some_iff.mp hkeys').1
      rw [List.length_append, List.length_singleton] at hlt
      obtain rfl : j = rules.length := Nat.le_antisymm (Nat.le_of_lt_succ hlt) hj
      rw [List.getElem?_concat_length] at hkeys'
      obtain rfl := Option.some.inj hkeys'
      rw [List.take_left] at hfirst
      exact .inr ⟨rfl, hide, fun k hk => ⟨hfirst k hk, hscsi k (List.mem_append_left _ hk)⟩⟩
  · rintro (⟨⟨⟨keys', hkeys', hide⟩, hfirst, hscsi⟩, hnot⟩ | ⟨rfl, hide, hfree⟩)
    · have hj := (List.getElem?_eq_some_iff.mp hkeys').1
      refine ⟨⟨keys', by rw [List.getElem?_append_left hj, hkeys'], hide⟩, ?_, fun k hk => ?_⟩
      · rwa [List.take_append_of_le_length hj.le]
      · rcases List.mem_append.mp hk with hk | hk
        · exact hscsi k hk
        · rw [List.mem_singleton.mp hk]
          exact hnot
    · refine ⟨⟨keys, List.getElem?_concat_length, hide⟩, ?_, fun k hk => ?_⟩
      · rw [List.take_left]
        exact fun k hk => (hfree k hk).1
      · rcases List.mem_append.mp hk with hk | hk
        · exact (hfree k hk).2
        · rw [List.mem_singleton.mp hk, scsiRule_of_ideRule hide]
          nofun

theorem free_concat {rules : List (List UdevPiece)} {keys : List UdevPiece} {key : Text} :
    Free (rules ++ [keys]) key ↔
      Free rules key ∧ (∀ path, ideRule keys ≠ some (path, key)) ∧ scsiRule keys ≠ some key := by
  rw [Free, List.forall_mem_append, List.forall_mem_singleton, Free]

theorem cdInv_init : CdInv [] CdState.init where
  i := rfl
  wanted _ _ := ⟨nofun, fun ⟨_, h⟩ => absurd (Unmatched.lt h) (Nat.not_lt_zero _)⟩
  free _ := ⟨fun _ => nofun, fun _ => rfl⟩
  unmatched _ _ := ⟨nofun, fun ⟨_, h⟩ => absurd (Unmatched.lt h) (Nat.not_lt_zero _)⟩

variable {rules : List (List UdevPiece)} {s : CdState} {keys : List UdevPiece}

/-- A rule for an IDE path whose key is new is wanted. -/
theorem cdInv_new {path key : Text} (h : CdInv rules s) (hide : ideRule keys = some (path, key))
    (hwanted : s.wanted key = none) : CdInv (rules ++ [keys]) (s.step keys) := by
  have hfree := (h.free key).mp hwanted
  have hconcat : ∀ {j path' key'}, Unmatched (rules ++ [keys]) j path' key' ↔
      Unmatched rules j path' key' ∨ j = rules.length ∧ path' = path ∧ key' = key := by
    intro j path' key'
    rw [unmatched_concat, scsiRule_of_ideRule hide, and_iff_left nofun, hide]
    refine or_congr_right (and_congr_right fun _ => ⟨?_, ?_⟩)
    · rintro ⟨heq, -⟩
      cases heq
      exact ⟨rfl, rfl⟩
    · rintro ⟨rfl, rfl⟩
      exact ⟨rfl, hfree⟩
  have hstep : s.step keys = ⟨Function.update s.wanted key (some (some s.i)),
      Function.update s.unmatched s.i (some path), s.i + 1⟩ := by
    rw [CdState.step, hide]
    simp only [hwanted]
  rw [hstep]
  refine ⟨?_, fun key' j => ?_, fun key' => ?_, fun j path' => ?_⟩
  · rw [List.length_append, ← h.i]
    rfl
  · simp only [hconcat, exists_or]
    rcases eq_or_ne key' key with rfl | hne
    · rw [Function.update_self, ← h.wanted, hwanted, h.i]
      simp [eq_comm]
    · rw [Function.update_of_ne hne, h.wanted]
      simp [hne]
  · rw [free_concat, ← h.free]
    rcases eq_or_ne key' key with rfl | hne
    · simp [hide]
    · simp [Function.update_of_ne hne, hide, hne.symm, scsiRule_of_ideRule hide]
  · simp only [hconcat, exists_or]
    rcases eq_or_ne j s.i with rfl | hne
    · have hno : ¬ ∃ key', Unmatched rules s.i path' key' := fun ⟨_, hun⟩ =>
        absurd (Unmatched.lt hun) (by rw [h.i]; exact Nat.lt_irrefl _)
      rw [Function.update_self, or_iff_right hno]
      simp [h.i, eq_comm]
    · rw [Function.update_of_ne hne, h.unmatched, or_iff_left]
      rintro ⟨_, rfl, -⟩
      exact hne h.i.symm

/-- A rule for a SCSI path is no longer wanted. -/
theorem cdInv_scsi {key : Text} (h : CdInv rules s) (hide : ideRule keys = none)
    (hscsi : scsiRule keys = some key) : CdInv (rules ++ [keys]) (s.step keys) := by
  have hconcat : ∀ {j path' key'}, Unmatched (rules ++ [keys]) j path' key' ↔
      Unmatched rules j path' key' ∧ key ≠ key' := by
    intro j path' key'
    rw [unmatched_concat, hide, hscsi, or_iff_left (by rintro ⟨-, heq, -⟩; cases heq), Ne,
      Option.some.injEq]
  have hstep : s.step keys = ⟨Function.update s.wanted key (some none),
      match s.wanted key with
      | some (some j) => Function.update s.unmatched j none
      | _ => s.unmatched, s.i + 1⟩ := by
    rw [CdState.step, hide, hscsi]
  rw [hstep]
  refine ⟨?_, fun key' j => ?_, fun key' => ?_, fun j path' => ?_⟩
  · rw [List.length_append, ← h.i]
    rfl
  · simp only [hconcat]
    rcases eq_or_ne key' key with rfl | hne
    · simp
    · simp [Function.update_of_ne hne, h.wanted, hne.symm]
  · rw [free_concat, ← h.free]
    rcases eq_or_ne key' key with rfl | hne
    · simp [hscsi]
    · simp [Function.update_of_ne hne, hide, hne.symm, hscsi]
  · simp only [hconcat]
    -- the rule that was wanted until now, if any, is the only one with that key
    have honly : (∃ key', Unmatched rules j path' key' ∧ key ≠ key') ↔
        s.unmatched j = some path' ∧ s.wanted key ≠ some (some j) := by
      rw [h.unmatched, Ne, h.wanted]
      constructor
      · rintro ⟨key', hun, hne⟩
        refine ⟨⟨key', hun⟩, fun ⟨path'', hun'⟩ => hne ?_⟩
        obtain ⟨⟨keys₁, hkeys₁, hide₁⟩, -⟩ := hun
        obtain ⟨⟨keys₂, hkeys₂, hide₂⟩, -⟩ := hun'
        obtain rfl := Option.some.inj (hkeys₁.symm.trans hkeys₂)
        exact (Prod.mk.inj (Option.some.inj (hide₂.symm.trans hide₁))).2
      · rintro ⟨⟨key', hun⟩, hno⟩
        exact ⟨key', hun, fun heq => hno ⟨path', heq ▸ hun⟩⟩
    rw [honly]
    cases hwanted : s.wanted key with
    | none => simp
    | some w =>
      cases w with
      | none => simp
      | some j' =>
        rcases eq_or_ne j j' with rfl | hne
        · simp
        · simp [Function.update_of_ne hne, hne.symm]

/-- Other rules change nothing. -/
theorem cdInv_other (h : CdInv rules s) (hscsi : scsiRule keys = none)
    (hide : ∀ path key, ideRule keys = some (path, key) → s.wanted key ≠ none) :
    CdInv (rules ++ [keys]) (s.step keys) := by
  have hconcat : ∀ {j path' key'}, Unmatched (rules ++ [keys]) j path' key' ↔
      Unmatched rules j path' key' := by
    intro j path' key'
    rw [unmatched_concat, hscsi, and_iff_left nofun, or_iff_left]
    rintro ⟨-, heq, hfree⟩
    exact hide _ _ heq ((h.free key').mpr hfree)
  have hstep : s.step keys = { s with i := s.i + 1 } := by
    rw [CdState.step]
    cases hkeys : ideRule keys with
    | none =>
      rw [hscsi]
    | some m =>
      obtain ⟨path, key⟩ := m
      obtain ⟨w, hw⟩ := Option.ne_none_iff_exists'.mp (hide path key hkeys)
      simp only [hw]
  rw [hstep]
  refine ⟨?_, fun key' j => ?_, fun key' => ?_, fun j path' => ?_⟩
  · rw [List.length_append, ← h.i]
    rfl
  · simp only [hconcat, h.wanted]
  · rw [free_concat, ← h.free, hscsi]
    refine (and_iff_left_of_imp fun hnone => ⟨fun path heq => ?_, nofun⟩).symm
    exact hide path key' heq hnone
  · simp only [hconcat, h.unmatched]

theorem cdInv_step (h : CdInv rules s) (keys : List UdevPiece) :
    CdInv (rules ++ [keys]) (s.step keys) := by
  cases hide : ideRule keys with
  | none =>
    cases hscsi : scsiRule keys with
    | none => exact cdInv_other h hscsi fun path key heq => by rw [hide] at heq; cases heq
    | some key => exact cdInv_scsi h hide hscsi
  | some m =>
    obtain ⟨path, key⟩ := m
    cases hwanted : s.wanted key with
    | none => exact cdInv_new h hide hwanted
    | some w =>
      refine cdInv_other h (scsiRule_of_ideRule hide) fun path' key' heq => ?_
      rw [hide] at heq
      cases heq
      rw [hwanted]
      exact Option.some_ne_none w

/-- The state after all rules. -/
theorem cdInv_foldl (rules : List (List UdevPiece)) :
    CdInv rules (rules.foldl CdState.step CdState.init) := by
  induction rules using List.reverseRecOn with
  | nil => exact cdInv_init
  | append_singleton rules keys ih =>
    rw [List.foldl_append]
    exact cdInv_step ih keys

end UdevLemmas

open UdevLemmas

/-- The rules that are found to be unmatched. -/
theorem findUnmatched_iff {rules : List (List UdevPiece)} {j : Nat} {path : Text} :
    findUnmatched rules j = some path ↔ ∃ key, Unmatched rules j path key :=
  (cdInv_foldl rules).unmatched j path

/-- Without a rule for the SCSI path, one of the rules for an IDE path is unmatched. -/
theorem UdevLemmas.exists_unmatched {rules : List (List UdevPiece)} {keys : List UdevPiece}
    {path key : Text} (hmem : keys ∈ rules) (hide : ideRule keys = some (path, key))
    (hscsi : ∀ keys ∈ rules, scsiRule keys ≠ some key) :
    ∃ j path, Unmatched rules j path key := by
  let p : List UdevPiece → Bool := fun keys => (ideRule keys).map Prod.snd = some key
  have hp : ∀ keys, p keys = true ↔ ∃ path, ideRule keys = some (path, key) := by
    intro keys
    rw [decide_eq_true_iff, Option.map_eq_some_iff]
    exact ⟨fun ⟨⟨path, _⟩, h, hkey⟩ => ⟨path, hkey ▸ h⟩, fun ⟨path, h⟩ => ⟨(path, key), h, rfl⟩⟩
  have hlt : rules.findIdx p < rules.length :=
    List.findIdx_lt_length_of_exists ⟨keys, hmem, (hp keys).mpr ⟨path, hide⟩⟩
  obtain ⟨path', hide'⟩ := (hp _).mp (List.findIdx_getElem (w := hlt))
  refine ⟨rules.findIdx p, path', ⟨_, List.getElem?_eq_getElem hlt, hide'⟩, ?_, hscsi⟩
  intro keys' hkeys' path'' hide''
  obtain ⟨i, hi, rfl⟩ := List.mem_iff_getElem.mp hkeys'
  rw [List.length_take] at hi
  rw [List.getElem_take] at hide''
  have hno := List.not_of_lt_findIdx (Nat.lt_of_lt_of_le hi (Nat.min_le_left _ _))
  rw [(hp _).mpr ⟨path'', hide''⟩] at hno
  cases hno

/-! ## The new file -/

/-- The lines of the new file, by the lines of the rules. -/
def newLines (needs : Nat → Option Text) : Nat → List (List Text) → List Text
  | _, [] => []
  | i, g :: groups =>
    g ++ ((needs i).map fun value => newText value (ruleOf g) ++ ['\n']).toList ++
      newLines needs (i + 1) groups

/-- What is wanted is the path of a rule for an IDE device. -/
def NeedsPaths (needs : Nat → Option Text) (i : Nat) (rules : List (List UdevPiece)) : Prop :=
  ∀ j keys value, rules[j]? = some keys → needs (i + j) = some value →
    ∃ key, ideRule keys = some (value, key)

namespace UdevLemmas

theorem needsPaths_head {needs : Nat → Option Text} {i : Nat} {keys : List UdevPiece}
    {rules : List (List UdevPiece)} (h : NeedsPaths needs i (keys :: rules)) {value : Text}
    (hvalue : needs i = some value) : ∃ key, ideRule keys = some (value, key) :=
  h 0 keys value rfl hvalue

theorem needsPaths_tail {needs : Nat → Option Text} {i : Nat} {keys : List UdevPiece}
    {rules : List (List UdevPiece)} (h : NeedsPaths needs i (keys :: rules)) :
    NeedsPaths needs (i + 1) rules := by
  intro j keys' value hkeys hvalue
  rw [Nat.add_assoc, Nat.add_comm 1 j] at hvalue
  exact h (j + 1) keys' value hkeys hvalue

theorem needsPaths_findUnmatched (rules : List (List UdevPiece)) :
    NeedsPaths (findUnmatched rules) 0 rules := by
  intro j keys value hkeys h
  rw [Nat.zero_add, findUnmatched_iff] at h
  obtain ⟨key, ⟨keys', hkeys', hide⟩, -⟩ := h
  obtain rfl := Option.some.inj (hkeys.symm.trans hkeys')
  exact ⟨key, hide⟩

variable {needs : Nat → Option Text}

theorem updateRules_eq {groups : List (List Text)} : ∀ {i : Nat},
    NeedsPaths needs i (groups.map ruleOf) →
    updateRules needs i (groups.map ruleOf) = (newLines needs i groups).flatten := by
  induction groups with
  | nil => exact fun _ => rfl
  | cons g groups ih =>
    intro i h
    have hfilter : (needs i).filter (fun value => value ≠ [] ∧ value ≠ "0") = needs i := by
      cases hneeds : needs i with
      | none => rfl
      | some value =>
        obtain ⟨key, hide⟩ := needsPaths_head h hneeds
        obtain ⟨path, symlink, -, hpath, -⟩ := ideRule_eq_some hide
        exact Option.filter_some_pos (decide_eq_true (translated hpath).truth)
    rw [List.map_cons, updateRules, ih (needsPaths_tail h), ruleOf_text, newLines,
      List.flatten_append, List.flatten_append, hfilter]
    cases needs i with
    | none => rfl
    | some value => simp

theorem isLine_newLines {groups : List (List Text)} (hlines : ∀ g ∈ groups, ∀ t ∈ g, IsLine t) :
    ∀ {i : Nat}, NeedsPaths needs i (groups.map ruleOf) →
    ∀ t ∈ newLines needs i groups, IsLine t := by
  induction groups with
  | nil => exact fun _ => nofun
  | cons g groups ih =>
    intro i h t ht
    rw [newLines, List.mem_append, List.mem_append] at ht
    rcases ht with (ht | ht) | ht
    · exact hlines g List.mem_cons_self t ht
    · rw [Option.mem_toList, Option.map_eq_some_iff] at ht
      obtain ⟨value, hvalue, rfl⟩ := ht
      obtain ⟨key, hide⟩ := needsPaths_head h hvalue
      exact isLine_newText (hlines g List.mem_cons_self) hide
    · exact ih (fun g' hg' => hlines g' (List.mem_cons_of_mem _ hg')) (needsPaths_tail h) t ht

/-- Behind a finished rule, the new rule is read back. -/
theorem udevRules_newLines {groups : List (List Text)} (hrules : ∀ g ∈ groups, IsRule g) :
    ∀ {i : Nat}, NeedsPaths needs i (groups.map ruleOf) → ∀ rest,
    udevRules (newLines needs i groups ++ rest) =
      withNewRules needs i (groups.map ruleOf) ++ udevRules rest := by
  induction groups with
  | nil => exact fun _ _ => rfl
  | cons g groups ih =>
    intro i h rest
    have htail := ih (fun g' hg' => hrules g' (List.mem_cons_of_mem _ hg')) (needsPaths_tail h) rest
    obtain ⟨front, text, hg, hfront, htext⟩ := hrules g List.mem_cons_self
    have hread : ∀ rest, udevRules (g ++ rest) = ruleOf g :: udevRules rest := by
      intro rest
      rw [hg, List.append_assoc, List.singleton_append, udevRules_complete hfront htext]
    rw [newLines, List.append_assoc, List.append_assoc, hread, List.map_cons, withNewRules]
    cases hneeds : needs i with
    | none => exact congrArg _ htail
    | some value =>
      obtain ⟨key, hide⟩ := needsPaths_head h hneeds
      obtain ⟨hopens, hline⟩ := udevLine_newText hide
      have hnew := @udevRules_complete [] _ nofun hopens
        (newLines needs (i + 1) groups ++ rest)
      rw [List.nil_append, List.nil_append, ruleOf_singleton, hline] at hnew
      rw [htail] at hnew
      exact congrArg _ hnew

theorem newLines_append (groups groups' : List (List Text)) : ∀ i : Nat,
    newLines needs i (groups ++ groups') =
      newLines needs i groups ++ newLines needs (i + groups.length) groups' := by
  induction groups with
  | nil => exact fun i => rfl
  | cons g groups ih =>
    intro i
    rw [List.cons_append, newLines, ih, newLines, ← List.append_assoc, List.length_cons,
      Nat.add_assoc, Nat.add_comm 1]

theorem withNewRules_append (rules rules' : List (List UdevPiece)) : ∀ i : Nat,
    withNewRules needs i (rules ++ rules') =
      withNewRules needs i rules ++ withNewRules needs (i + rules.length) rules' := by
  induction rules with
  | nil => exact fun i => rfl
  | cons keys rules ih =>
    intro i
    rw [List.cons_append, withNewRules, ih, withNewRules, List.append_assoc, List.length_cons,
      Nat.add_assoc, Nat.add_comm 1]

theorem mem_withNewRules {rules : List (List UdevPiece)} {keys : List UdevPiece} : ∀ {i : Nat},
    keys ∈ withNewRules needs i rules ↔ keys ∈ rules ∨ ∃ j keys' value,
      rules[j]? = some keys' ∧ needs (i + j) = some value ∧ keys = newRule value keys' := by
  induction rules with
  | nil => simp [withNewRules]
  | cons keys₀ rules ih =>
    intro i
    rw [withNewRules, List.mem_append, List.mem_cons, ih, List.mem_cons]
    constructor
    · rintro ((rfl | h) | h | ⟨j, keys', value, hkeys, hneeds, rfl⟩)
      · exact .inl (.inl rfl)
      · rw [Option.mem_toList, Option.map_eq_some_iff] at h
        obtain ⟨value, hneeds, rfl⟩ := h
        exact .inr ⟨0, keys₀, value, rfl, hneeds, rfl⟩
      · exact .inl (.inr h)
      · refine .inr ⟨j + 1, keys', value, hkeys, ?_, rfl⟩
        rwa [Nat.add_comm j, ← Nat.add_assoc]
    · rintro ((rfl | h) | ⟨j, keys', value, hkeys, hneeds, rfl⟩)
      · exact .inl (.inl rfl)
      · exact .inr (.inl h)
      · cases j with
        | zero =>
          obtain rfl := Option.some.inj hkeys
          refine .inl (.inr ?_)
          rw [Option.mem_toList, Option.map_eq_some_iff]
          exact ⟨value, hneeds, rfl⟩
        | succ j =>
          refine .inr (.inr ⟨j, keys', value, hkeys, ?_, rfl⟩)
          rwa [Nat.add_assoc, Nat.add_comm 1]

/-- The rule that is added fits the key of the rule it is made from. -/
theorem scsiRule_newRule {keys : List UdevPiece} {value key : Text}
    (h : ideRule keys = some (value, key)) :
    ideRule (newRule value keys) = none ∧ scsiRule (newRule value keys) = some key := by
  obtain ⟨path, symlink, hparse, hpath, rfl⟩ := ideRule_eq_some h
  have hnew := translated hpath
  rw [ideRule, scsiRule, parse_newRule hparse]
  exact ⟨by simp [hnew.notIde], if_pos ⟨hnew.notIde, hnew.scsi⟩⟩

/-- With the new rules, nothing is unmatched. -/
theorem findUnmatched_withNewRules (rules : List (List UdevPiece)) (j : Nat) :
    findUnmatched (withNewRules (findUnmatched rules) 0 rules) j = none := by
  rw [Option.eq_none_iff_forall_not_mem]
  intro path hpath
  obtain ⟨key, ⟨keys, hkeys, hide⟩, -, hscsi⟩ := findUnmatched_iff.mp hpath
  have hnone : ∀ keys ∈ rules, scsiRule keys ≠ some key := fun keys hmem =>
    hscsi keys (mem_withNewRules.mpr (.inl hmem))
  rcases mem_withNewRules.mp (List.mem_of_getElem? hkeys) with
    hmem | ⟨i, keys', value, hkeys', hneeds, rfl⟩
  · -- the first rule with the key got a new one
    obtain ⟨i, value, hun⟩ := exists_unmatched hmem hide hnone
    have hneeds := findUnmatched_iff.mpr ⟨key, hun⟩
    obtain ⟨⟨keys', hkeys', hide'⟩, -⟩ := hun
    refine hscsi (newRule value keys')
      (mem_withNewRules.mpr (.inr ⟨i, keys', value, hkeys', ?_, rfl⟩)) (scsiRule_newRule hide').2
    rwa [Nat.zero_add]
  · obtain ⟨key'', hide''⟩ := needsPaths_findUnmatched rules i keys' value hkeys' hneeds
    rw [(scsiRule_newRule hide'').1] at hide
    cases hide

theorem updateRules_none {rules : List (List UdevPiece)} {needs : Nat → Option Text}
    (h : ∀ j, needs j = none) : ∀ i, updateRules needs i rules = rules.flatMap pieceText := by
  induction rules with
  | nil => exact fun i => rfl
  | cons keys rules ih =>
    intro i
    rw [updateRules, ih, h i, List.flatMap_cons]
    exact congrArg (· ++ _) (List.append_nil _)

theorem unmatchedRule_of_findUnmatched {rules : List (List UdevPiece)} {i : Nat} {value : Text}
    (h : findUnmatched rules i = some value) : UnmatchedRule rules i value := by
  obtain ⟨key, ⟨keys, hkeys, hide⟩, -, hscsi⟩ := findUnmatched_iff.mp h
  obtain ⟨path, symlink, hparse, hpath, rfl⟩ := ideRule_eq_some hide
  refine ⟨keys, path, symlink, hkeys, hparse, hpath, fun keys' hkeys' hparse' => ?_⟩
  refine hscsi keys' hkeys' ?_
  rw [scsiRule, hparse']
  exact if_pos ⟨(translated hpath).notIde, (translated hpath).scsi⟩

/-- When the new file has the rules it should have, everything else follows. -/
theorem updateCorrect_of_rules {file : Text}
    (h : udevRules (lines (udevCdUpdate file)) =
      withNewRules (findUnmatched (udevRules (lines file))) 0 (udevRules (lines file))) :
    UpdateCorrect file where
  lossless := by rw [udevRules_text, flatten_lines]
  rules := ⟨_, fun _ _ => unmatchedRule_of_findUnmatched, h⟩
  complete := by
    intro paths hpaths
    have hnil : needsUpdatePaths (udevRules (lines (udevCdUpdate file))) = [] := by
      rw [needsUpdatePaths, h]
      simp only [findUnmatched_withNewRules, List.filterMap_none]
      rfl
    rw [hnil, List.perm_nil] at hpaths
    rw [hpaths]
    rfl
  stable := by
    rw [udevCdUpdate, updateRules_none, udevRules_text, flatten_lines]
    rw [h]
    exact findUnmatched_withNewRules _

/-- The rules of a file, and the lines they are made of. -/
theorem exists_groups (file : List Text) :
    ∃ groups : List (List Text), file.rdropWhile opens = groups.flatten ∧
      (∀ g ∈ groups, IsRule g) ∧ file = groups.flatten ++ file.rtakeWhile opens ∧
      udevRules (file.rdropWhile opens) = groups.map ruleOf ∧
      udevRules file = groups.map ruleOf ++ udevRules (file.rtakeWhile opens) := by
  obtain ⟨groups, hflat, hgroups⟩ := exists_rules file
  have hfile : file = groups.flatten ++ file.rtakeWhile opens := by
    rw [← hflat, List.rdropWhile_append_rtakeWhile]
  refine ⟨groups, hflat, hgroups, hfile, ?_, ?_⟩
  · have h := udevRules_groups hgroups []
    rwa [List.append_nil, udevRules_nil, List.append_nil, ← hflat] at h
  · conv_lhs => rw [hfile]
    exact udevRules_groups hgroups _

theorem exists_unkeyed {file : List Text} (h : file ≠ []) :
    ∃ piece ∈ ruleOf file, piece.key = none := by
  obtain ⟨text, file, rfl⟩ := List.exists_cons_of_ne_nil h
  obtain ⟨piece, hpiece, hkey⟩ : ∃ piece ∈ udevLine text, piece.key = none := by
    rw [udevLine]
    split
    · exact ⟨_, List.mem_cons_self, rfl⟩
    · exact ⟨_, List.mem_append_right _ List.mem_cons_self, rfl⟩
  exact ⟨piece, List.mem_flatMap.mpr ⟨text, List.mem_cons_self, hpiece⟩, hkey⟩

/-- Behind an unfinished rule, the new rule is read as a part of it. -/
theorem open_rule_ne {needs : Nat → Option Text} {groups : List (List Text)} {last : List Text}
    {value : Text} {before : List (List UdevPiece)} (hne : last ≠ []) :
    before ++ [ruleOf last ++ newRule value (ruleOf last)] ≠
      withNewRules needs 0 (groups.map ruleOf ++ [ruleOf last]) := by
  intro h
  rw [withNewRules_append, withNewRules, withNewRules, List.append_nil] at h
  obtain ⟨piece, hpiece, hkey⟩ := exists_unkeyed hne
  cases hneeds : needs (0 + (groups.map ruleOf).length) with
  | none =>
    rw [hneeds] at h
    have hlast := List.cons.inj (List.append_inj_right' h rfl)
    have hnil := List.append_right_eq_self.mp hlast.1
    exact absurd (List.append_eq_nil_iff.mp hnil).2 (List.cons_ne_nil _ _)
  | some value' =>
    rw [hneeds] at h
    have hsplit : ∀ l : List (List UdevPiece), ∀ a b, l ++ [a, b] = (l ++ [a]) ++ [b] := by simp
    rw [Option.map_some, Option.toList_some, hsplit] at h
    have hlast := (List.cons.inj (List.append_inj_right' h rfl)).1
    rw [newRule, newRule, ← List.append_assoc] at hlast
    have hpieces := List.append_inj_left' hlast rfl
    have hmem : piece ∈ newPieces value' (ruleOf last) := by
      rw [← hpieces]
      exact List.mem_append_left _ hpiece
    rcases mem_newPieces hmem with ⟨-, hno⟩ | ⟨k, -, -, rfl⟩
    · exact hno hkey
    · cases hkey

theorem update_lines {file : Text} {groups : List (List Text)}
    (hrules : udevRules (lines file) = groups.map ruleOf)
    (hlines : ∀ g ∈ groups, ∀ t ∈ g, IsLine t) :
    lines (udevCdUpdate file) = newLines (findUnmatched (udevRules (lines file))) 0 groups := by
  have hneeds := needsPaths_findUnmatched (udevRules (lines file))
  rw [hrules] at hneeds
  rw [udevCdUpdate, hrules, updateRules_eq hneeds, lines_flatten (isLine_newLines hlines hneeds)]

/-- How the new file is read. -/
theorem update_cases {file : Text} (h : Terminated file) :
    (UpdateCorrect file ∧ UpdateSafe file) ∨ (¬ UpdateCorrect file ∧ ¬ UpdateSafe file) := by
  obtain ⟨groups, hflat, hgroups, hfile, hbefore, hrules⟩ := exists_groups (lines file)
  have hopen : ∀ t ∈ openLines file, opens t = true := fun t ht => List.mem_rtakeWhile_imp ht
  rw [← openLines] at hfile hrules
  rw [UpdateSafe, hbefore]
  generalize openLines file = last at hfile hrules hopen ⊢
  have hlines : ∀ g ∈ groups ++ [last], ∀ t ∈ g, IsLine t := by
    intro g hg t ht
    refine isLine_of_mem_lines h ?_
    rw [hfile, ← List.flatten_concat, List.mem_flatten]
    exact ⟨g, hg, ht⟩
  have hneeds := needsPaths_findUnmatched (udevRules (lines file))
  rcases eq_or_ne last [] with rfl | hne
  · rw [udevRules_nil, List.append_nil] at hrules
    have hnew := update_lines hrules fun g hg => hlines g (List.mem_append_left _ hg)
    refine .inl ⟨updateCorrect_of_rules ?_, nofun⟩
    rw [hrules] at hneeds hnew ⊢
    have hread := udevRules_newLines hgroups hneeds []
    rwa [List.append_nil, udevRules_nil, List.append_nil, ← hnew] at hread
  · rw [udevRules_open hne hopen, show [ruleOf last] = [last].map ruleOf from rfl,
      ← List.map_append] at hrules
    have hnew := update_lines hrules hlines
    rw [newLines_append] at hnew
    have hget : (udevRules (lines file))[groups.length]? = some (ruleOf last) := by
      rw [hrules, List.map_append, List.getElem?_append_right (by simp)]
      simp
    have htake : (udevRules (lines file)).take groups.length = groups.map ruleOf := by
      rw [hrules, List.map_append, List.take_left' (List.length_map ruleOf)]
    have hread := @udevRules_newLines (findUnmatched (udevRules (lines file))) groups hgroups 0
      fun j keys value hkeys hvalue => by
        refine hneeds j keys value ?_ hvalue
        rw [hrules, List.map_append, List.getElem?_append_left, hkeys]
        exact (List.getElem?_eq_some_iff.mp hkeys).1
    cases hlast : findUnmatched (udevRules (lines file)) groups.length with
    | none =>
      refine .inl ⟨updateCorrect_of_rules ?_, fun path key hide => ?_⟩
      · rw [hnew, hread, newLines, Nat.zero_add, hlast, Option.map_none, Option.toList_none,
          List.append_nil, newLines, List.append_nil, udevRules_open hne hopen]
        generalize findUnmatched (udevRules (lines file)) = needs at hlast
        rw [hrules, List.map_append, withNewRules_append, List.length_map, Nat.zero_add]
        simp only [List.map_cons, List.map_nil, withNewRules, hlast, Option.map_none,
          Option.toList_none, List.append_nil]
      · by_contra hno
        have hnot : ∀ keys ∈ groups.map ruleOf, (∀ path', ideRule keys ≠ some (path', key)) ∧
            scsiRule keys ≠ some key := fun keys hmem =>
          ⟨fun path' hide' => hno ⟨keys, hmem, .inl ⟨path', hide'⟩⟩,
            fun hscsi => hno ⟨keys, hmem, .inr hscsi⟩⟩
        have hun : Unmatched (udevRules (lines file)) groups.length path key := by
          refine ⟨⟨ruleOf last, hget, hide⟩, ?_, fun keys hkeys => ?_⟩
          · rw [htake]
            exact fun keys hkeys => (hnot keys hkeys).1
          · rw [hrules, List.map_append, List.mem_append] at hkeys
            rcases hkeys with hkeys | hkeys
            · exact (hnot keys hkeys).2
            · rw [List.mem_singleton.mp hkeys, scsiRule_of_ideRule hide]
              nofun
        rw [findUnmatched_iff.mpr ⟨key, hun⟩] at hlast
        cases hlast
    | some value =>
      obtain ⟨key, hun⟩ := findUnmatched_iff.mp hlast
      obtain ⟨⟨keys, hkeys, hide⟩, hfirst, hscsi⟩ := hun
      obtain rfl := Option.some.inj (hget.symm.trans hkeys)
      refine .inr ⟨fun hcorrect => ?_, fun hsafe => ?_⟩
      · obtain ⟨needs, -, hrules'⟩ := hcorrect.rules
        obtain ⟨hopens, hline⟩ := udevLine_newText hide
        have hmerged := udevRules_complete hopen hopens []
        rw [ruleOf_append, ruleOf_singleton, hline, udevRules_nil] at hmerged
        rw [hnew, hread, newLines, Nat.zero_add, hlast, newLines, List.append_nil, hrules,
          List.map_append] at hrules'
        exact open_rule_ne hne (hmerged ▸ hrules')
      · obtain ⟨keys', hmem, hcase⟩ := hsafe value key hide
        rcases hcase with ⟨path', hide'⟩ | hscsi'
        · exact hfirst keys' (by rwa [htake]) path' hide'
        · exact hscsi keys' (List.mem_of_mem_take (htake ▸ hmem)) hscsi'

end UdevLemmas

/-- An update is lossless, complete and stable, for exactly these files. -/
theorem updateCorrect_iff {file : Text} (h : Terminated file) :
    UpdateCorrect file ↔ UpdateSafe file := by
  rcases update_cases h with ⟨hcorrect, hsafe⟩ | ⟨hcorrect, hsafe⟩
  · exact iff_of_true hcorrect hsafe
  · exact iff_of_false hcorrect hsafe

/-- A rule for an IDE device, without the end of its line. -/
def cdRule : Text := "ENV\x7bID_PATH\x7d==\"pci-ide-1:0\", SYMLINK+=\"cdrom\""

theorem finished_rule_correct : UpdateCorrect (cdRule ++ "\n# end\n") := by
  refine (updateCorrect_iff (.inr ⟨cdRule ++ "\n# end", by decide⟩)).mpr fun path key h => ?_
  have hnone : ideRule (ruleOf (openLines (cdRule ++ "\n# end\n"))) = none := by decide +kernel
  rw [hnone] at h
  cases h

/-- The new rule becomes a part of the rule that it follows. -/
theorem unfinished_rule_changes : ¬ UpdateCorrect (cdRule ++ " \\\n# end\n") := by
  have hterm : Terminated (cdRule ++ " \\\n# end\n") := .inr ⟨cdRule ++ " \\\n# end", by decide⟩
  intro hcorrect
  rcases update_cases hterm with ⟨-, hsafe⟩ | ⟨hno, -⟩
  · have hide : ideRule (ruleOf (openLines (cdRule ++ " \\\n# end\n"))) =
        some (("pci-scsi-1:0:0:0" : Text), ("pci-scsi-1:0:0:0 cdrom" : Text)) := by
      decide +kernel
    have hbefore : udevRules ((lines (cdRule ++ " \\\n# end\n")).rdropWhile opens) = [] := by
      decide +kernel
    obtain ⟨keys, hmem, -⟩ := hsafe _ _ hide
    rw [hbefore] at hmem
    cases hmem
  · exact hno hcorrect

end DebianKernel.DiskId
