import DebianKernel.DiskId.Kernel
import DebianKernel.Lib.LineEdit

/-!
# The append-style rewriters

The update functions for cryptsetup, uswsusp and extlinux keep a line that names a
mapped device as a comment and append a new line to it. They do not look whether the
old line has a newline, so the last line of a file without one swallows its successor.

Results:
1. `cryptsetupNext_src`, `uswsuspNext_newLine`, `extlinuxParams_newLine`: what is read
   from a new line.
2. `rewriters_in_force_iff`: for each format, the references are in force with their new
   ids and the lines are as written, if and only if every rewritten line ends with a
   newline.
-/

namespace DebianKernel.DiskId

open Text KernelLemmas

/-! ## cryptsetup -/

/-- `split(/\s+/, $line, $limit)`, on a text that does not start with a blank. -/
def splitFields : Nat → Text → List Text
  | 0, t => [t]
  | 1, t => [t]
  | limit + 1, t =>
    match t.dropWhile (!isSpace ·) with
    | [] => [t.takeWhile (!isSpace ·)]
    | rest => t.takeWhile (!isSpace ·) :: splitFields limit (rest.dropWhile isSpace)

/-- The fields that `cryptsetup_next` returns after the text of the line. -/
def cryptsetupNext (text : Text) : List Text :=
  match text.dropWhile isSpace with
  | [] => []
  | '#' :: _ => []
  | _ => splitFields 4 (strip text)

/-- The body of the loop of `cryptsetup_list`. -/
def cryptsetupRead (results : List Text) (text : Text) : List Text :=
  match (cryptsetupNext text)[1]? with
  | some src => results ++ [src]
  | none => results

/-- `cryptsetup_list`. -/
def cryptsetupList (file : Text) : List Text := (lines file).foldl cryptsetupRead []

/-- The new line of `cryptsetup_update`. A field that is not there is joined as an empty
string. -/
def cryptsetupRewrite (map : DeviceMap) (text : Text) : Option Text :=
  let fields := cryptsetupNext text
  match fields[0]?, fields[1]? with
  | some dst, some src => (map src).map fun id =>
      dst ++ [' '] ++ id ++ [' '] ++ fields[2]?.getD [] ++ [' '] ++ fields[3]?.getD [] ++ ['\n']
  | _, _ => none

/-- `cryptsetup_update`. -/
def cryptsetupUpdate (old : Text) (map : DeviceMap) : Text :=
  editLines "# " (cryptsetupRewrite map) old

/-! ## uswsusp -/

def isBlankChar (c : Char) : Bool := c = ' ' ∨ c = '\t'

/-- The match of `^([\w ]*\w)[ \t]*[:=][ \t]*(.+)$` on a line: the name and the value.
Where only blanks follow the separator, the last one is the value. -/
def uswsuspNext (text : Text) : Option (Text × Text) :=
  let name := (text.takeWhile fun c => isWordChar c || c = ' ').rdropWhile (· = ' ')
  if name = [] then none
  else
    match (text.drop name.length).dropWhile isBlankChar with
    | [] => none
    | sep :: rest =>
      if sep = ':' ∨ sep = '=' then
        let value := (rest.dropWhile isBlankChar).takeWhile (· ≠ '\n')
        if value = [] then (rest.takeWhile isBlankChar).getLast?.map fun c => (name, [c])
        else some (name, value)
      else none

/-- The body of the loop of `uswsusp_resume_list`. -/
def uswsuspRead (results : List Text) (text : Text) : List Text :=
  match uswsuspNext text with
  | some (name, value) => if name = "resume device" then [value] else results
  | none => results

/-- `uswsusp_resume_list`. -/
def uswsuspResumeList (file : Text) : List Text := (lines file).foldl uswsuspRead []

/-- The new line of `uswsusp_resume_update`; the outer option is `none` when
`id_to_path` dies. -/
def uswsuspRewrite (map : DeviceMap) (text : Text) : Option (Option Text) :=
  match uswsuspNext text with
  | some (name, value) =>
    if name = "resume device" then
      match map value with
      | some id => (idToPath id).map fun path => some (name ++ " = " ++ path ++ ['\n'])
      | none => some none
    else some none
  | none => some none

/-- The new line, for a map with which `id_to_path` does not die. -/
def uswsuspLine (map : DeviceMap) (text : Text) : Option Text := (uswsuspRewrite map text).join

/-- `uswsusp_resume_update`. -/
def uswsuspResumeUpdate (old : Text) (map : DeviceMap) : Option Text := do
  let written ← (lines old).mapM fun text => do
    match ← uswsuspRewrite map text with
    | some new => pure ("# " ++ text ++ new)
    | none => pure text
  pure written.flatten

/-! ## extlinux -/

/-- The match of `/^<mark>(.*)/`. -/
def extlinuxParams (mark text : Text) : Option Text :=
  if mark <+: text then some ((text.drop mark.length).takeWhile (· ≠ '\n')) else none

/-- The body of the loop of an extlinux list function, which returns at the first match. -/
def extlinuxRead (mark : Text) (result : Option (List Text)) (text : Text) : Option (List Text) :=
  match result with
  | some devices => some devices
  | none => (extlinuxParams mark text).map kernelList

def extlinuxList (mark file : Text) : List Text :=
  ((lines file).foldl (extlinuxRead mark) none).getD []

/-- The new line of an extlinux update function. -/
def extlinuxRewrite (mark : Text) (map : DeviceMap) (text : Text) : Option Text := do
  let params ← extlinuxParams mark text
  let new ← kernelUpdate params map
  pure (mark ++ new ++ ['\n'])

def extlinuxUpdate (mark old : Text) (map : DeviceMap) : Text :=
  editLines "## " (extlinuxRewrite mark map) old

/-- `extlinux_old_list`. -/
def extlinuxOldList (file : Text) : List Text := extlinuxList "## ROOT=" file

/-- `extlinux_old_update`. -/
def extlinuxOldUpdate (old : Text) (map : DeviceMap) : Text := extlinuxUpdate "## ROOT=" old map

/-- `extlinux_new_list`. -/
def extlinuxNewList (file : Text) : List Text := extlinuxList "# ROOT=" file

/-- `extlinux_new_update`. -/
def extlinuxNewUpdate (old : Text) (map : DeviceMap) : Text := extlinuxUpdate "# ROOT=" old map

/-! ## Ids -/

/-- An id as the postinst makes them: a label, a UUID or an absolute path. -/
def IsId (id : Text) : Prop :=
  (∃ label : Text, id = "LABEL=" ++ label) ∨ (∃ uuid : Text, id = "UUID=" ++ uuid) ∨
    ∃ path : Text, id = '/' :: path

/-- The map gives ids without whitespace. -/
def DeviceMap.Writable (map : DeviceMap) : Prop :=
  ∀ bdev id, map bdev = some id → IsId id ∧ ∀ c ∈ id, isSpace c = false

/-- The path that stands for a device after the update. -/
def DeviceMap.replacePath (map : DeviceMap) (bdev : Text) : Text :=
  ((map bdev).bind idToPath).getD bdev

namespace LineUpdateLemmas

theorem isId_ne_nil {id : Text} (h : IsId id) : id ≠ [] := by
  rcases h with ⟨_, rfl⟩ | ⟨_, rfl⟩ | ⟨_, rfl⟩ <;> exact List.cons_ne_nil _ _

/-- The path of an id, which has no whitespace if the id has none. -/
theorem idToPath_of_isId {id : Text} (h : IsId id) (hspace : ∀ c ∈ id, isSpace c = false) :
    ∃ path, idToPath id = some path ∧ path ≠ [] ∧ ∀ c ∈ path, isSpace c = false := by
  rcases h with ⟨label, rfl⟩ | ⟨uuid, rfl⟩ | ⟨path, rfl⟩
  · refine ⟨"/dev/disk/by-label/" ++ label, rfl, List.cons_ne_nil _ _, ?_⟩
    intro c hc
    have hdir : ∀ c ∈ ("/dev/disk/by-label/" : Text), isSpace c = false := forall_mem_of_all rfl
    cases List.mem_append.mp hc with
    | inl hc => exact hdir c hc
    | inr hc => exact hspace c (List.mem_append_right _ hc)
  · refine ⟨"/dev/disk/by-uuid/" ++ uuid, rfl, List.cons_ne_nil _ _, ?_⟩
    intro c hc
    have hdir : ∀ c ∈ ("/dev/disk/by-uuid/" : Text), isSpace c = false := forall_mem_of_all rfl
    cases List.mem_append.mp hc with
    | inl hc => exact hdir c hc
    | inr hc => exact hspace c (List.mem_append_right _ hc)
  · exact ⟨'/' :: path, rfl, List.cons_ne_nil _ _, hspace⟩

theorem newline_of_noSpace {t : Text} (h : ∀ c ∈ t, isSpace c = false) : '\n' ∉ t :=
  fun hmem => absurd (h _ hmem) (by decide)

/-! ### cryptsetup -/

theorem splitFields_succ (limit : Nat) (t : Text) :
    splitFields (limit + 2) t =
      match t.dropWhile (!isSpace ·) with
      | [] => [t.takeWhile (!isSpace ·)]
      | rest => t.takeWhile (!isSpace ·) :: splitFields (limit + 1) (rest.dropWhile isSpace) := rfl

theorem splitFields_head (limit : Nat) (t : Text) :
    (splitFields (limit + 2) t)[0]? = some (t.takeWhile (!isSpace ·)) := by
  rw [splitFields_succ]
  split <;> rfl

theorem mem_of_mem_splitFields {limit : Nat} {t f : Text} (hf : f ∈ splitFields limit t) {c : Char}
    (hc : c ∈ f) : c ∈ t := by
  induction limit generalizing t with
  | zero =>
    rw [List.mem_singleton.mp hf] at hc
    exact hc
  | succ limit ih =>
    cases limit with
    | zero =>
      rw [List.mem_singleton.mp hf] at hc
      exact hc
    | succ limit =>
      rw [splitFields_succ] at hf
      split at hf
      · rw [List.mem_singleton.mp hf] at hc
        exact (List.takeWhile_sublist _).mem hc
      · next rest hdrop =>
        rcases List.mem_cons.mp hf with rfl | hf
        · exact (List.takeWhile_sublist _).mem hc
        · have hrest := (List.dropWhile_sublist _).mem (ih hf)
          exact (List.dropWhile_sublist _).mem hrest

/-- A line that is no comment. -/
theorem cryptsetupNext_cases (text : Text) :
    cryptsetupNext text = [] ∨ ∃ c t, text.dropWhile isSpace = c :: t ∧ c ≠ '#' ∧
      isSpace c = false ∧ cryptsetupNext text = splitFields 4 (c :: t.rdropWhile isSpace) := by
  cases hd : text.dropWhile isSpace with
  | nil =>
    unfold cryptsetupNext
    rw [hd]
    exact .inl rfl
  | cons c t =>
    by_cases hc : c = '#'
    · subst hc
      unfold cryptsetupNext
      rw [hd]
      exact .inl rfl
    · have hspace : isSpace c = false := by
        have hne : text.dropWhile isSpace ≠ [] := by rw [hd]; exact List.cons_ne_nil _ _
        have hhead := List.head_dropWhile_not isSpace hne
        simpa only [hd, List.head_cons] using hhead
      have hstrip : strip text = c :: t.rdropWhile isSpace := by
        unfold strip
        rw [hd]
        exact rdropWhile_append (List.cons_ne_nil c []) hspace t
      refine .inr ⟨c, t, rfl, hc, hspace, ?_⟩
      unfold cryptsetupNext
      rw [hd, hstrip]
      split
      · next h => cases h
      · next h => exact absurd (List.cons.inj h).1 hc
      · rfl

/-- The words at the start of a text, with a blank or nothing behind them. -/
theorem takeWhile_word {w r : Text} (hw : ∀ x ∈ w, isSpace x = false)
    (hr : ∀ x ∈ r.head?, isSpace x = true) :
    (w ++ r).takeWhile (!isSpace ·) = w ∧ (w ++ r).dropWhile (!isSpace ·) = r := by
  have hall : ∀ x ∈ w, (!isSpace x) = true := fun x hx => by rw [hw x hx]; rfl
  rw [List.takeWhile_append_of_pos hall, List.dropWhile_append_of_pos hall]
  cases r with
  | nil => simp
  | cons x r => simp [hr x rfl]

/-- The second field of a line that starts with two words. -/
theorem cryptsetupNext_src {dst id r : Text} (hd : ∀ x ∈ dst, isSpace x = false)
    (hdst : ∃ c t, dst = c :: t ∧ c ≠ '#') (hid : ∀ x ∈ id, isSpace x = false) (hne : id ≠ [])
    (hr : ∀ x ∈ r.head?, isSpace x = true) :
    (cryptsetupNext (dst ++ [' '] ++ id ++ r))[1]? = some id := by
  obtain ⟨c, t, rfl, hc⟩ := hdst
  have hspace : isSpace c = false := hd c List.mem_cons_self
  have hdrop : (c :: t ++ [' '] ++ id ++ r).dropWhile isSpace = c :: (t ++ [' '] ++ id ++ r) :=
    List.dropWhile_cons_of_neg (by rw [hspace]; decide)
  have hlast :
      isSpace ((c :: t ++ [' '] ++ id).getLast (List.append_ne_nil_of_right_ne_nil _ hne)) =
        false := by
    rw [List.getLast_append_of_ne_nil _ hne]
    exact hid _ (List.getLast_mem hne)
  have hstrip :
      strip (c :: t ++ [' '] ++ id ++ r) = c :: t ++ [' '] ++ id ++ r.rdropWhile isSpace := by
    unfold strip
    rw [hdrop]
    exact rdropWhile_append _ hlast r
  have hr' : ∀ x ∈ (r.rdropWhile isSpace).head?, isSpace x = true := by
    intro x hx
    obtain ⟨s, hs⟩ := List.rdropWhile_prefix isSpace r
    rw [← hs, List.head?_append_of_ne_nil] at hr
    · exact hr x hx
    · intro hnil
      rw [hnil] at hx
      cases hx
  obtain ⟨htake, hrest⟩ := takeWhile_word hd (r := ' ' :: (id ++ r.rdropWhile isSpace))
    (fun x hx => by cases hx; decide)
  have hfields : cryptsetupNext (c :: t ++ [' '] ++ id ++ r) =
      splitFields 4 (c :: t ++ ' ' :: (id ++ r.rdropWhile isSpace)) := by
    unfold cryptsetupNext
    rw [hdrop, hstrip]
    split
    · next h => cases h
    · next h => exact absurd (List.cons.inj h).1 hc
    · simp
  have hid' : (' ' :: (id ++ r.rdropWhile isSpace)).dropWhile isSpace =
      id ++ r.rdropWhile isSpace := by
    rw [List.dropWhile_cons_of_pos (by decide)]
    cases id with
    | nil => exact absurd rfl hne
    | cons x id =>
      exact List.dropWhile_cons_of_neg (by rw [hid x List.mem_cons_self]; decide)
  rw [hfields, splitFields_succ, hrest]
  simp only [hid', List.getElem?_cons_succ]
  rw [splitFields_head, (takeWhile_word hid hr').1]

theorem cryptsetupNext_comment (text : Text) : cryptsetupNext ("# " ++ text) = [] := rfl

/-- The first field of a line. -/
theorem cryptsetupNext_dst {text dst : Text} (h : (cryptsetupNext text)[0]? = some dst) :
    (∀ x ∈ dst, isSpace x = false) ∧ ∃ c t, dst = c :: t ∧ c ≠ '#' := by
  rcases cryptsetupNext_cases text with hnil | ⟨c, t, -, hc, hspace, hfields⟩
  · rw [hnil] at h
    cases h
  · rw [hfields, splitFields_head, List.takeWhile_cons_of_pos (by rw [hspace]; rfl)] at h
    cases h
    refine ⟨?_, c, _, rfl, hc⟩
    intro x hx
    rcases List.mem_cons.mp hx with rfl | hx
    · exact hspace
    · simpa using List.mem_takeWhile_imp hx

theorem cryptsetupNext_newline {file text f : Text} (hmem : text ∈ lines file)
    (hf : f ∈ cryptsetupNext text) : '\n' ∉ f := by
  intro hc
  unfold cryptsetupNext at hf
  split at hf
  · cases hf
  · cases hf
  · exact newline_strip hmem (mem_of_mem_splitFields hf hc)

theorem newline_getD {file text : Text} (hmem : text ∈ lines file) (i : Nat) :
    '\n' ∉ (cryptsetupNext text)[i]?.getD [] := by
  cases hi : (cryptsetupNext text)[i]? with
  | none => exact List.not_mem_nil
  | some f => exact cryptsetupNext_newline hmem (List.mem_of_getElem? hi)

theorem cryptsetupRewrite_eq_some {map : DeviceMap} {text new : Text}
    (h : cryptsetupRewrite map text = some new) :
    ∃ dst src id, (cryptsetupNext text)[0]? = some dst ∧ (cryptsetupNext text)[1]? = some src ∧
      map src = some id ∧ new = dst ++ [' '] ++ id ++ ' ' ::
        ((cryptsetupNext text)[2]?.getD [] ++ [' '] ++ (cryptsetupNext text)[3]?.getD [] ++
          ['\n']) := by
  unfold cryptsetupRewrite at h
  simp only at h
  split at h
  · next dst src hdst hsrc =>
    obtain ⟨id, hid, rfl⟩ := Option.map_eq_some_iff.mp h
    exact ⟨dst, src, id, hdst, hsrc, hid, by simp⟩
  · cases h

theorem cryptsetup_isLine {map : DeviceMap} (hmap : map.Writable) {file text new : Text}
    (hmem : text ∈ lines file) (h : cryptsetupRewrite map text = some new) : IsLine new := by
  obtain ⟨dst, src, id, hdst, -, hid, rfl⟩ := cryptsetupRewrite_eq_some h
  have hdst' := cryptsetupNext_newline hmem (List.mem_of_getElem? hdst)
  have hid' := newline_of_noSpace (hmap src id hid).2
  refine ⟨dst ++ [' '] ++ id ++ [' '] ++ (cryptsetupNext text)[2]?.getD [] ++ [' '] ++
    (cryptsetupNext text)[3]?.getD [], ?_, by simp⟩
  simp only [List.mem_append, not_or]
  exact ⟨⟨⟨⟨⟨⟨hdst', by decide⟩, hid'⟩, by decide⟩, newline_getD hmem 2⟩, by decide⟩,
    newline_getD hmem 3⟩

theorem cryptsetup_read {map : DeviceMap} (hmap : map.Writable) (text : Text)
    (results : List Text) :
    (editLine "# " (cryptsetupRewrite map) text).foldl cryptsetupRead
        (results.map map.replace) = (cryptsetupRead results text).map map.replace := by
  unfold editLine
  cases hr : cryptsetupRewrite map text with
  | some new =>
    obtain ⟨dst, src, id, hdst, hsrc, hid, rfl⟩ := cryptsetupRewrite_eq_some hr
    obtain ⟨hid', hspace⟩ := hmap src id hid
    obtain ⟨hdst', hhead⟩ := cryptsetupNext_dst hdst
    show cryptsetupRead (cryptsetupRead (results.map map.replace) ("# " ++ text)) _ = _
    have hkept : cryptsetupRead (results.map map.replace) ("# " ++ text) =
        results.map map.replace := by
      rw [cryptsetupRead, cryptsetupNext_comment]
      rfl
    rw [hkept]
    unfold cryptsetupRead
    rw [cryptsetupNext_src hdst' hhead hspace (isId_ne_nil hid'), hsrc]
    · simp [DeviceMap.replace, hid]
    · intro x hx
      cases hx
      decide
  | none =>
    show cryptsetupRead (results.map map.replace) text = _
    unfold cryptsetupRead
    cases hsrc : (cryptsetupNext text)[1]? with
    | none => rfl
    | some src =>
      obtain ⟨dst, hdst⟩ : ∃ dst, (cryptsetupNext text)[0]? = some dst := by
        obtain ⟨hlt, -⟩ := List.getElem?_eq_some_iff.mp hsrc
        exact ⟨_, List.getElem?_eq_getElem (Nat.lt_of_succ_lt hlt)⟩
      have hmapped : map src = none := by
        unfold cryptsetupRewrite at hr
        simpa only [hdst, hsrc, Option.map_eq_none_iff] using hr
      simp [DeviceMap.replace, hmapped]

theorem cryptsetup_rewritten_iff {map : DeviceMap} {text : Text} :
    cryptsetupRewrite map text ≠ none ↔
      ∃ src, (cryptsetupNext text)[1]? = some src ∧ map src ≠ none := by
  unfold cryptsetupRewrite
  dsimp only
  cases hsrc : (cryptsetupNext text)[1]? with
  | none => cases (cryptsetupNext text)[0]? <;> simp
  | some src =>
    obtain ⟨hlt, -⟩ := List.getElem?_eq_some_iff.mp hsrc
    rw [List.getElem?_eq_getElem (Nat.lt_of_succ_lt hlt)]
    simp

/-! ### uswsusp -/

theorem uswsuspNext_comment (text : Text) : uswsuspNext ("# " ++ text) = none := rfl

theorem uswsuspNext_newLine {path : Text} (hne : path ≠ [])
    (hspace : ∀ c ∈ path, isSpace c = false) :
    uswsuspNext ("resume device" ++ " = " ++ path ++ ['\n']) =
      some (("resume device" : Text), path) := by
  have hvalue : ((path ++ ['\n']).dropWhile isBlankChar).takeWhile (· ≠ '\n') = path := by
    have hdrop : (path ++ ['\n']).dropWhile isBlankChar = path ++ ['\n'] := by
      cases path with
      | nil => exact absurd rfl hne
      | cons c path =>
        refine List.dropWhile_cons_of_neg ?_
        intro hblank
        have hc := hspace c List.mem_cons_self
        simp [isBlankChar, isSpace] at hblank hc
        rcases hblank with rfl | rfl <;> simp at hc
    rw [hdrop, List.takeWhile_append_of_pos]
    · simp
    · intro c hc
      have hno := newline_of_noSpace hspace
      exact decide_eq_true fun heq => hno (heq ▸ hc)
  show (if ((path ++ ['\n']).dropWhile isBlankChar).takeWhile (· ≠ '\n') = [] then _
    else some (("resume device" : Text),
      ((path ++ ['\n']).dropWhile isBlankChar).takeWhile (· ≠ '\n'))) = _
  rw [hvalue, if_neg hne]

/-- With a map to ids, `id_to_path` does not die. -/
theorem uswsuspRewrite_of_writable {map : DeviceMap} (hmap : map.Writable) (text : Text) :
    ∃ new, uswsuspRewrite map text = some new := by
  unfold uswsuspRewrite
  split
  · next name value _ =>
    split
    · split
      · next id hid =>
        obtain ⟨hid', hspace⟩ := hmap value id hid
        obtain ⟨path, hpath, -, -⟩ := idToPath_of_isId hid' hspace
        exact ⟨_, by rw [hpath]; rfl⟩
      · exact ⟨none, rfl⟩
    · exact ⟨none, rfl⟩
  · exact ⟨none, rfl⟩

theorem uswsuspResumeUpdate_eq {map : DeviceMap} (hmap : map.Writable) (old : Text) :
    uswsuspResumeUpdate old map =
      some (editLines "# " (uswsuspLine map) old) := by
  have hlines : ∀ ls : List Text, (ls.mapM fun text => do
      match ← uswsuspRewrite map text with
      | some new => pure ("# " ++ text ++ new)
      | none => pure text) = some (ls.map fun text =>
        (editLine "# " (uswsuspLine map) text).flatten) := by
    intro ls
    induction ls with
    | nil => rfl
    | cons text ls ih =>
      obtain ⟨new, hnew⟩ := uswsuspRewrite_of_writable hmap text
      rw [List.mapM_cons, ih]
      cases new with
      | none => simp [hnew, editLine, uswsuspLine]
      | some new => simp [hnew, editLine, uswsuspLine]
  unfold uswsuspResumeUpdate
  rw [hlines]
  show some _ = _
  rw [editLines, List.flatMap_def, List.flatten_flatten, List.map_map]
  rfl

theorem uswsuspRewrite_eq_some {map : DeviceMap} {text new : Text}
    (h : uswsuspLine map text = some new) :
    ∃ value id path, uswsuspNext text = some (("resume device" : Text), value) ∧
      map value = some id ∧ idToPath id = some path ∧
        new = "resume device" ++ " = " ++ path ++ ['\n'] := by
  unfold uswsuspLine uswsuspRewrite at h
  split at h
  · next name value hnext =>
    split at h
    · next hname =>
      split at h
      · next id hid =>
        cases hpath : idToPath id with
        | none => rw [hpath] at h; cases h
        | some path =>
          rw [hpath] at h
          cases h
          rw [hname] at hnext
          exact ⟨value, id, path, hnext, hid, hpath, by rw [hname]⟩
      · cases h
    · cases h
  · cases h

theorem uswsusp_isLine {map : DeviceMap} (hmap : map.Writable) {text new : Text}
    (h : uswsuspLine map text = some new) : IsLine new := by
  obtain ⟨value, id, path, -, hid, hpath, rfl⟩ := uswsuspRewrite_eq_some h
  obtain ⟨hid', hspace⟩ := hmap value id hid
  obtain ⟨path', hpath', -, hspace'⟩ := idToPath_of_isId hid' hspace
  obtain rfl : path = path' := Option.some.inj (hpath.symm.trans hpath')
  refine ⟨"resume device" ++ " = " ++ path, ?_, rfl⟩
  simp only [List.mem_append, not_or]
  exact ⟨⟨by decide, by decide⟩, newline_of_noSpace hspace'⟩

theorem replacePath_of_map {map : DeviceMap} {value id path : Text} (hid : map value = some id)
    (hpath : idToPath id = some path) : map.replacePath value = path := by
  unfold DeviceMap.replacePath
  rw [hid, Option.bind_some, hpath]
  rfl

theorem uswsusp_rewritten_iff {map : DeviceMap} (hmap : map.Writable) {text : Text} :
    uswsuspLine map text ≠ none ↔
      ∃ value, uswsuspNext text = some (("resume device" : Text), value) ∧ map value ≠ none := by
  constructor
  · intro h
    obtain ⟨new, hnew⟩ := Option.ne_none_iff_exists'.mp h
    obtain ⟨value, id, -, hnext, hid, -, -⟩ := uswsuspRewrite_eq_some hnew
    exact ⟨value, hnext, by rw [hid]; exact Option.some_ne_none id⟩
  · rintro ⟨value, hnext, hid⟩
    obtain ⟨id, hid⟩ := Option.ne_none_iff_exists'.mp hid
    obtain ⟨hid', hspace⟩ := hmap value id hid
    obtain ⟨path, hpath, -, -⟩ := idToPath_of_isId hid' hspace
    unfold uswsuspLine uswsuspRewrite
    rw [hnext]
    simp [hid, hpath]

theorem uswsusp_read {map : DeviceMap} (hmap : map.Writable) (text : Text)
    (results : List Text) :
    (editLine "# " (uswsuspLine map) text).foldl uswsuspRead
        (results.map map.replacePath) = (uswsuspRead results text).map map.replacePath := by
  unfold editLine
  cases hr : uswsuspLine map text with
  | some new =>
    obtain ⟨value, id, path, hnext, hid, hpath, rfl⟩ := uswsuspRewrite_eq_some hr
    obtain ⟨hid', hspace⟩ := hmap value id hid
    obtain ⟨path', hpath', hne, hspace'⟩ := idToPath_of_isId hid' hspace
    obtain rfl : path = path' := Option.some.inj (hpath.symm.trans hpath')
    have hkept : uswsuspRead (results.map map.replacePath) ("# " ++ text) =
        results.map map.replacePath := by
      rw [uswsuspRead, uswsuspNext_comment]
    show uswsuspRead (uswsuspRead (results.map map.replacePath) ("# " ++ text)) _ = _
    rw [hkept]
    unfold uswsuspRead
    rw [uswsuspNext_newLine hne hspace', hnext]
    show [path] = [map.replacePath value]
    rw [replacePath_of_map hid hpath]
  | none =>
    show uswsuspRead (results.map map.replacePath) text = _
    unfold uswsuspRead
    cases hnext : uswsuspNext text with
    | none => rfl
    | some m =>
      obtain ⟨name, value⟩ := m
      by_cases hname : name = "resume device"
      · subst hname
        have hmapped : map value = none := by
          by_contra hid
          exact (uswsusp_rewritten_iff hmap).mpr ⟨value, hnext, hid⟩ hr
        show [value] = [map.replacePath value]
        rw [DeviceMap.replacePath, hmapped]
        rfl
      · show (if name = _ then _ else _) = List.map _ (if name = _ then _ else _)
        rw [if_neg hname, if_neg hname]

/-! ### extlinux -/

theorem extlinuxParams_newLine {mark params : Text} (h : '\n' ∉ params) :
    extlinuxParams mark (mark ++ params ++ ['\n']) = some params := by
  unfold extlinuxParams
  rw [if_pos ⟨params ++ ['\n'], (List.append_assoc mark params ['\n']).symm⟩, List.append_assoc,
    List.drop_left, List.takeWhile_append_of_pos]
  · simp
  · exact fun c hc => decide_eq_true fun heq => h (heq ▸ hc)

theorem extlinuxRewrite_eq_some {mark text new : Text} {map : DeviceMap}
    (h : extlinuxRewrite mark map text = some new) :
    ∃ params new', extlinuxParams mark text = some params ∧ kernelUpdate params map = some new' ∧
      new = mark ++ new' ++ ['\n'] := by
  unfold extlinuxRewrite at h
  cases hp : extlinuxParams mark text with
  | none => rw [hp] at h; cases h
  | some params =>
    rw [hp] at h
    cases hk : kernelUpdate params map with
    | none => simp [hk] at h
    | some new' =>
      simp only [Option.bind_eq_bind, Option.bind_some, hk, Option.pure_def, Option.some.injEq] at h
      exact ⟨params, new', rfl, hk, h.symm⟩

theorem newline_extlinuxParams {mark text params : Text}
    (h : extlinuxParams mark text = some params) : '\n' ∉ params := by
  unfold extlinuxParams at h
  split at h
  · cases h
    intro hmem
    simpa using List.mem_takeWhile_imp hmem
  · cases h

theorem newline_kernelUpdate {map : DeviceMap} (hmap : map.Writable) {params new : Text}
    (hparams : '\n' ∉ params) (h : kernelUpdate params map = some new) : '\n' ∉ new := by
  intro hmem
  rcases kernelUpdate_chars h hmem with hold | ⟨bdev, id, hid, hc⟩
  · exact hparams hold
  · exact newline_of_noSpace (hmap bdev id hid).2 hc

theorem extlinux_isLine {mark : Text} (hmark : '\n' ∉ mark) {map : DeviceMap}
    (hmap : map.Writable) {text new : Text} (h : extlinuxRewrite mark map text = some new) :
    IsLine new := by
  obtain ⟨params, new', hp, hk, rfl⟩ := extlinuxRewrite_eq_some h
  refine ⟨mark ++ new', ?_, rfl⟩
  rw [List.mem_append, not_or]
  exact ⟨hmark, newline_kernelUpdate hmap (newline_extlinuxParams hp) hk⟩

theorem extlinux_rewritten_iff {mark text : Text} {map : DeviceMap} :
    extlinuxRewrite mark map text ≠ none ↔ ∃ params, extlinuxParams mark text = some params ∧
      ∃ bdev ∈ kernelList params, map bdev ≠ none := by
  unfold extlinuxRewrite
  cases hp : extlinuxParams mark text with
  | none => simp
  | some params =>
    unfold kernelUpdate kernelList
    cases hf : findRoot false params with
    | none => simp [hf]
    | some m => cases hm : map m.2.1 <;> simp [hf, hm]

theorem extlinux_read {mark : Text}
    (hmark : ∀ r, extlinuxParams mark ("## " ++ (mark ++ r)) = none) {map : DeviceMap}
    (hmap : map.Writable) (text : Text) (result : Option (List Text)) :
    (editLine "## " (extlinuxRewrite mark map) text).foldl (extlinuxRead mark)
        (result.map (List.map map.replace)) =
      (extlinuxRead mark result text).map (List.map map.replace) := by
  have hids : ∀ bdev id, map bdev = some id → id ≠ [] ∧ ∀ c ∈ id, isSpace c = false :=
    fun bdev id hid => ⟨isId_ne_nil (hmap bdev id hid).1, (hmap bdev id hid).2⟩
  unfold editLine
  cases hr : extlinuxRewrite mark map text with
  | some new =>
    obtain ⟨params, new', hp, hk, rfl⟩ := extlinuxRewrite_eq_some hr
    cases result with
    | some devices => rfl
    | none =>
      have hstart : mark <+: text := by
        by_contra hno
        rw [extlinuxParams, if_neg hno] at hp
        cases hp
      obtain ⟨r, rfl⟩ := hstart
      have hkept : extlinuxRead mark none ("## " ++ (mark ++ r)) = none := by
        show (extlinuxParams mark _).map kernelList = none
        rw [hmark r]
        rfl
      show extlinuxRead mark (extlinuxRead mark none ("## " ++ (mark ++ r))) _ =
        ((extlinuxParams mark (mark ++ r)).map kernelList).map _
      rw [hkept, hp]
      show (extlinuxParams mark (mark ++ new' ++ ['\n'])).map kernelList = some _
      rw [extlinuxParams_newLine (newline_kernelUpdate hmap (newline_extlinuxParams hp) hk)]
      exact congrArg some (kernelList_kernelUpdate hids hk)
  | none =>
    cases result with
    | some devices => rfl
    | none =>
      show (extlinuxParams mark text).map kernelList =
        ((extlinuxParams mark text).map kernelList).map _
      cases hp : extlinuxParams mark text with
      | none => rfl
      | some params =>
        have hk : kernelUpdate params map = none := by
          unfold extlinuxRewrite at hr
          cases hk : kernelUpdate params map with
          | none => rfl
          | some new => simp [hp, hk] at hr
        exact congrArg some (kernelList_of_not_updated hk)

end LineUpdateLemmas

open LineUpdateLemmas

/-! ## References in force -/

/-- Each reference stands in the output with its new name, and the lines of the output
are those of the file, with a rewritten one behind `pre` and its new line after it. -/
structure InForce (list : Text → List Text) (replace : Text → Text) (pre : Text)
    (rewrite : Text → Option Text) (file out : Text) : Prop where
  references : list out = (list file).map replace
  written : lines out = (lines file).flatMap (editLine pre rewrite)

/-- Every line that names a mapped device ends with a newline. -/
def CompleteWhere (names : Text → Prop) (file : Text) : Prop :=
  ∀ line ∈ lines file, names line → IsLine line

/-- The line names a mapped device, for each format. -/
def CryptsetupNames (map : DeviceMap) (line : Text) : Prop :=
  ∃ src, (cryptsetupNext line)[1]? = some src ∧ map src ≠ none

def UswsuspNames (map : DeviceMap) (line : Text) : Prop :=
  ∃ value, uswsuspNext line = some (("resume device" : Text), value) ∧ map value ≠ none

def ExtlinuxNames (mark : Text) (map : DeviceMap) (line : Text) : Prop :=
  ∃ params, extlinuxParams mark line = some params ∧ ∃ bdev ∈ kernelList params, map bdev ≠ none

/-- The update, for a reader that lists the image of what it lists in the old file. -/
theorem inForce_iff {σ : Type} {read : σ → Text → σ} (init : σ) (image : σ → σ)
    (found : σ → List Text) {replace : Text → Text} {pre : Text} {rewrite : Text → Option Text}
    {names : Text → Prop} (file : Text) (hinit : image init = init)
    (hfound : ∀ s, found (image s) = (found s).map replace) (hpre : '\n' ∉ pre)
    (hnew : ∀ line ∈ lines file, ∀ new, rewrite line = some new → IsLine new)
    (hread : ∀ line s, (editLine pre rewrite line).foldl read (image s) = image (read s line))
    (hnames : ∀ line, rewrite line ≠ none ↔ names line) :
    InForce (fun t => found ((lines t).foldl read init)) replace pre rewrite file
        (editLines pre rewrite file) ↔ CompleteWhere names file := by
  have hedited : EndsEdited rewrite file ↔ CompleteWhere names file :=
    ⟨fun h line hline hn => h line hline ((hnames line).mpr hn),
      fun h line hline hr => h line hline ((hnames line).mp hr)⟩
  rw [← hedited, ← lines_editLines_iff hpre hnew]
  refine ⟨InForce.written, fun hlines => ⟨?_, hlines⟩⟩
  have hfold := foldl_editLines (s := init) hlines fun line _ s => hread line s
  rw [hinit] at hfold
  rw [hfold, hfound]

/-- After an update the references of each format are in force if and only if every line
that names a mapped device ends with a newline. -/
theorem rewriters_in_force_iff {map : DeviceMap} (hmap : map.Writable) (file : Text) :
    (InForce cryptsetupList map.replace "# " (cryptsetupRewrite map) file
        (cryptsetupUpdate file map) ↔ CompleteWhere (CryptsetupNames map) file) ∧
    (∃ out, uswsuspResumeUpdate file map = some out ∧
      (InForce uswsuspResumeList map.replacePath "# " (uswsuspLine map) file out ↔
        CompleteWhere (UswsuspNames map) file)) ∧
    (InForce extlinuxOldList map.replace "## " (extlinuxRewrite "## ROOT=" map) file
        (extlinuxOldUpdate file map) ↔ CompleteWhere (ExtlinuxNames "## ROOT=" map) file) ∧
    (InForce extlinuxNewList map.replace "## " (extlinuxRewrite "# ROOT=" map) file
        (extlinuxNewUpdate file map) ↔ CompleteWhere (ExtlinuxNames "# ROOT=" map) file) := by
  have hfound : ∀ result : Option (List Text), (result.map (List.map map.replace)).getD [] =
      (result.getD []).map map.replace := fun result => by cases result <;> rfl
  refine ⟨?_, ⟨_, uswsuspResumeUpdate_eq hmap file, ?_⟩, ?_, ?_⟩
  · exact inForce_iff [] (List.map map.replace) id file rfl
      (fun s => rfl) (by decide) (fun line hline new => cryptsetup_isLine hmap hline)
      (cryptsetup_read hmap) fun line => cryptsetup_rewritten_iff
  · exact inForce_iff [] (List.map map.replacePath) id file rfl
      (fun s => rfl) (by decide) (fun line _ new => uswsusp_isLine hmap)
      (uswsusp_read hmap) fun line => uswsusp_rewritten_iff hmap
  · have hmark : '\n' ∉ ("## ROOT=" : Text) := by decide
    exact inForce_iff none (Option.map (List.map map.replace)) (·.getD []) file rfl hfound
      (by decide) (fun line _ new => extlinux_isLine hmark hmap)
      (fun line =>
        extlinux_read (fun r => show extlinuxParams "## ROOT=" _ = none from rfl) hmap line)
      fun line => extlinux_rewritten_iff
  · have hmark : '\n' ∉ ("# ROOT=" : Text) := by decide
    exact inForce_iff none (Option.map (List.map map.replace)) (·.getD []) file rfl hfound
      (by decide) (fun line _ new => extlinux_isLine hmark hmap)
      (fun line =>
        extlinux_read (fun r => show extlinuxParams "# ROOT=" _ = none from rfl) hmap line)
      fun line => extlinux_rewritten_iff

/-- A map that gives the swap partition its UUID. -/
def swapMap : DeviceMap := fun bdev => if bdev = "/dev/hda2" then some "UUID=0b" else none

theorem writable_swapMap : swapMap.Writable := by
  intro bdev id h
  unfold swapMap at h
  split at h
  · cases h
    exact ⟨.inr (.inl ⟨"0b", rfl⟩), forall_mem_of_all rfl⟩
  · cases h

theorem crypttab_in_force :
    InForce cryptsetupList swapMap.replace "# " (cryptsetupRewrite swapMap)
      "swap /dev/hda2\nhome /dev/hda3"
      (cryptsetupUpdate "swap /dev/hda2\nhome /dev/hda3" swapMap) := by
  refine (rewriters_in_force_iff writable_swapMap _).1.mpr ?_
  intro line hline hnames
  have hlines : lines "swap /dev/hda2\nhome /dev/hda3" =
      [("swap /dev/hda2\n" : Text), ("home /dev/hda3" : Text)] := by
    decide
  rw [hlines] at hline
  rcases List.mem_cons.mp hline with rfl | hline
  · exact ⟨"swap /dev/hda2", by decide, rfl⟩
  · rw [List.mem_singleton.mp hline] at hnames
    exact absurd (cryptsetup_rewritten_iff.mpr hnames) (by decide)

/-- Without a newline, the new line of an only entry becomes part of the comment. -/
theorem crypttab_entry_lost :
    swapMap.Writable ∧ cryptsetupList "swap /dev/hda2" = ["/dev/hda2"] ∧
      cryptsetupUpdate "swap /dev/hda2" swapMap = "# swap /dev/hda2swap UUID=0b  \n" ∧
      cryptsetupList (cryptsetupUpdate "swap /dev/hda2" swapMap) = [] :=
  ⟨writable_swapMap, by decide, by decide, by decide⟩

end DebianKernel.DiskId
