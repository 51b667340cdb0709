import DebianKernel.Debian.TextWrap
import DebianKernel.Lib.DirWalk
import DebianKernel.Lib.FileTree
import DebianKernel.Lib.Split
import Mathlib.Data.List.Dedup
import Mathlib.Data.List.Pairwise

/-!
# The files of a firmware package

`GenControl.do_package` looks for the configured files of a package in the directory of the
package. A file `name-version` stands for the configured `name`. `os.walk` returns the entries of
a directory in any order.

Results:
1. `scan_isSome_iff`: when the scan of the directory raises no error.
2. `doPackage_isSome_iff`: when a run succeeds, for one order.
3. `spelled_text`: the lines of an item of the Contents have the names of its files.
4. `package_order_iff`: when the order does not matter and each file is installed once and named.
-/

namespace DebianKernel.Debian

open Text FileTree

namespace GenFirmware

/-! ## The source -/

/-- `f.rsplit(sep, 1)`, if there is a `sep`. -/
def rsplit (sep : Char) : Text → Option (Text × Text)
  | [] => none
  | c :: t =>
    match rsplit sep t with
    | some (base, version) => some (c :: base, version)
    | none => if c = sep then some ([], t) else none

/-- `os.path.join`, of two paths. -/
def joinPath (path b : Text) : Text :=
  if b.head? = some '/' then b
  else if path = [] ∨ path.getLast? = some '/' then path ++ b
  else path ++ '/' :: b

/-- One component in `os.path.normpath`. -/
def normComp (isAbsolute : Bool) (out : List Text) (comp : Text) : List Text :=
  if comp = [] ∨ comp = ['.'] then out
  else if comp ≠ ['.', '.'] ∨ (isAbsolute = false ∧ out = []) ∨ out.getLast? = some ['.', '.'] then
    out ++ [comp]
  else out.dropLast

/-- Two slashes at the start are kept, and more are one. -/
def initialSlashes (path : Text) : Text :=
  if ("//" : Text) <+: path ∧ ¬ ("///" : Text) <+: path then "//"
  else if path.head? = some '/' then "/"
  else []

/-- `os.path.normpath`. -/
def normpath (path : Text) : Text :=
  let initial := initialSlashes path
  let out := initial ++ ['/'].intercalate ((segments path).foldl (normComp (initial ≠ [])) [])
  if out = [] then ['.'] else out

/-- What the text of a link `f` leads to in the package. -/
def linkTarget (f target : Text) : Text := normpath (joinPath (joinPath f "..") target)

/-- An entry of `files_real`. -/
structure Real where
  file : Text
  version : Option Text

/-- The variables of the loop. -/
structure Scan where
  filesReal : Text → Option Real
  links : Text → Option Text
  linksRev : Text → List Text
  filesUnused : List Text

def init : Scan := ⟨fun _ => none, fun _ => none, fun _ => [], []⟩

/-- Files that are not expected to be installed. -/
def whitelist : List Text :=
  ["copyright", "defines", "LICENSE", "LICENSE.install", "update.py", "update.sh"]

def unusedFile (s : Scan) (f : Text) : Scan :=
  if whitelist.contains f then s else { s with filesUnused := s.filesUnused ++ [f] }

/-- The path of what is met, from the directory of the package. -/
def relPath (v : Visit) : Text := ['/'].intercalate v.path

/-- The body of the loop; `none` is the error for several files of one name. -/
def scanFile (filesOrig : List Text) (s : Scan) (v : Visit) : Option Scan :=
  let f := relPath v
  match v.target with
  | some target =>
    if filesOrig.contains f then
      let t := linkTarget f target
      some { s with
        links := Function.update s.links f (some target)
        linksRev := Function.update s.linksRev t (s.linksRev t ++ [f]) }
    else some s
  | none =>
    if filesOrig.contains f then
      some { s with filesReal := Function.update s.filesReal f (some ⟨f, none⟩) }
    else match rsplit '-' f with
      | some (base, version) =>
        if filesOrig.contains base then
          if (s.filesReal base).isSome then none
          else some { s with
            filesReal := Function.update s.filesReal base (some ⟨f, some version⟩) }
        else some (unusedFile s f)
      | none => some (unusedFile s f)

def scan (filesOrig : List Text) (visits : List Visit) : Option Scan :=
  visits.foldlM (scanFile filesOrig) init

/-- The section of a file in the configuration. -/
structure FileSection where
  desc : Option Text
  version : Option Text

/-- An item of the Contents: the name of a file, those of the links to it, and what is said of
it. -/
structure Item where
  names : List Text
  desc : Option Text
  version : Option Text

/-- The text of an item, before it is wrapped. -/
def Item.text (item : Item) : Text :=
  let f := (", " : Text).intercalate item.names
  match item.desc.filter (· ≠ []), item.version.filter (· ≠ []) with
  | some desc, some version => desc ++ ", version " ++ version ++ " (" ++ f ++ ")"
  | some desc, none => desc ++ " (" ++ f ++ ")"
  | none, _ => f

/-- The `TextWrapper` of `do_package`. -/
def contentsWrapper : TextWrapper := ⟨71, " * ", "   ", by decide, by decide⟩

def describe (config : Text → FileSection) (s : Scan) (f : Text) (real : Real) : Item where
  names := f :: s.linksRev f
  desc := (config f).desc
  version := real.version <|> (config f).version

/-- The loop for the Contents; `none` is the `KeyError` for a file that was not found. -/
def contents (config : Text → FileSection) (s : Scan) : List Text → Option (List Item)
  | [] => some []
  | f :: files =>
    if (s.links f).isSome then contents config s files
    else (s.filesReal f).bind fun real =>
      (contents config s files).map (describe config s f real :: ·)

/-- `FILES` as pairs of a file and the name under which it is installed, `LINKS` as pairs of a name
and a target, and the Contents. Of a `dict`, the order of the items is not determined. -/
structure Package where
  files : List (Text × Text)
  links : List (Text × Text)
  contents : List Item

/-- `files_desc`. -/
def Package.filesDesc (p : Package) : List Text :=
  "Contents:" :: p.contents.flatMap fun item => contentsWrapper.wrap item.text

/-- `do_package`, from the scan of the directory to the Contents. -/
def doPackage (config : Text → FileSection) (files : List Text) (order : ListingOrder)
    (tree : DirEntry) : Option Package :=
  (scan files (tree.walk ".svn" order [])).bind fun s =>
    (contents config s files).map fun items =>
      ⟨files.dedup.filterMap fun f => (s.filesReal f).map fun real => (real.file, f),
        files.dedup.filterMap fun f => (s.links f).map fun target => (f, target), items⟩

/-! ## What is right -/

/-- Both fail, or both have the same assignments. -/
def SameOutcome : Option Package → Option Package → Prop
  | some p, some p' => (∀ x, x ∈ p.files ↔ x ∈ p'.files) ∧ ∀ x, x ∈ p.links ↔ x ∈ p'.links
  | none, none => True
  | _, _ => False

/-- The names that are installed. -/
def Package.installed (p : Package) : List Text := p.files.map Prod.snd ++ p.links.map Prod.fst

/-- The lines have the characters of a name in a row, with nothing but white space between them. A
name that fits on a line with the brackets around it, and has no em-dash, is on one line. -/
structure Spelled (c : Text) (lines : List Text) : Prop where
  inOrder : visible c <:+: visible lines.flatten
  onLine : IsWord c → c.length ≤ 66 → ¬ ("--" : Text) <:+: c → ∃ l ∈ lines, c <:+: l

/-- The Contents names a file: an item of it has the name, and spells it in its lines. -/
def Package.Names (p : Package) (c : Text) : Prop :=
  ∃ item ∈ p.contents, c ∈ item.names ∧ contentsWrapper.wrap item.text <:+: p.filesDesc ∧
    Spelled c (contentsWrapper.wrap item.text)

def IsFileAt (tree : DirEntry) (f : Text) : Prop := tree.find ".svn" (segments f) = some .file

def IsLinkAt (tree : DirEntry) (f target : Text) : Prop :=
  tree.find ".svn" (segments f) = some (.link target false)

/-- There is a file of that name and version, which is not configured itself. -/
def HasVersion (files : List Text) (tree : DirEntry) (c version : Text) : Prop :=
  '-' ∉ version ∧ c ++ '-' :: version ∉ files ∧ IsFileAt tree (c ++ '-' :: version)

/-- A configured file that cannot be installed: it has two versions, or a file of its own and a
version in a directory of the name, or nothing at all. -/
def Fails (files : List Text) (tree : DirEntry) : Prop :=
  ∃ c ∈ files,
    (∃ u v, u ≠ v ∧ HasVersion files tree c u ∧ HasVersion files tree c v) ∨
    (IsFileAt tree c ∧ ∃ v, HasVersion files tree c v ∧ '/' ∈ v) ∨
    (¬ IsFileAt tree c ∧ (∀ target, ¬ IsLinkAt tree c target) ∧ ∀ v, ¬ HasVersion files tree c v)

/-- A configured file that has a version has no file of its own and is no link, and a configured
link leads to a configured file that is no link. -/
def Plain (files : List Text) (tree : DirEntry) : Prop :=
  ∀ c ∈ files,
    (∀ v, HasVersion files tree c v → ¬ IsFileAt tree c ∧ ∀ target, ¬ IsLinkAt tree c target) ∧
    ∀ target, IsLinkAt tree c target →
      linkTarget c target ∈ files ∧ ∀ target', ¬ IsLinkAt tree (linkTarget c target) target'

/-! ## Names -/

theorem rsplit_eq_none_iff {sep : Char} {t : Text} : rsplit sep t = none ↔ sep ∉ t := by
  induction t with
  | nil => exact iff_of_true rfl List.not_mem_nil
  | cons c t ih =>
    rw [rsplit, List.mem_cons, not_or, ← ih]
    cases rsplit sep t with
    | some p => exact iff_of_false (Option.some_ne_none _) fun h => Option.some_ne_none _ h.2
    | none =>
      dsimp only
      split
      · next hc => exact iff_of_false (Option.some_ne_none _) fun h => h.1 hc.symm
      · next hc => exact iff_of_true rfl ⟨fun h => hc h.symm, rfl⟩

/-- The last separator cuts a name. -/
theorem rsplit_eq_some_iff {sep : Char} {t base version : Text} :
    rsplit sep t = some (base, version) ↔ t = base ++ sep :: version ∧ sep ∉ version := by
  constructor
  · intro h
    induction t generalizing base with
    | nil => cases h
    | cons c t ih =>
      rw [rsplit] at h
      split at h
      · next b v hb =>
        obtain ⟨rfl, rfl⟩ := Prod.mk.inj (Option.some.inj h)
        obtain ⟨rfl, hv⟩ := ih hb
        exact ⟨rfl, hv⟩
      · next hnone =>
        split at h
        · next hc =>
          obtain ⟨rfl, rfl⟩ := Prod.mk.inj (Option.some.inj h)
          exact ⟨by rw [hc]; rfl, rsplit_eq_none_iff.mp hnone⟩
        · cases h
  · rintro ⟨rfl, hv⟩
    induction base with
    | nil =>
      rw [List.nil_append, rsplit, rsplit_eq_none_iff.mpr hv]
      exact if_pos rfl
    | cons c base ih =>
      rw [List.cons_append, rsplit, ih]

/-- The segments of a name, and of a longer one. -/
theorem exists_segments_append (c : Text) : ∃ d x, segments c = d ++ [x] ∧
    ∀ t y more, segments t = y :: more → segments (c ++ t) = d ++ (x ++ y) :: more := by
  induction c with
  | nil => exact ⟨[], [], rfl, fun t y more h => h⟩
  | cons a c ih =>
    obtain ⟨d, x, hc, happend⟩ := ih
    have hcons : ∀ t : Text, segments (a :: t) =
        if a == '/' then [] :: segments t else (segments t).modifyHead (a :: ·) := fun t =>
      List.splitOn_cons_eq_if_modifyHead ..
    by_cases ha : (a == '/') = true
    · refine ⟨[] :: d, x, ?_, fun t y more ht => ?_⟩
      · rw [hcons, if_pos ha, hc]
        rfl
      · rw [List.cons_append, hcons, if_pos ha, happend t y more ht]
        rfl
    · cases d with
      | nil =>
        refine ⟨[], a :: x, ?_, fun t y more ht => ?_⟩
        · rw [hcons, if_neg ha, hc]
          rfl
        · rw [List.cons_append, hcons, if_neg ha, happend t y more ht]
          rfl
      | cons b d =>
        refine ⟨(a :: b) :: d, x, ?_, fun t y more ht => ?_⟩
        · rw [hcons, if_neg ha, hc]
          rfl
        · rw [List.cons_append, hcons, if_neg ha, happend t y more ht]
          rfl

/-! ## The text of an item -/

/-- What is around one of several texts that are put together. -/
theorem exists_intercalate (sep : Text) {c : Text} {ts : List Text} (hc : c ∈ ts) : ∃ before behind,
    sep.intercalate ts = before ++ (c ++ behind) ∧ (before = [] ∨ ∃ u, before = u ++ sep) ∧
      (behind = [] ∨ ∃ u, behind = sep ++ u) := by
  induction ts with
  | nil => cases hc
  | cons t ts ih =>
    cases ts with
    | nil =>
      obtain rfl := List.mem_singleton.mp hc
      exact ⟨[], [], by simp, .inl rfl, .inl rfl⟩
    | cons u ts =>
      rw [List.intercalate_cons_cons]
      rcases List.mem_cons.mp hc with rfl | hc
      · exact ⟨[], sep ++ sep.intercalate (u :: ts), by simp, .inl rfl, .inr ⟨_, rfl⟩⟩
      · obtain ⟨before, behind, heq, hbefore, hbehind⟩ := ih hc
        refine ⟨t ++ sep ++ before, behind, by rw [heq]; simp, .inr ?_, hbehind⟩
        rcases hbefore with rfl | ⟨v, rfl⟩
        · exact ⟨t, List.append_nil _⟩
        · exact ⟨t ++ sep ++ v, (List.append_assoc ..).symm⟩

/-- A name stands in the text of its item with a bracket or a comma at most before the blanks. -/
theorem Item.text_around {item : Item} {c : Text} (hc : c ∈ item.names) : ∃ before p q behind,
    item.text = before ++ ((p ++ (c ++ q)) ++ behind) ∧
      (∀ x ∈ before.getLast?, isSpace x = true) ∧ (∀ x ∈ behind.head?, isSpace x = true) ∧
      (p = [] ∨ p = ['(']) ∧ (q = [] ∨ q = [','] ∨ q = [')']) := by
  obtain ⟨u, v, hf, hu, hv⟩ := exists_intercalate ", " hc
  obtain ⟨front, back, htext, hfront, hback⟩ : ∃ front back : Text,
      item.text = (front ++ u) ++ (c ++ (v ++ back)) ∧
        (front = [] ∨ ∃ d, front = d ++ [' ', '(']) ∧ (back = [] ∨ back = [')']) := by
    rw [Item.text, hf]
    split
    · next desc version _ _ =>
      refine ⟨desc ++ ", version " ++ version ++ [' ', '('], [')'], ?_, .inr ⟨_, rfl⟩, .inr rfl⟩
      simp
    · next desc _ _ =>
      refine ⟨desc ++ [' ', '('], [')'], ?_, .inr ⟨_, rfl⟩, .inr rfl⟩
      simp
    · exact ⟨[], [], by simp, .inl rfl, .inl rfl⟩
  have hblank : ∀ {w : Text}, ∀ x ∈ (w ++ [' ']).getLast?, isSpace x = true := by
    intro w x hx
    rw [List.getLast?_concat] at hx
    obtain rfl := Option.some.inj hx
    rfl
  obtain ⟨before, p, hleft, hbefore, hp⟩ : ∃ before p : Text, front ++ u = before ++ p ∧
      (∀ x ∈ before.getLast?, isSpace x = true) ∧ (p = [] ∨ p = ['(']) := by
    rcases hu with rfl | ⟨u, rfl⟩
    · rcases hfront with rfl | ⟨d, rfl⟩
      · exact ⟨[], [], rfl, by simp, .inl rfl⟩
      · exact ⟨d ++ [' '], ['('], by simp, hblank, .inr rfl⟩
    · exact ⟨front ++ u ++ [','] ++ [' '], [], by simp, hblank, .inl rfl⟩
  obtain ⟨q, behind, hright, hbehind, hq⟩ : ∃ q behind : Text, v ++ back = q ++ behind ∧
      (∀ x ∈ behind.head?, isSpace x = true) ∧ (q = [] ∨ q = [','] ∨ q = [')']) := by
    rcases hv with rfl | ⟨v, rfl⟩
    · exact ⟨back, [], (List.append_nil back).symm, by simp, hback.imp_right .inr⟩
    · refine ⟨[','], ' ' :: (v ++ back), by simp, fun x hx => ?_, .inr (.inl rfl)⟩
      obtain rfl := Option.some.inj hx
      rfl
  exact ⟨before, p, q, behind, by rw [htext, hleft, hright]; simp, hbefore, hbehind, hp, hq⟩

/-- At most one character is on either side of a name, and it is visible. -/
theorem around_plain {p q : Text} (hp : p = [] ∨ p = ['(']) (hq : q = [] ∨ q = [','] ∨ q = [')']) :
    (∀ x ∈ p, isSpace x = false) ∧ (∀ x ∈ q, isSpace x = false) ∧ p.length ≤ 1 ∧ q.length ≤ 1 := by
  rcases hp with rfl | rfl <;> rcases hq with rfl | rfl | rfl <;>
    exact ⟨forall_mem_of_all rfl, forall_mem_of_all rfl, by decide, by decide⟩

/-- A bracket or a comma beside a name makes no em-dash. -/
theorem infix_of_around {p c q : Text} (hp : p = [] ∨ p = ['('])
    (hq : q = [] ∨ q = [','] ∨ q = [')']) (h : ("--" : Text) <:+: p ++ (c ++ q)) :
    ("--" : Text) <:+: c := by
  have hleft : ("--" : Text) <:+: c ++ q := by
    rcases hp with rfl | rfl
    · exact h
    · refine (List.infix_cons_iff.mp h).resolve_left fun hprefix => ?_
      have hhead := (List.cons_prefix_cons.mp hprefix).1
      cases hhead
  have hnot : ∀ x, x ≠ '-' → ("--" : Text) <:+: c ++ [x] → ("--" : Text) <:+: c := by
    intro x hx hsub
    refine (List.infix_concat_iff.mp hsub).resolve_left fun hsuffix => hx ?_
    obtain ⟨t, ht⟩ := hsuffix
    have hlast : (t ++ ['-']) ++ ['-'] = c ++ [x] := by
      rw [← ht]
      simp
    exact (List.cons.inj (List.append_inj' hlast rfl).2).1.symm
  rcases hq with rfl | rfl | rfl
  · rwa [List.append_nil] at hleft
  · exact hnot ',' (by decide) hleft
  · exact hnot ')' (by decide) hleft

/-- The lines of an item spell the names of its files. -/
theorem spelled_text {item : Item} {c : Text} (hc : c ∈ item.names) :
    Spelled c (contentsWrapper.wrap item.text) := by
  obtain ⟨before, p, q, behind, htext, hbefore, hbehind, hp, hq⟩ := item.text_around hc
  constructor
  · have hsub : c <:+: item.text := ⟨before ++ p, q ++ behind, by rw [htext]; simp⟩
    rw [TextWrapper.visible_wrap (List.all_eq_true.mp rfl)]
    exact (hsub.filter _).trans (List.suffix_append _ _).isInfix
  · intro hword hlength hdash
    obtain ⟨hp', hq', hpl, hql⟩ := around_plain hp hq
    have hmem : p ++ (c ++ q) ∈ words item.text := by
      rw [htext]
      refine mem_words_of_around ⟨by simp [hword.1], fun x hx => ?_⟩ hbefore hbehind
      rcases List.mem_append.mp hx with hx | hx
      · exact hp' x hx
      · exact (List.mem_append.mp hx).elim (hword.2 x) (hq' x)
    have hshort : (p ++ (c ++ q)).length ≤ contentsWrapper.narrow := by
      have hnarrow : contentsWrapper.narrow = 68 := rfl
      rw [hnarrow, List.length_append, List.length_append]
      omega
    obtain ⟨l, hl, hin⟩ := contentsWrapper.wrap_word hmem hshort
      fun h => hdash (infix_of_around hp hq h)
    exact ⟨l, hl, List.IsInfix.trans ⟨p, q, by simp⟩ hin⟩

/-! ## The scan -/

/-- The configured file that what is met stands for. -/
def claim (filesOrig : List Text) (v : Visit) : Option (Text × Real) :=
  match v.target with
  | some _ => none
  | none =>
    if filesOrig.contains (relPath v) then some (relPath v, ⟨relPath v, none⟩)
    else (rsplit '-' (relPath v)).bind fun p =>
      if filesOrig.contains p.1 then some (p.1, ⟨relPath v, some p.2⟩) else none

/-- A version of a file that something was met for before. -/
def Clash (filesOrig : List Text) (u v : Visit) : Prop :=
  ∃ c r r', claim filesOrig u = some (c, r) ∧ claim filesOrig v = some (c, r') ∧ r'.version ≠ none

theorem claim_eq_some_iff {filesOrig : List Text} {v : Visit} {c : Text} {r : Real} :
    claim filesOrig v = some (c, r) ↔ c ∈ filesOrig ∧ v.target = none ∧ r.file = relPath v ∧
      (r.version = none ∧ relPath v = c ∨ ∃ version, r.version = some version ∧
        relPath v ∉ filesOrig ∧ relPath v = c ++ '-' :: version ∧ '-' ∉ version) := by
  unfold claim
  cases htarget : v.target with
  | some target => exact iff_of_false (by simp) fun h => Option.some_ne_none _ h.2.1
  | none =>
    dsimp only
    by_cases hf : relPath v ∈ filesOrig
    · rw [if_pos (List.contains_iff_mem.mpr hf)]
      constructor
      · intro h
        obtain ⟨rfl, rfl⟩ := Prod.mk.inj (Option.some.inj h)
        exact ⟨hf, rfl, rfl, .inl ⟨rfl, rfl⟩⟩
      · rintro ⟨hc, -, hfile, ⟨hversion, rfl⟩ | ⟨version, -, hnot, -⟩⟩
        · obtain ⟨file, version⟩ := r
          obtain rfl : file = relPath v := hfile
          obtain rfl : version = none := hversion
          rfl
        · exact absurd hf hnot
    · rw [if_neg (mt List.contains_iff_mem.mp hf), Option.bind_eq_some_iff]
      constructor
      · rintro ⟨⟨base, version⟩, hsplit, h⟩
        split at h
        · next hbase =>
          obtain ⟨rfl, rfl⟩ := Prod.mk.inj (Option.some.inj h)
          obtain ⟨heq, hno⟩ := rsplit_eq_some_iff.mp hsplit
          exact ⟨List.contains_iff_mem.mp hbase, rfl, rfl, .inr ⟨version, rfl, hf, heq, hno⟩⟩
        · cases h
      · rintro ⟨hc, -, hfile, ⟨-, rfl⟩ | ⟨version, hversion, -, heq, hno⟩⟩
        · exact absurd hc hf
        · obtain ⟨file, v'⟩ := r
          refine ⟨(c, version), rsplit_eq_some_iff.mpr ⟨heq, hno⟩, ?_⟩
          obtain rfl : file = relPath v := hfile
          obtain rfl : v' = some version := hversion
          rw [if_pos (List.contains_iff_mem.mpr hc)]

/-- What one round does. -/
theorem scanFile_cases {filesOrig : List Text} {s s' : Scan} {v : Visit}
    (h : scanFile filesOrig s v = some s') :
    (∃ target, v.target = some target ∧ relPath v ∈ filesOrig ∧ s' = { s with
      links := Function.update s.links (relPath v) (some target)
      linksRev := Function.update s.linksRev (linkTarget (relPath v) target)
        (s.linksRev (linkTarget (relPath v) target) ++ [relPath v]) }) ∨
    (∃ c r, claim filesOrig v = some (c, r) ∧ (r.version = none ∨ s.filesReal c = none) ∧
      s' = { s with filesReal := Function.update s.filesReal c (some r) }) ∨
    (claim filesOrig v = none ∧ (v.target = none ∨ relPath v ∉ filesOrig) ∧
      ∃ unused, s' = { s with filesUnused := unused }) := by
  have hunused : ∀ f, ∃ unused, unusedFile s f = { s with filesUnused := unused } := by
    intro f
    rw [unusedFile]
    split
    · exact ⟨s.filesUnused, rfl⟩
    · exact ⟨_, rfl⟩
  unfold scanFile at h
  dsimp only at h
  unfold claim
  cases htarget : v.target with
  | some target =>
    rw [htarget] at h
    dsimp only at h ⊢
    split at h
    · next hf => exact .inl ⟨target, rfl, List.contains_iff_mem.mp hf, (Option.some.inj h).symm⟩
    · next hf =>
      exact .inr (.inr ⟨rfl, .inr (mt List.contains_iff_mem.mpr hf), s.filesUnused,
        (Option.some.inj h).symm⟩)
  | none =>
    rw [htarget] at h
    dsimp only at h ⊢
    split at h
    · next hf =>
      rw [if_pos hf]
      exact .inr (.inl ⟨_, _, rfl, .inl rfl, (Option.some.inj h).symm⟩)
    · next hf =>
      rw [if_neg hf]
      split at h
      · next base version hbase =>
        rw [hbase, Option.bind_some]
        split at h
        · next hmem =>
          rw [if_pos hmem]
          split at h
          · cases h
          · next hnone =>
            exact .inr (.inl ⟨_, _, rfl, .inr (Option.not_isSome_iff_eq_none.mp hnone),
              (Option.some.inj h).symm⟩)
        · next hmem =>
          rw [if_neg hmem]
          obtain ⟨unused, hs⟩ := hunused (relPath v)
          exact .inr (.inr ⟨rfl, .inl rfl, unused, (Option.some.inj h).symm.trans hs⟩)
      · next hnone =>
        rw [hnone]
        obtain ⟨unused, hs⟩ := hunused (relPath v)
        exact .inr (.inr ⟨rfl, .inl rfl, unused, (Option.some.inj h).symm.trans hs⟩)

/-- When a round fails. -/
theorem scanFile_eq_none {filesOrig : List Text} {s : Scan} {v : Visit}
    (h : scanFile filesOrig s v = none) :
    ∃ c r, claim filesOrig v = some (c, r) ∧ r.version ≠ none ∧ s.filesReal c ≠ none := by
  unfold scanFile at h
  dsimp only at h
  unfold claim
  cases htarget : v.target with
  | some target =>
    rw [htarget] at h
    dsimp only at h
    split at h <;> cases h
  | none =>
    rw [htarget] at h
    dsimp only at h ⊢
    split at h
    · cases h
    · next hf =>
      rw [if_neg hf]
      split at h
      · next base version hbase =>
        rw [hbase, Option.bind_some]
        split at h
        · next hmem =>
          rw [if_pos hmem]
          split at h
          · next hsome =>
            exact ⟨_, _, rfl, Option.some_ne_none _, Option.isSome_iff_ne_none.mp hsome⟩
          · cases h
        · cases h
      · cases h

theorem target_eq_none_of_claim {filesOrig : List Text} {v : Visit} {c : Text} {r : Real}
    (h : claim filesOrig v = some (c, r)) : v.target = none :=
  (claim_eq_some_iff.mp h).2.1

/-- The value of a file of its own is the same whenever it is met. -/
theorem claim_own {filesOrig : List Text} {v : Visit} {c : Text} {r : Real}
    (h : claim filesOrig v = some (c, r)) (hr : r.version = none) : r = ⟨c, none⟩ := by
  obtain ⟨-, -, hfile, ⟨-, hc⟩ | ⟨version, hversion, -⟩⟩ := claim_eq_some_iff.mp h
  · obtain ⟨file, version⟩ := r
    obtain rfl : version = none := hr
    obtain rfl : file = relPath v := hfile
    rw [hc]
  · rw [hr] at hversion
    cases hversion

theorem mem_concat {α : Type} {x v : α} {vs : List α} : x ∈ vs ++ [v] ↔ x ∈ vs ∨ x = v := by
  rw [List.mem_append, List.mem_singleton]

/-- `files_real` after the scan of what was met. -/
structure ScannedReals (filesOrig : List Text) (vs : List Visit) (filesReal : Text → Option Real) :
    Prop where
  mem : ∀ {c r}, filesReal c = some r → ∃ u ∈ vs, claim filesOrig u = some (c, r)
  filled : ∀ {u c r}, u ∈ vs → claim filesOrig u = some (c, r) →
    ∃ r', filesReal c = some r' ∧ (r.version = none → r' = r)

/-- `links` and `links_rev` after the scan of what was met. -/
structure ScannedLinks (filesOrig : List Text) (vs : List Visit) (links : Text → Option Text)
    (linksRev : Text → List Text) : Prop where
  mem : ∀ {c target}, links c = some target →
    c ∈ filesOrig ∧ ∃ u ∈ vs, u.target = some target ∧ relPath u = c
  filled : ∀ {u target}, u ∈ vs → u.target = some target → relPath u ∈ filesOrig →
    (links (relPath u)).isSome
  rev : ∀ {c g}, c ∈ linksRev g ↔ c ∈ filesOrig ∧ ∃ u ∈ vs, ∃ target,
    u.target = some target ∧ relPath u = c ∧ linkTarget c target = g

theorem ScannedReals.append_other {filesOrig : List Text} {vs : List Visit}
    {filesReal : Text → Option Real} (h : ScannedReals filesOrig vs filesReal) {v : Visit}
    (hv : claim filesOrig v = none) : ScannedReals filesOrig (vs ++ [v]) filesReal where
  mem hr := by
    obtain ⟨u, hu, hclaim⟩ := h.mem hr
    exact ⟨u, List.mem_append_left _ hu, hclaim⟩
  filled hu hclaim := by
    rcases mem_concat.mp hu with hu | rfl
    · exact h.filled hu hclaim
    · rw [hv] at hclaim
      cases hclaim

theorem ScannedReals.append_claim {filesOrig : List Text} {vs : List Visit}
    {filesReal : Text → Option Real} (h : ScannedReals filesOrig vs filesReal) {v : Visit}
    {c : Text} {r : Real} (hv : claim filesOrig v = some (c, r))
    (hfree : r.version = none ∨ filesReal c = none) :
    ScannedReals filesOrig (vs ++ [v]) (Function.update filesReal c (some r)) where
  mem {c' r'} hr := by
    rw [Function.update_apply] at hr
    split at hr
    · next hc =>
      rw [hc, ← Option.some.inj hr]
      exact ⟨v, List.mem_append_right _ List.mem_cons_self, hv⟩
    · obtain ⟨u, hu, hclaim⟩ := h.mem hr
      exact ⟨u, List.mem_append_left _ hu, hclaim⟩
  filled {u c' r'} hu hclaim := by
    rw [Function.update_apply]
    split
    · next hc =>
      rw [hc] at hclaim
      refine ⟨r, rfl, fun hown => ?_⟩
      rcases mem_concat.mp hu with hu | rfl
      · -- it was met before, so that this is not a version
        obtain ⟨r₁, hr₁, -⟩ := h.filled hu hclaim
        have hnone : r.version = none := hfree.resolve_right fun h => by
          rw [hr₁] at h
          cases h
        rw [claim_own hv hnone, claim_own hclaim hown]
      · rw [hv] at hclaim
        exact (Prod.mk.inj (Option.some.inj hclaim)).2
    · next hne =>
      rcases mem_concat.mp hu with hu | rfl
      · exact h.filled hu hclaim
      · rw [hv] at hclaim
        exact absurd (Prod.mk.inj (Option.some.inj hclaim)).1.symm hne

theorem ScannedLinks.append_other {filesOrig : List Text} {vs : List Visit}
    {links : Text → Option Text} {linksRev : Text → List Text}
    (h : ScannedLinks filesOrig vs links linksRev) {v : Visit}
    (hv : v.target = none ∨ relPath v ∉ filesOrig) :
    ScannedLinks filesOrig (vs ++ [v]) links linksRev where
  mem hl := by
    obtain ⟨hc, u, hu, htarget⟩ := h.mem hl
    exact ⟨hc, u, List.mem_append_left _ hu, htarget⟩
  filled {u target} hu htarget hc := by
    rcases mem_concat.mp hu with hu | rfl
    · exact h.filled hu htarget hc
    · rcases hv with hv | hv
      · rw [hv] at htarget
        cases htarget
      · exact absurd hc hv
  rev {c g} := by
    rw [h.rev]
    refine and_congr_right fun hc => ⟨?_, ?_⟩
    · rintro ⟨u, hu, htarget⟩
      exact ⟨u, List.mem_append_left _ hu, htarget⟩
    · rintro ⟨u, hu, target, htarget, hpath, hg⟩
      rcases mem_concat.mp hu with hu | rfl
      · exact ⟨u, hu, target, htarget, hpath, hg⟩
      · rcases hv with hv | hv
        · rw [hv] at htarget
          cases htarget
        · exact absurd (hpath ▸ hc) hv

theorem ScannedLinks.append_link {filesOrig : List Text} {vs : List Visit}
    {links : Text → Option Text} {linksRev : Text → List Text}
    (h : ScannedLinks filesOrig vs links linksRev) {v : Visit} {target : Text}
    (hv : v.target = some target) (hf : relPath v ∈ filesOrig) :
    ScannedLinks filesOrig (vs ++ [v]) (Function.update links (relPath v) (some target))
      (Function.update linksRev (linkTarget (relPath v) target)
        (linksRev (linkTarget (relPath v) target) ++ [relPath v])) where
  mem {c target'} hl := by
    rw [Function.update_apply] at hl
    split at hl
    · next hc =>
      rw [← Option.some.inj hl, hc]
      exact ⟨hf, v, List.mem_append_right _ List.mem_cons_self, hv, rfl⟩
    · obtain ⟨hc, u, hu, htarget⟩ := h.mem hl
      exact ⟨hc, u, List.mem_append_left _ hu, htarget⟩
  filled {u target'} hu htarget hc := by
    rw [Function.update_apply]
    split
    · rfl
    · next hne =>
      rcases mem_concat.mp hu with hu | rfl
      · exact h.filled hu htarget hc
      · exact absurd rfl hne
  rev {c g} := by
    have hold : c ∈ linksRev g ↔ c ∈ filesOrig ∧ ∃ u ∈ vs, ∃ target,
      u.target = some target ∧ relPath u = c ∧ linkTarget c target = g := h.rev
    have hnew : (∃ u ∈ vs ++ [v], ∃ t, u.target = some t ∧ relPath u = c ∧
        linkTarget c t = g) ↔ (∃ u ∈ vs, ∃ t, u.target = some t ∧ relPath u = c ∧
        linkTarget c t = g) ∨ relPath v = c ∧ linkTarget c target = g := by
      constructor
      · rintro ⟨u, hu, t, htarget, hpath, hg⟩
        rcases mem_concat.mp hu with hu | rfl
        · exact .inl ⟨u, hu, t, htarget, hpath, hg⟩
        · rw [hv] at htarget
          rw [← Option.some.inj htarget] at hg
          exact .inr ⟨hpath, hg⟩
      · rintro (⟨u, hu, htarget⟩ | ⟨hpath, hg⟩)
        · exact ⟨u, List.mem_append_left _ hu, htarget⟩
        · exact ⟨v, List.mem_append_right _ List.mem_cons_self, target, hv, hpath, hg⟩
    rw [hnew, and_or_left, ← hold, Function.update_apply]
    split
    · next hg =>
      rw [hg, mem_concat]
      refine or_congr_right ⟨?_, fun h => h.2.1.symm⟩
      rintro rfl
      exact ⟨hf, rfl, rfl⟩
    · next hg =>
      refine ⟨.inl, fun h => h.resolve_right ?_⟩
      rintro ⟨-, rfl, hg'⟩
      exact hg hg'.symm

/-- The variables after the scan of what was met. -/
structure Scanned (filesOrig : List Text) (vs : List Visit) (s : Scan) : Prop where
  reals : ScannedReals filesOrig vs s.filesReal
  links : ScannedLinks filesOrig vs s.links s.linksRev

theorem scanned_init (filesOrig : List Text) : Scanned filesOrig [] init where
  reals := ⟨(by intro _ _ h; cases h), fun h => absurd h List.not_mem_nil⟩
  links := by
    refine ⟨(by intro _ _ h; cases h), fun h => absurd h List.not_mem_nil,
      iff_of_false List.not_mem_nil ?_⟩
    rintro ⟨-, u, hu, -⟩
    exact absurd hu List.not_mem_nil

theorem scanned_step {filesOrig : List Text} {vs : List Visit} {s s' : Scan} {v : Visit}
    (hs : Scanned filesOrig vs s) (h : scanFile filesOrig s v = some s') :
    Scanned filesOrig (vs ++ [v]) s' := by
  rcases scanFile_cases h with ⟨target, htarget, hf, rfl⟩ | ⟨c, r, hclaim, hfree, rfl⟩ |
    ⟨hclaim, hlink, unused, rfl⟩
  · refine ⟨hs.reals.append_other ?_, hs.links.append_link htarget hf⟩
    rw [claim, htarget]
  · exact ⟨hs.reals.append_claim hclaim hfree,
      hs.links.append_other (.inl (target_eq_none_of_claim hclaim))⟩
  · exact ⟨hs.reals.append_other hclaim, hs.links.append_other hlink⟩

theorem scan_concat (filesOrig : List Text) (vs : List Visit) (v : Visit) :
    scan filesOrig (vs ++ [v]) = (scan filesOrig vs).bind fun s => scanFile filesOrig s v := by
  rw [scan, List.foldlM_append]
  refine Option.bind_congr fun s _ => ?_
  rw [List.foldlM_cons]
  exact bind_pure _

theorem scanned_scan {filesOrig : List Text} {vs : List Visit} {s : Scan}
    (h : scan filesOrig vs = some s) : Scanned filesOrig vs s := by
  induction vs using List.reverseRecOn generalizing s with
  | nil =>
    obtain rfl := Option.some.inj h
    exact scanned_init filesOrig
  | append_singleton vs v ih =>
    rw [scan_concat] at h
    obtain ⟨s₁, hs₁, h⟩ := Option.bind_eq_some_iff.mp h
    exact scanned_step (ih hs₁) h

/-- The scan fails when a version comes after something of the same name. -/
theorem scan_isSome_iff (filesOrig : List Text) (vs : List Visit) :
    (scan filesOrig vs).isSome ↔ vs.Pairwise fun u v => ¬ Clash filesOrig u v := by
  induction vs using List.reverseRecOn with
  | nil => exact iff_of_true rfl List.Pairwise.nil
  | append_singleton vs v ih =>
    rw [scan_concat, List.pairwise_append, ← ih]
    cases hscan : scan filesOrig vs with
    | none => exact iff_of_false (by simp) (by simp)
    | some s =>
      have hs := scanned_scan hscan
      rw [Option.bind_some]
      constructor
      · intro h
        obtain ⟨s', hs'⟩ := Option.isSome_iff_exists.mp h
        refine ⟨rfl, List.pairwise_singleton _ _, fun u hu w hw => ?_⟩
        rw [List.mem_singleton.mp hw]
        rintro ⟨c, r, r', hclaim, hclaim', hversion⟩
        obtain ⟨r₁, hr₁, -⟩ := hs.reals.filled hu hclaim
        rcases scanFile_cases hs' with ⟨target, htarget, -⟩ | ⟨c₁, r₂, hclaim₁, hfree, -⟩ |
          ⟨hnone, -⟩
        · rw [target_eq_none_of_claim hclaim'] at htarget
          cases htarget
        · obtain ⟨rfl, rfl⟩ := Prod.mk.inj (Option.some.inj (hclaim₁.symm.trans hclaim'))
          rcases hfree with hfree | hfree
          · exact hversion hfree
          · rw [hr₁] at hfree
            cases hfree
        · rw [hnone] at hclaim'
          cases hclaim'
      · rintro ⟨-, -, h⟩
        by_contra hnone
        obtain ⟨c, r, hclaim, hversion, hfilled⟩ :=
          scanFile_eq_none (Option.not_isSome_iff_eq_none.mp hnone)
        obtain ⟨r', hr'⟩ := Option.ne_none_iff_exists'.mp hfilled
        obtain ⟨u, hu, hclaim'⟩ := hs.reals.mem hr'
        exact h u hu v List.mem_cons_self ⟨c, r', r, hclaim', hclaim, hversion⟩

/-! ## The Contents -/

theorem contents_isSome_iff (config : Text → FileSection) (s : Scan) (files : List Text) :
    (contents config s files).isSome ↔
      ∀ f ∈ files, (s.links f).isSome ∨ (s.filesReal f).isSome := by
  induction files with
  | nil => exact iff_of_true rfl fun _ h => absurd h List.not_mem_nil
  | cons f files ih =>
    rw [contents, List.forall_mem_cons, ← ih]
    split
    · next hlink => exact (and_iff_right (.inl hlink)).symm
    · next hlink =>
      rw [or_iff_right hlink]
      cases s.filesReal f with
      | none => exact iff_of_false Bool.false_ne_true fun h => Bool.false_ne_true h.1
      | some real =>
        rw [Option.bind_some, Option.isSome_map]
        exact (and_iff_right rfl).symm

theorem mem_contents {config : Text → FileSection} {s : Scan} {files : List Text}
    {items : List Item} (h : contents config s files = some items) {item : Item} :
    item ∈ items ↔ ∃ f ∈ files, s.links f = none ∧
      ∃ real, s.filesReal f = some real ∧ item = describe config s f real := by
  induction files generalizing items with
  | nil =>
    obtain rfl := Option.some.inj h
    exact iff_of_false List.not_mem_nil fun ⟨f, hf, _⟩ => absurd hf List.not_mem_nil
  | cons f files ih =>
    rw [List.exists_mem_cons_iff]
    rw [contents] at h
    split at h
    · next hlink =>
      rw [ih h]
      refine (or_iff_right ?_).symm
      rintro ⟨hnone, -⟩
      rw [hnone] at hlink
      cases hlink
    · next hlink =>
      obtain ⟨real, hreal, h⟩ := Option.bind_eq_some_iff.mp h
      obtain ⟨items', h', rfl⟩ := Option.map_eq_some_iff.mp h
      rw [List.mem_cons, ih h']
      refine or_congr_left ⟨?_, ?_⟩
      · rintro rfl
        exact ⟨Option.not_isSome_iff_eq_none.mp hlink, real, hreal, rfl⟩
      · rintro ⟨-, real', hreal', rfl⟩
        rw [Option.some.inj (hreal.symm.trans hreal')]

/-- How often a name is assigned to. -/
theorem count_assigned {β : Type} {files : List Text} {f : Text} (hf : f ∈ files)
    (g : Text → Option β) :
    (files.dedup.filter fun f => (g f).isSome).count f = if (g f).isSome then 1 else 0 := by
  split
  · next hsome =>
    exact List.count_eq_one_of_mem (files.nodup_dedup.filter _)
      (List.mem_filter.mpr ⟨List.mem_dedup.mpr hf, hsome⟩)
  · next hnone =>
    exact List.count_eq_zero_of_not_mem fun h => hnone (List.mem_filter.mp h).2

theorem map_filterMap_assigned {β γ : Type} (files : List Text) (g : Text → Option β)
    (k : Text → β → γ) (name : γ → Text) (h : ∀ f b, name (k f b) = f) :
    (files.filterMap fun f => (g f).map (k f)).map name = files.filter fun f => (g f).isSome := by
  rw [List.map_filterMap, ← List.filterMap_eq_filter]
  refine List.filterMap_congr fun f _ => ?_
  cases hg : g f with
  | none => simp [Option.guard, hg]
  | some b => simp [Option.guard, hg, h f b]

/-! ## The directory -/

section

variable {files : List Text} {tree : DirEntry} {order : ListingOrder}

theorem segments_relPath {v : Visit} (hv : v ∈ tree.walk ".svn" order []) :
    segments (relPath v) = v.path := by
  obtain ⟨path, hne, hpath, e', hfind, -⟩ := DirEntry.mem_walk.mp hv
  rw [List.nil_append] at hpath
  subst hpath
  exact List.splitOn_intercalate '/' (fun n hn => (DirEntry.find_slash hfind n hn).2) hne

theorem relPath_segments (f : Text) (target : Option Text) : relPath ⟨segments f, target⟩ = f :=
  List.intercalate_splitOn '/'

/-- What is met in the directory of the package. -/
theorem mem_visits {v : Visit} (hv : v ∈ tree.walk ".svn" order []) :
    v.target = none ∧ IsFileAt tree (relPath v) ∨
      ∃ target, v.target = some target ∧ IsLinkAt tree (relPath v) target := by
  have hsegments := segments_relPath hv
  obtain ⟨path, -, hpath, e', hfind, hvisit⟩ := DirEntry.mem_walk.mp hv
  rw [List.nil_append] at hpath
  rw [← hpath, ← hsegments] at hfind
  cases e' with
  | file =>
    refine .inl ⟨?_, hfind⟩
    rw [← Option.some.inj hvisit]
  | link target toDir =>
    cases toDir with
    | true => cases hvisit
    | false =>
      refine .inr ⟨target, ?_, hfind⟩
      rw [← Option.some.inj hvisit]
  | dir names nodup slash entry => cases hvisit

theorem file_mem_visits {f : Text} (hf : IsFileAt tree f) :
    ⟨segments f, none⟩ ∈ tree.walk ".svn" order [] :=
  DirEntry.mem_walk.mpr ⟨segments f, List.splitOn_ne_nil _ _, rfl, .file, hf, rfl⟩

theorem link_mem_visits {f target : Text} (hf : IsLinkAt tree f target) :
    ⟨segments f, some target⟩ ∈ tree.walk ".svn" order [] :=
  DirEntry.mem_walk.mpr ⟨segments f, List.splitOn_ne_nil _ _, rfl, .link target false, hf, rfl⟩

theorem isLinkAt_unique {f t t' : Text} (h : IsLinkAt tree f t) (h' : IsLinkAt tree f t') :
    t = t' := (DirEntry.link.inj (Option.some.inj (h.symm.trans h'))).1

theorem not_isLinkAt {f t : Text} (h : IsFileAt tree f) : ¬ IsLinkAt tree f t := fun h' => by
  cases Option.some.inj (h.symm.trans h')

/-- What stands for a configured file. -/
theorem claim_cases {v : Visit} (hv : v ∈ tree.walk ".svn" order []) {c : Text} {r : Real}
    (h : claim files v = some (c, r)) : c ∈ files ∧
      (r = ⟨c, none⟩ ∧ relPath v = c ∧ IsFileAt tree c ∨ ∃ version,
        r = ⟨c ++ '-' :: version, some version⟩ ∧ relPath v = c ++ '-' :: version ∧
          HasVersion files tree c version) := by
  obtain ⟨hc, htarget, hfile, hcase⟩ := claim_eq_some_iff.mp h
  have hat : IsFileAt tree (relPath v) := by
    rcases mem_visits hv with ⟨-, hat⟩ | ⟨target, hsome, -⟩
    · exact hat
    · rw [htarget] at hsome
      cases hsome
  refine ⟨hc, ?_⟩
  rcases hcase with ⟨hversion, hpath⟩ | ⟨version, hversion, hnot, hpath, hno⟩
  · exact .inl ⟨claim_own h hversion, hpath, hpath ▸ hat⟩
  · rw [hpath] at hfile hnot hat
    refine .inr ⟨version, ?_, hpath, hno, hnot, hat⟩
    obtain ⟨file, v'⟩ := r
    obtain rfl : file = _ := hfile
    obtain rfl : v' = _ := hversion
    rfl

theorem claim_file {c : Text} (hc : c ∈ files) :
    claim files ⟨segments c, none⟩ = some (c, ⟨c, none⟩) :=
  claim_eq_some_iff.mpr ⟨hc, rfl, (relPath_segments c none).symm,
    .inl ⟨rfl, relPath_segments c none⟩⟩

theorem claim_version {c version : Text} (hc : c ∈ files) (h : HasVersion files tree c version) :
    claim files ⟨segments (c ++ '-' :: version), none⟩ =
      some (c, ⟨c ++ '-' :: version, some version⟩) := by
  have hpath := relPath_segments (c ++ '-' :: version) none
  refine claim_eq_some_iff.mpr ⟨hc, rfl, hpath.symm, .inr ⟨version, rfl, ?_, hpath, h.1⟩⟩
  rw [hpath]
  exact h.2.1

end

section

variable {files : List Text} {tree : DirEntry} {order : ListingOrder}

/-- What is installed for a configured file, after a scan without an error. -/
theorem Scanned.real_cases {s : Scan} (hs : Scanned files (tree.walk ".svn" order []) s) {c : Text}
    {r : Real} (h : s.filesReal c = some r) : r = ⟨c, none⟩ ∧ IsFileAt tree c ∨
      ¬ IsFileAt tree c ∧ ∃ version, r = ⟨c ++ '-' :: version, some version⟩ ∧
        HasVersion files tree c version := by
  obtain ⟨u, hu, hclaim⟩ := hs.reals.mem h
  obtain ⟨hc, ⟨rfl, -, hfile⟩ | ⟨version, rfl, -, hversion⟩⟩ := claim_cases hu hclaim
  · exact .inl ⟨rfl, hfile⟩
  · by_cases hfile : IsFileAt tree c
    · obtain ⟨r', hr', hown⟩ := hs.reals.filled (file_mem_visits hfile) (claim_file hc)
      rw [h] at hr'
      rw [hown rfl] at hr'
      exact absurd (congrArg Real.version (Option.some.inj hr')) (Option.some_ne_none _)
    · exact .inr ⟨hfile, version, rfl, hversion⟩

theorem Scanned.real_isSome {s : Scan} (hs : Scanned files (tree.walk ".svn" order []) s) {c : Text}
    (hc : c ∈ files) : (s.filesReal c).isSome ↔
      IsFileAt tree c ∨ ∃ version, HasVersion files tree c version := by
  constructor
  · intro h
    obtain ⟨r, hr⟩ := Option.isSome_iff_exists.mp h
    rcases hs.real_cases hr with ⟨-, hfile⟩ | ⟨-, version, -, hversion⟩
    · exact .inl hfile
    · exact .inr ⟨version, hversion⟩
  · rintro (hfile | ⟨version, hversion⟩)
    · obtain ⟨r, hr, -⟩ := hs.reals.filled (file_mem_visits hfile) (claim_file hc)
      exact Option.isSome_iff_exists.mpr ⟨r, hr⟩
    · obtain ⟨r, hr, -⟩ :=
        hs.reals.filled (file_mem_visits hversion.2.2) (claim_version hc hversion)
      exact Option.isSome_iff_exists.mpr ⟨r, hr⟩

theorem Scanned.links_iff {s : Scan} (hs : Scanned files (tree.walk ".svn" order []) s)
    {c target : Text} : s.links c = some target ↔ c ∈ files ∧ IsLinkAt tree c target := by
  have hmem : ∀ {target}, s.links c = some target → c ∈ files ∧ IsLinkAt tree c target := by
    intro target h
    obtain ⟨hc, u, hu, htarget, hpath⟩ := hs.links.mem h
    refine ⟨hc, ?_⟩
    rcases mem_visits hu with ⟨hnone, -⟩ | ⟨target', hsome, hlink⟩
    · rw [hnone] at htarget
      cases htarget
    · rw [Option.some.inj (htarget.symm.trans hsome), ← hpath]
      exact hlink
  refine ⟨hmem, fun ⟨hc, hlink⟩ => ?_⟩
  have hpath := relPath_segments c (some target)
  have hsome := hs.links.filled (link_mem_visits hlink) rfl (by rw [hpath]; exact hc)
  rw [hpath] at hsome
  obtain ⟨target', htarget⟩ := Option.isSome_iff_exists.mp hsome
  rw [htarget, isLinkAt_unique hlink (hmem htarget).2]

theorem Scanned.mem_linksRev {s : Scan} (hs : Scanned files (tree.walk ".svn" order []) s)
    {c g : Text} : c ∈ s.linksRev g ↔
      c ∈ files ∧ ∃ target, IsLinkAt tree c target ∧ linkTarget c target = g := by
  rw [hs.links.rev]
  refine and_congr_right fun _ => ⟨?_, ?_⟩
  · rintro ⟨u, hu, target, htarget, rfl, hg⟩
    rcases mem_visits hu with ⟨hnone, -⟩ | ⟨target', hsome, hlink⟩
    · rw [hnone] at htarget
      cases htarget
    · obtain rfl := Option.some.inj (htarget.symm.trans hsome)
      exact ⟨target, hlink, hg⟩
  · rintro ⟨target, hlink, hg⟩
    exact ⟨_, link_mem_visits hlink, target, rfl, relPath_segments c _, hg⟩

/-! ## A run -/

/-- When a run succeeds. -/
theorem doPackage_isSome_iff (config : Text → FileSection) :
    (doPackage config files order tree).isSome ↔
      ((tree.walk ".svn" order []).Pairwise fun u v => ¬ Clash files u v) ∧
      ∀ c ∈ files, (∃ target, IsLinkAt tree c target) ∨ IsFileAt tree c ∨
        ∃ version, HasVersion files tree c version := by
  rw [doPackage, ← scan_isSome_iff]
  cases hscan : scan files (tree.walk ".svn" order []) with
  | none => exact iff_of_false Bool.false_ne_true fun h => Bool.false_ne_true h.1
  | some s =>
    have hs := scanned_scan hscan
    rw [Option.bind_some, Option.isSome_map, contents_isSome_iff]
    refine Iff.trans ?_ (and_iff_right rfl).symm
    refine forall₂_congr fun c hc => or_congr ?_ (hs.real_isSome hc)
    rw [Option.isSome_iff_exists]
    exact exists_congr fun target => hs.links_iff.trans (and_iff_right hc)

/-- What a run that succeeds has scanned. -/
theorem doPackage_spec {config : Text → FileSection} {p : Package}
    (h : doPackage config files order tree = some p) :
    ∃ s, Scanned files (tree.walk ".svn" order []) s ∧ contents config s files = some p.contents ∧
      p.files = (files.dedup.filterMap fun f => (s.filesReal f).map fun real => (real.file, f)) ∧
      p.links = files.dedup.filterMap fun f => (s.links f).map fun target => (f, target) := by
  obtain ⟨s, hscan, h⟩ := Option.bind_eq_some_iff.mp h
  obtain ⟨items, hitems, rfl⟩ := Option.map_eq_some_iff.mp h
  exact ⟨s, scanned_scan hscan, hitems, rfl, rfl⟩

/-- A configured file is installed once if there is not a link and a file for it. -/
theorem count_installed {config : Text → FileSection} {p : Package}
    (h : doPackage config files order tree = some p) {c : Text} (hc : c ∈ files) :
    p.installed.count c = 1 ↔
      ¬ ((∃ target, IsLinkAt tree c target) ∧
        (IsFileAt tree c ∨ ∃ version, HasVersion files tree c version)) := by
  obtain ⟨s, hs, hcontents, hfiles, hlinks⟩ := doPackage_spec h
  have hlink : (s.links c).isSome ↔ ∃ target, IsLinkAt tree c target := by
    rw [Option.isSome_iff_exists]
    exact exists_congr fun target => hs.links_iff.trans (and_iff_right hc)
  have hone := (contents_isSome_iff config s files).mp (by rw [hcontents]; rfl) c hc
  rw [Package.installed, List.count_append, hfiles, hlinks,
    map_filterMap_assigned _ _ _ _ fun _ _ => rfl, map_filterMap_assigned _ _ _ _ fun _ _ => rfl,
    count_assigned hc, count_assigned hc, ← hlink, ← hs.real_isSome hc]
  by_cases hl : (s.links c).isSome = true
  · by_cases hr : (s.filesReal c).isSome = true
    · rw [if_pos hl, if_pos hr]
      exact iff_of_false (by decide) fun h => h ⟨hl, hr⟩
    · rw [if_pos hl, if_neg hr]
      exact iff_of_true rfl fun h => hr h.2
  · rw [if_neg hl, if_pos (hone.resolve_left hl)]
    exact iff_of_true rfl fun h => hl h.1

/-- An item with the name spells it. -/
theorem names_iff {p : Package} {c : Text} : p.Names c ↔ ∃ item ∈ p.contents, c ∈ item.names := by
  constructor
  · rintro ⟨item, hitem, hc, -⟩
    exact ⟨item, hitem, hc⟩
  · rintro ⟨item, hitem, hc⟩
    refine ⟨item, hitem, hc, ?_, spelled_text hc⟩
    obtain ⟨items, items', hsplit⟩ := List.append_of_mem hitem
    refine ⟨"Contents:" :: items.flatMap fun item => contentsWrapper.wrap item.text,
      items'.flatMap fun item => contentsWrapper.wrap item.text, ?_⟩
    rw [Package.filesDesc, hsplit]
    simp

/-- A configured file is named if it is no link, or one to a configured file that is none. -/
theorem named_iff {config : Text → FileSection} {p : Package}
    (h : doPackage config files order tree = some p) {c : Text} (hc : c ∈ files) :
    p.Names c ↔ ∀ target, IsLinkAt tree c target →
      linkTarget c target ∈ files ∧ ∀ target', ¬ IsLinkAt tree (linkTarget c target) target' := by
  rw [names_iff]
  obtain ⟨s, hs, hcontents, -, -⟩ := doPackage_spec h
  have hone := (contents_isSome_iff config s files).mp (by rw [hcontents]; rfl)
  have hnone : ∀ {g}, g ∈ files → (s.links g = none ↔ ∀ target, ¬ IsLinkAt tree g target) := by
    intro g hg
    rw [Option.eq_none_iff_forall_ne_some]
    exact forall_congr' fun target => not_congr (hs.links_iff.trans (and_iff_right hg))
  have hitem : ∀ {g}, g ∈ files → s.links g = none →
      ∃ item ∈ p.contents, item.names = g :: s.linksRev g := by
    intro g hg hlink
    obtain ⟨real, hreal⟩ := Option.isSome_iff_exists.mp
      ((hone g hg).resolve_left (by rw [hlink]; exact Bool.false_ne_true))
    exact ⟨_, (mem_contents hcontents).mpr ⟨g, hg, hlink, real, hreal, rfl⟩, rfl⟩
  constructor
  · rintro ⟨item, hmem, hname⟩ target htarget
    obtain ⟨g, hg, hlink, real, -, rfl⟩ := (mem_contents hcontents).mp hmem
    rcases List.mem_cons.mp hname with rfl | hrev
    · exact absurd htarget ((hnone hg).mp hlink target)
    · obtain ⟨-, target', htarget', rfl⟩ := hs.mem_linksRev.mp hrev
      obtain rfl := isLinkAt_unique htarget htarget'
      exact ⟨hg, (hnone hg).mp hlink⟩
  · intro h
    by_cases hlink : ∃ target, IsLinkAt tree c target
    · obtain ⟨target, htarget⟩ := hlink
      obtain ⟨hg, hno⟩ := h target htarget
      obtain ⟨item, hmem, hnames⟩ := hitem hg ((hnone hg).mpr hno)
      refine ⟨item, hmem, ?_⟩
      rw [hnames]
      exact List.mem_cons_of_mem _ (hs.mem_linksRev.mpr ⟨hc, target, htarget, rfl⟩)
    · obtain ⟨item, hmem, hnames⟩ := hitem hc ((hnone hc).mpr (not_exists.mp hlink))
      refine ⟨item, hmem, ?_⟩
      rw [hnames]
      exact List.mem_cons_self

end

/-! ## The order -/

section

variable {files : List Text} {tree : DirEntry} {order : ListingOrder}

/-- A version without a slash is next to the file. -/
theorem segments_version {c version : Text} (hslash : '/' ∉ version) :
    ∃ d x y, segments c = d ++ [x] ∧ segments (c ++ '-' :: version) = d ++ [y] := by
  obtain ⟨d, x, hc, happend⟩ := exists_segments_append c
  have hno : '/' ∉ '-' :: version := fun h => by
    rcases List.mem_cons.mp h with h | h
    · exact absurd h (by decide)
    · exact hslash h
  have hone : segments ('-' :: version) = ['-' :: version] := by
    have hall : ∀ t ∈ ['-' :: version], '/' ∉ t := fun t ht => List.mem_singleton.mp ht ▸ hno
    have hsplit := List.splitOn_intercalate '/' hall (List.cons_ne_nil _ _)
    rwa [List.intercalate_singleton] at hsplit
  exact ⟨d, x, _, hc, happend _ _ _ hone⟩

/-- A version with a slash is in a directory next to the file. -/
theorem segments_version_deeper {c version : Text} (hslash : '/' ∈ version) :
    ∃ d x y more, more ≠ [] ∧ segments c = d ++ [x] ∧
      segments (c ++ '-' :: version) = d ++ y :: more := by
  obtain ⟨d, x, hc, happend⟩ := exists_segments_append c
  obtain ⟨y, more, hsegments⟩ : ∃ y more, segments ('-' :: version) = y :: more :=
    List.exists_cons_of_ne_nil (List.splitOn_ne_nil '/' ('-' :: version))
  refine ⟨d, x, _, more, ?_, hc, happend _ _ _ hsegments⟩
  rintro rfl
  have hjoin : ['/'].intercalate (segments ('-' :: version)) = '-' :: version :=
    List.intercalate_splitOn '/'
  rw [hsegments, List.intercalate_singleton] at hjoin
  have hy : y ∈ segments ('-' :: version) := by
    rw [hsegments]
    exact List.mem_cons_self
  have hno := not_mem_of_mem_splitOn hy
  rw [hjoin] at hno
  exact hno (List.mem_cons_of_mem _ hslash)

theorem visit_eq {v : Visit} (hv : v ∈ tree.walk ".svn" order []) {f : Text} (hf : relPath v = f)
    (htarget : v.target = none) : v = ⟨segments f, none⟩ := by
  have hpath := segments_relPath hv
  obtain ⟨path, target⟩ := v
  obtain rfl : target = none := htarget
  rw [hf] at hpath
  exact congrArg (Visit.mk · none) hpath.symm

/-- Of two files that clash, the later one is a version. -/
theorem clash_cases {u v : Visit} (hu : u ∈ tree.walk ".svn" order [])
    (hv : v ∈ tree.walk ".svn" order []) (h : Clash files u v) :
    ∃ c ∈ files, ∃ version, HasVersion files tree c version ∧
      v = ⟨segments (c ++ '-' :: version), none⟩ ∧
      (IsFileAt tree c ∧ u = ⟨segments c, none⟩ ∨ ∃ version', HasVersion files tree c version' ∧
        u = ⟨segments (c ++ '-' :: version'), none⟩) := by
  obtain ⟨c, r, r', hclaim, hclaim', hversion⟩ := h
  have hu' := fun f hf => visit_eq (f := f) hu hf (target_eq_none_of_claim hclaim)
  have hv' := fun f hf => visit_eq (f := f) hv hf (target_eq_none_of_claim hclaim')
  obtain ⟨hc, ⟨rfl, -⟩ | ⟨version, rfl, hpath', hhas⟩⟩ := claim_cases hv hclaim'
  · exact absurd rfl hversion
  · refine ⟨c, hc, version, hhas, hv' _ hpath', ?_⟩
    obtain ⟨-, ⟨-, hpath, hfile⟩ | ⟨version', -, hpath, hhas'⟩⟩ := claim_cases hu hclaim
    · exact .inl ⟨hfile, hu' _ hpath⟩
    · exact .inr ⟨version', hhas', hu' _ hpath⟩

theorem clash_file_version {c version : Text} (hc : c ∈ files)
    (h : HasVersion files tree c version) :
    Clash files ⟨segments c, none⟩ ⟨segments (c ++ '-' :: version), none⟩ :=
  ⟨c, _, _, claim_file hc, claim_version hc h, Option.some_ne_none _⟩

theorem clash_versions {c u v : Text} (hc : c ∈ files) (hu : HasVersion files tree c u)
    (hv : HasVersion files tree c v) :
    Clash files ⟨segments (c ++ '-' :: u), none⟩ ⟨segments (c ++ '-' :: v), none⟩ :=
  ⟨c, _, _, claim_version hc hu, claim_version hc hv, Option.some_ne_none _⟩

/-- Names are told apart by their segments. -/
theorem segments_inj {f g : Text} (h : segments f = segments g) : f = g := by
  have hf := relPath_segments f none
  rw [h, relPath_segments g none] at hf
  exact hf.symm

/-- Where no order can help, each run fails. -/
theorem Fails.doPackage (h : Fails files tree) (config : Text → FileSection)
    (order : ListingOrder) : doPackage config files order tree = none := by
  rw [← Option.not_isSome_iff_eq_none, doPackage_isSome_iff]
  rintro ⟨hpairs, hall⟩
  obtain ⟨c, hc, ⟨u, v, hne, hu, hv⟩ | ⟨hfile, v, hv, hslash⟩ | ⟨hfile, hlink, hversion⟩⟩ := h
  · have hsymm : Std.Symm fun u v => ¬ (Clash files u v ∧ Clash files v u) :=
      ⟨fun _ _ h h' => h ⟨h'.2, h'.1⟩⟩
    have hboth : (tree.walk ".svn" order []).Pairwise
        fun u v => ¬ (Clash files u v ∧ Clash files v u) := hpairs.imp fun h h' => h h'.1
    refine hboth.forall (file_mem_visits hu.2.2) (file_mem_visits hv.2.2) (fun heq => hne ?_)
      ⟨clash_versions hc hu hv, clash_versions hc hv hu⟩
    have hsame := segments_inj (Visit.mk.inj heq).1
    exact (List.cons.inj (List.append_cancel_left hsame)).2
  · obtain ⟨d, x, y, more, hmore, hsegments, hsegments'⟩ := segments_version_deeper (c := c) hslash
    have hsub : [⟨segments c, none⟩, ⟨segments (c ++ '-' :: v), none⟩].Sublist
        (tree.walk ".svn" order []) :=
      DirEntry.deeper_after (file_mem_visits hfile) (file_mem_visits hv.2.2) hsegments hsegments'
        hmore
    exact List.pairwise_iff_forall_sublist.mp hpairs hsub (clash_file_version hc hv)
  · rcases hall c hc with ⟨target, htarget⟩ | hat | ⟨version, hat⟩
    · exact hlink target htarget
    · exact hfile hat
    · exact hversion version hat

theorem not_pair_both {α : Type} {l : List α} (hl : l.Nodup) {x y : α} (h : [x, y].Sublist l) :
    ¬ [y, x].Sublist l := by
  intro h'
  induction l with
  | nil => cases h
  | cons a l ih =>
    obtain ⟨ha, hl⟩ := List.nodup_cons.mp hl
    cases h with
    | cons _ h =>
      cases h' with
      | cons _ h' => exact ih hl h h'
      | cons_cons _ h' => exact ha (h.subset (List.mem_cons_of_mem _ List.mem_cons_self))
    | cons_cons _ h =>
      cases h' with
      | cons _ h' => exact ha (h'.subset (List.mem_cons_of_mem _ List.mem_cons_self))
      | cons_cons _ h' => exact ha (h.subset List.mem_cons_self)

/-- The order in which the configured files of a directory come last. -/
def configuredLast (files : List Text) : ListingOrder :=
  DirEntry.choose fun path => !files.contains (relPath ⟨path, none⟩)

def configuredFirst (files : List Text) : ListingOrder :=
  DirEntry.choose fun path => files.contains (relPath ⟨path, none⟩)

theorem contains_version {c version : Text} (h : HasVersion files tree c version) :
    files.contains (c ++ '-' :: version) = false :=
  Bool.eq_false_iff.mpr (mt List.contains_iff_mem.mp h.2.1)

/-- A version comes before the file in one order, and behind it in the other. -/
theorem version_before {c version : Text} (hc : c ∈ files) (hfile : IsFileAt tree c)
    (h : HasVersion files tree c version) (hslash : '/' ∉ version) :
    [⟨segments (c ++ '-' :: version), none⟩, ⟨segments c, none⟩].Sublist
      (tree.walk ".svn" (configuredLast files) []) := by
  obtain ⟨d, x, y, hsegments, hsegments'⟩ := segments_version (c := c) hslash
  refine DirEntry.chosen_before (file_mem_visits h.2.2) (file_mem_visits hfile) hsegments'
    hsegments ?_ ?_
  · rw [relPath_segments, contains_version h]
    rfl
  · rw [relPath_segments, List.contains_iff_mem.mpr hc]
    rfl

theorem version_after {c version : Text} (hc : c ∈ files) (hfile : IsFileAt tree c)
    (h : HasVersion files tree c version) (hslash : '/' ∉ version) :
    [⟨segments c, none⟩, ⟨segments (c ++ '-' :: version), none⟩].Sublist
      (tree.walk ".svn" (configuredFirst files) []) := by
  obtain ⟨d, x, y, hsegments, hsegments'⟩ := segments_version (c := c) hslash
  refine DirEntry.chosen_before (file_mem_visits hfile) (file_mem_visits h.2.2) hsegments
    hsegments' ?_ ?_
  · rw [relPath_segments]
    exact List.contains_iff_mem.mpr hc
  · rw [relPath_segments]
    exact contains_version h

/-- What is left of the files where not every run fails. -/
theorem pairwise_of_not_fails (order : ListingOrder) (h : ¬ Fails files tree)
    (hfile : ∀ {c version}, c ∈ files → HasVersion files tree c version → '/' ∉ version →
      IsFileAt tree c → ¬ [⟨segments c, none⟩, ⟨segments (c ++ '-' :: version), none⟩].Sublist
        (tree.walk ".svn" order [])) :
    (tree.walk ".svn" order []).Pairwise fun u v => ¬ Clash files u v := by
  refine List.pairwise_iff_forall_sublist.mpr fun {u v} hsub hclash => ?_
  have hu := hsub.subset List.mem_cons_self
  have hv := hsub.subset (List.mem_cons_of_mem _ List.mem_cons_self)
  obtain ⟨c, hc, version, hversion, rfl, ⟨hat, rfl⟩ | ⟨version', hversion', rfl⟩⟩ :=
    clash_cases hu hv hclash
  · refine hfile hc hversion (fun hslash => h ?_) hat hsub
    exact ⟨c, hc, .inr (.inl ⟨hat, version, hversion, hslash⟩)⟩
  · refine h ⟨c, hc, .inl ⟨version', version, ?_, hversion', hversion⟩⟩
    rintro rfl
    exact not_pair_both (DirEntry.nodup_walk [] tree) hsub hsub

theorem found_of_not_fails (h : ¬ Fails files tree) {c : Text} (hc : c ∈ files) :
    (∃ target, IsLinkAt tree c target) ∨ IsFileAt tree c ∨
      ∃ version, HasVersion files tree c version := by
  by_contra hnone
  obtain ⟨hlink, hother⟩ := not_or.mp hnone
  obtain ⟨hat, hversion⟩ := not_or.mp hother
  exact h ⟨c, hc, .inr (.inr ⟨hat, not_exists.mp hlink, not_exists.mp hversion⟩)⟩

/-- Two runs that succeed install the same files. -/
theorem sameOutcome_of_some (h : ¬ Fails files tree) {config : Text → FileSection}
    {order' : ListingOrder} {p p' : Package} (hp : doPackage config files order tree = some p)
    (hp' : doPackage config files order' tree = some p') :
    SameOutcome (some p) (some p') := by
  obtain ⟨s, hs, -, hfiles, hlinks⟩ := doPackage_spec hp
  obtain ⟨s', hs', -, hfiles', hlinks'⟩ := doPackage_spec hp'
  have hreal : ∀ f ∈ files.dedup, s.filesReal f = s'.filesReal f := by
    intro f hf
    have hf := List.mem_dedup.mp hf
    have hsome : (s.filesReal f).isSome ↔ (s'.filesReal f).isSome :=
      (hs.real_isSome hf).trans (hs'.real_isSome hf).symm
    cases hr : s.filesReal f with
    | none =>
      rw [hr] at hsome
      exact (Option.not_isSome_iff_eq_none.mp fun h => Bool.false_ne_true (hsome.mpr h)).symm
    | some r =>
      rw [hr] at hsome
      obtain ⟨r', hr'⟩ := Option.isSome_iff_exists.mp (hsome.mp rfl)
      rw [hr']
      rcases hs.real_cases hr with ⟨rfl, hat⟩ | ⟨hat, version, rfl, hversion⟩
      · rcases hs'.real_cases hr' with ⟨rfl, -⟩ | ⟨hat', -⟩
        · rfl
        · exact absurd hat hat'
      · rcases hs'.real_cases hr' with ⟨-, hat'⟩ | ⟨-, version', rfl, hversion'⟩
        · exact absurd hat' hat
        · obtain rfl : version = version' := by
            by_contra hne
            exact h ⟨f, hf, .inl ⟨version, version', hne, hversion, hversion'⟩⟩
          rfl
  have hlink : ∀ f, s.links f = s'.links f := fun f =>
    Option.ext fun target => hs.links_iff.trans hs'.links_iff.symm
  have heq : p.files = p'.files := by
    rw [hfiles, hfiles']
    exact List.filterMap_congr fun f hf => by rw [hreal f hf]
  have heq' : p.links = p'.links := by
    rw [hlinks, hlinks']
    exact List.filterMap_congr fun f _ => by rw [hlink f]
  exact ⟨fun x => by rw [heq], fun x => by rw [heq']⟩

end

end GenFirmware

open GenFirmware

/-- When the order of the directory does not matter, and each configured file is installed once and
named. -/
theorem package_order_iff (config : Text → FileSection) (files : List Text) (tree : DirEntry) :
    ((∀ order order', SameOutcome (doPackage config files order tree)
        (doPackage config files order' tree)) ∧
      ∀ order p, doPackage config files order tree = some p → ∀ c ∈ files,
        p.installed.count c = 1 ∧ p.Names c) ↔
      Fails files tree ∨ Plain files tree := by
  constructor
  · rintro ⟨hsame, hright⟩
    by_cases hfails : Fails files tree
    · exact .inl hfails
    · have hlast := pairwise_of_not_fails (configuredLast files) hfails
        fun hc hversion hslash hat => not_pair_both (DirEntry.nodup_walk [] tree)
          (version_before hc hat hversion hslash)
      obtain ⟨p, hp⟩ := Option.isSome_iff_exists.mp ((doPackage_isSome_iff config).mpr
        ⟨hlast, fun c hc => found_of_not_fails hfails hc⟩)
      refine .inr fun c hc => ⟨fun version hversion => ⟨fun hat => ?_, fun target hlink => ?_⟩,
        (named_iff hp hc).mp (hright _ p hp c hc).2⟩
      · have hslash : '/' ∉ version := fun hslash =>
          hfails ⟨c, hc, .inr (.inl ⟨hat, version, hversion, hslash⟩)⟩
        -- the other order
        have hnone : doPackage config files (configuredFirst files) tree = none := by
          rw [← Option.not_isSome_iff_eq_none, doPackage_isSome_iff]
          rintro ⟨hpairs, -⟩
          exact List.pairwise_iff_forall_sublist.mp hpairs (version_after hc hat hversion hslash)
            (clash_file_version hc hversion)
        have hother := hsame (configuredLast files) (configuredFirst files)
        rw [hp, hnone] at hother
        exact hother
      · exact (count_installed hp hc).mp (hright _ p hp c hc).1
          ⟨⟨target, hlink⟩, .inr ⟨version, hversion⟩⟩
  · intro h
    by_cases hfails : Fails files tree
    · refine ⟨fun order order' => ?_, fun order p hp => ?_⟩
      · rw [hfails.doPackage, hfails.doPackage]
        exact trivial
      · rw [hfails.doPackage] at hp
        cases hp
    · have hplain := h.resolve_left hfails
      have hsome : ∀ order, ∃ p, doPackage config files order tree = some p := fun order => by
        refine Option.isSome_iff_exists.mp ((doPackage_isSome_iff config).mpr
          ⟨pairwise_of_not_fails order hfails fun hc hversion _ hat _ => ?_,
            fun c hc => found_of_not_fails hfails hc⟩)
        exact ((hplain _ hc).1 _ hversion).1 hat
      refine ⟨fun order order' => ?_, fun order p hp c hc => ⟨?_, ?_⟩⟩
      · obtain ⟨p, hp⟩ := hsome order
        obtain ⟨p', hp'⟩ := hsome order'
        have hsame := sameOutcome_of_some hfails hp hp'
        rwa [← hp, ← hp'] at hsame
      · refine (count_installed hp hc).mpr ?_
        rintro ⟨⟨target, hlink⟩, hat | ⟨version, hversion⟩⟩
        · exact not_isLinkAt hat hlink
        · exact ((hplain c hc).1 version hversion).2 target hlink
      · exact (named_iff hp hc).mpr (hplain c hc).2

/-! ## A file and a version of it -/

namespace GenFirmware

/-- The directory holds `rt2561.bin` and `rt2561.bin-1.1`. -/
def versionedTree : DirEntry :=
  .dir ["rt2561.bin", "rt2561.bin-1.1"] (by decide) (by decide) fun _ => .file

end GenFirmware

/-- One order is an error, and the other is not. -/
theorem order_decides :
    ¬ SameOutcome
      (doPackage (fun _ => ⟨none, none⟩) ["rt2561.bin"] (configuredFirst ["rt2561.bin"])
        versionedTree)
      (doPackage (fun _ => ⟨none, none⟩) ["rt2561.bin"] (configuredLast ["rt2561.bin"])
        versionedTree) :=
  fun h => h

end DebianKernel.Debian
