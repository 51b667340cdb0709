import DebianKernel.Lib.PathMaze
import DebianKernel.Lib.Split
import Mathlib.Data.List.Chain

/-!
# The boot link of a removed kernel

`image_magic` of the image postrm removes `kimage` if the file that its text leads to does not
exist, or the path that `CanonicalizePath` makes of the text leads to nothing. That path is made
of the text alone: a name and the `..` behind it are struck out, whatever the name is.

Results:
1. `canonicalizePath_eq`: what is left of a path.
2. `imageMagic_right_iff`: when the link is removed rightly.
3. `canonicalizePath_same_iff`: the paths that lead to the same file in every tree.
4. `working_link_removed`: a link that is removed although it leads to the image; below it, a link
   that leads nowhere and is kept.
-/

namespace DebianKernel.Image

open Text FileTree

namespace Postrm

/-! ## The source -/

/-- `split '/', $path`. Empty fields at the end are dropped. -/
def splitPath (path : Text) : List Text := (segments path).rdropWhile (· = [])

/-- One round of the loop. -/
def pushSegment (out : List Text) (seg : Text) : List Text :=
  if seg = ['.'] ∨ seg = [] then out
  else if seg = ['.', '.'] then
    if out ≠ [] ∧ out.getLast? ≠ some ['.', '.'] then out.dropLast else out ++ [seg]
  else out ++ [seg]

/-- `CanonicalizePath`, of one argument. -/
def canonicalizePath (path : Text) : Text :=
  let work := splitPath path
  let isAbsolute := work.head? = some []
  let out := (if isAbsolute then work.tail else work).foldl pushSegment []
  ['/'].intercalate (if isAbsolute then [] :: out else out)

section

variable {ι : Type} (fs : FileTree ι) (cwd : ι)

/-- `readlink`. -/
def readlink (name : Text) : Option Text :=
  match fs.node cwd with
  | .dir entries _ =>
    (entries name).bind fun j =>
      match fs.node j with
      | .link target _ => some target
      | _ => none
  | _ => none

/-- `-f`. -/
def isFile (path : Text) : Bool :=
  match (fs.resolve cwd path).map fs.node with
  | some .file => true
  | _ => false

/-- `-e`. -/
def pathExists (path : Text) : Bool := (fs.resolve cwd path).isSome

/-- `image_magic`: whether the link is removed. -/
def imageMagic (absPath : Text → Option Text) (kimage : Text) : Bool :=
  match readlink fs cwd kimage with
  | some vmlinuzTarget =>
    let realTarget := (absPath vmlinuzTarget).getD []
    if isFile fs cwd realTarget = false then true
    else if pathExists fs cwd (canonicalizePath vmlinuzTarget) = false then true
    else false
  | none => false

/-! ## What is right -/

/-- What `abs_path` returns for a path that leads to something leads to the same. It may give up,
and for a path that leads nowhere it may return anything: for `vmlinuz-1/`, the file. -/
def IsAbsPath (absPath : Text → Option Text) : Prop :=
  ∀ path i, fs.resolve cwd path = some i →
    ∀ realPath, absPath path = some realPath → fs.resolve cwd realPath = some i

/-- A symbolic link that does not lead to a file. -/
def Dangling (kimage : Text) : Prop :=
  ∃ target, readlink fs cwd kimage = some target ∧ isFile fs cwd target = false

end

/-- What is left of the segments of a path when each `..` strikes out the last name before it
that is left: the number of those without such a name, and the names. -/
def reduce : List Text → Nat × List Text
  | [] => (0, [])
  | c :: cs =>
    if isHere c then reduce cs
    else if isUp c then ((reduce cs).1 + 1, (reduce cs).2)
    else if 0 < (reduce cs).1 then ((reduce cs).1 - 1, (reduce cs).2)
    else (0, c :: (reduce cs).2)

def lexical (cs : List Text) : List Text :=
  List.replicate (reduce cs).1 ['.', '.'] ++ (reduce cs).2

/-- Something is left of the path, and leads to something, when the struck out names are left
out. -/
def LexicalExists {ι : Type} (fs : FileTree ι) (cwd : ι) (path : Text) : Prop :=
  lexical (segments path) ≠ [] ∧
    (fs.walk fs.maxLinks (fs.start cwd path) (lexical (segments path))).isSome = true

/-- The texts of links on which the removal is right: if the text leads to a file, `abs_path` does
not give up and the names that are left lead to something; if it leads nowhere, `abs_path` does not
return a file, or the names that are left lead nowhere either. -/
structure Judged {ι : Type} (fs : FileTree ι) (cwd : ι) (absPath : Text → Option Text)
    (target : Text) : Prop where
  found : isFile fs cwd target = true →
    (absPath target).isSome = true ∧ LexicalExists fs cwd target
  lost : fs.resolve cwd target = none → isFile fs cwd ((absPath target).getD []) = true →
    ¬ LexicalExists fs cwd target

/-- What `CanonicalizePath` makes of the path leads to the same file, in every tree. -/
def SameFile (path : Text) : Prop :=
  ∀ {ι : Type} (fs : FileTree ι) (cwd : ι), fs.IsDir cwd →
    fs.resolve cwd (canonicalizePath path) = fs.resolve cwd path

/-- No `..` is behind a name, and the path ends in a name or in `..`, where slashes may follow. -/
structure PlainPath (path : Text) : Prop where
  moves : moves (segments path) ≠ []
  ups : (FileTree.moves (segments path)).IsChain fun a b => isUp b = true → isUp a = true
  last : ∀ c ∈ (segments path).getLast?, isHere c = true →
    (FileTree.moves (segments path)).getLast? = some ['.', '.']

/-! ## The loop -/

theorem isUp_iff {c : Text} : isUp c = true ↔ c = ['.', '.'] := decide_eq_true_iff

theorem pushSegment_here {seg : Text} (h : isHere seg = true) (out : List Text) :
    pushSegment out seg = out :=
  if_pos (or_comm.mp (of_decide_eq_true h))

theorem pushSegment_name {seg : Text} (h : IsName seg) (out : List Text) :
    pushSegment out seg = out ++ [seg] := by
  obtain ⟨h1, h2, h3⟩ := isName_iff.mp h
  rw [pushSegment, if_neg (by simp [h1, h2]), if_neg h3]

theorem pushSegment_up_name {seg : Text} (h : IsName seg) (out : List Text) :
    pushSegment (out ++ [seg]) ['.', '.'] = out := by
  obtain ⟨-, -, h3⟩ := isName_iff.mp h
  rw [pushSegment, if_neg (by decide), if_pos rfl, if_pos ⟨by simp, by simpa using h3⟩,
    List.dropLast_concat]

theorem pushSegment_up_ups (k : Nat) :
    pushSegment (List.replicate k ['.', '.']) ['.', '.'] = List.replicate (k + 1) ['.', '.'] := by
  have hno : ¬ (List.replicate k ['.', '.'] ≠ [] ∧
      (List.replicate k ['.', '.']).getLast? ≠ some ['.', '.']) := by
    rintro ⟨hne, hlast⟩
    cases k with
    | zero => exact hne rfl
    | succ k => exact hlast (by simp [List.getLast?_replicate])
  rw [pushSegment, if_neg (by decide), if_pos rfl, if_neg hno, List.replicate_succ']

/-- The names that are left are struck out from the last one on. -/
theorem foldl_pushSegment (cs : List Text) (k : Nat) {out : List Text}
    (hout : ∀ c ∈ out, IsName c) :
    cs.foldl pushSegment (List.replicate k ['.', '.'] ++ out) =
      List.replicate (k + ((reduce cs).1 - out.length)) ['.', '.'] ++
        out.take (out.length - (reduce cs).1) ++ (reduce cs).2 := by
  induction cs generalizing k out with
  | nil => simp [reduce]
  | cons c cs ih =>
    rw [List.foldl_cons, reduce]
    cases hhere : isHere c with
    | true => rw [if_pos rfl, pushSegment_here hhere, ih k hout]
    | false =>
      rw [if_neg Bool.false_ne_true]
      cases hup : isUp c with
      | true =>
        obtain rfl := isUp_iff.mp hup
        rw [if_pos rfl]
        rcases List.eq_nil_or_concat out with rfl | ⟨out, a, rfl⟩
        · rw [List.append_nil, pushSegment_up_ups, ← List.append_nil (List.replicate (k + 1) _),
            ih (k + 1) fun _ h => absurd h List.not_mem_nil]
          simp only [List.length_nil, Nat.sub_zero, List.take_nil, List.append_nil]
          rw [Nat.add_assoc, Nat.add_comm 1]
        · rw [List.concat_eq_append] at hout ⊢
          have ha : IsName a := hout a List.mem_concat_self
          rw [← List.append_assoc, pushSegment_up_name ha,
            ih k fun c hc => hout c (List.mem_append_left _ hc), List.length_append,
            List.length_singleton, Nat.add_sub_add_right, Nat.add_sub_add_right,
            List.take_append_of_le_length (Nat.sub_le _ _)]
      | false =>
        have hc : IsName c := ⟨hhere, hup⟩
        have hout' : ∀ b ∈ out ++ [c], IsName b := by
          intro b hb
          rcases List.mem_append.mp hb with hb | hb
          · exact hout b hb
          · rw [List.mem_singleton.mp hb]
            exact hc
        rw [if_neg Bool.false_ne_true, pushSegment_name hc, List.append_assoc, ih k hout',
          List.length_append, List.length_singleton]
        split
        · next hpos =>
          obtain ⟨u, hu⟩ := Nat.exists_eq_add_of_lt hpos
          rw [Nat.zero_add] at hu
          simp only [hu, Nat.add_sub_cancel, Nat.add_sub_add_right]
          rw [List.take_append_of_le_length (Nat.sub_le _ _)]
        · next hpos =>
          have hu : (reduce cs).1 = 0 := Nat.eq_zero_of_not_pos hpos
          rw [hu, Nat.sub_zero, Nat.zero_sub, Nat.zero_sub, Nat.sub_zero,
            List.take_of_length_le (by rw [List.length_append]; exact le_rfl), List.take_length]
          simp

/-- The loop leaves what is not struck out. -/
theorem foldl_pushSegment_nil (cs : List Text) : cs.foldl pushSegment [] = lexical cs := by
  have hnil : ∀ c ∈ ([] : List Text), IsName c := fun _ h => absurd h List.not_mem_nil
  have h := foldl_pushSegment cs 0 hnil
  simpa [lexical] using h

theorem reduce_moves (cs : List Text) : reduce (moves cs) = reduce cs := by
  induction cs with
  | nil => rfl
  | cons c cs ih =>
    cases hc : isHere c with
    | true =>
      rw [moves, List.filter_cons_of_neg (by rw [hc]; decide), reduce, if_pos hc]
      exact ih
    | false =>
      have hcons : moves (c :: cs) = c :: moves cs := List.filter_cons_of_pos (by rw [hc]; rfl)
      rw [hcons, reduce, reduce, ih]

theorem lexical_moves (cs : List Text) : lexical (moves cs) = lexical cs := by
  rw [lexical, lexical, reduce_moves]

theorem of_mem_reduce {cs : List Text} {c : Text} (h : c ∈ (reduce cs).2) : c ∈ cs ∧ IsName c := by
  induction cs with
  | nil => cases h
  | cons b cs ih =>
    have hrest : c ∈ (reduce cs).2 → c ∈ b :: cs ∧ IsName c := fun h =>
      ⟨List.mem_cons_of_mem b (ih h).1, (ih h).2⟩
    rw [reduce] at h
    split at h
    · exact hrest h
    · next hhere =>
      split at h
      · exact hrest h
      · next hup =>
        split at h
        · exact hrest h
        · rcases List.mem_cons.mp h with rfl | h
          · exact ⟨List.mem_cons_self, Bool.eq_false_iff.mpr hhere, Bool.eq_false_iff.mpr hup⟩
          · exact hrest h

/-- What is left is not struck out later. -/
theorem reduce_lexical (k : Nat) {out : List Text} (h : ∀ c ∈ out, IsName c) :
    reduce (List.replicate k ['.', '.'] ++ out) = (k, out) := by
  induction k with
  | zero =>
    induction out with
    | nil => rfl
    | cons c out ih =>
      obtain ⟨hc, hout⟩ := List.forall_mem_cons.mp h
      have hrest : reduce out = (0, out) := ih hout
      rw [List.replicate_zero, List.nil_append, reduce, hrest,
        if_neg (by rw [hc.1]; exact Bool.false_ne_true),
        if_neg (by rw [hc.2]; exact Bool.false_ne_true)]
      rfl
  | succ k ih =>
    rw [List.replicate_succ, List.cons_append, reduce, ih, if_neg (by decide)]
    rfl

theorem lexical_lexical (cs : List Text) : lexical (lexical cs) = lexical cs := by
  have hnames : ∀ c ∈ (reduce cs).2, IsName c := fun _ hc => (of_mem_reduce hc).2
  rw [lexical, lexical, reduce_lexical (reduce cs).1 hnames]

/-! ## The path -/

theorem slash_not_mem_segments {path c : Text} (h : c ∈ segments path) : '/' ∉ c :=
  not_mem_of_mem_splitOn h

theorem mem_lexical {cs : List Text} {c : Text} (h : c ∈ lexical cs) :
    c = ['.', '.'] ∨ c ∈ cs ∧ IsName c := by
  rcases List.mem_append.mp h with h | h
  · exact .inl (List.eq_of_mem_replicate h)
  · exact .inr (of_mem_reduce h)

theorem lexical_spec {path c : Text} (h : c ∈ lexical (segments path)) : c ≠ [] ∧ '/' ∉ c := by
  rcases mem_lexical h with rfl | ⟨hmem, hc⟩
  · exact ⟨List.cons_ne_nil _ _, by decide⟩
  · exact ⟨(isName_iff.mp hc).1, slash_not_mem_segments hmem⟩

/-- Only empty segments are left out at the end. -/
theorem moves_splitPath (path : Text) : moves (splitPath path) = moves (segments path) := by
  have hsplit := List.rdropWhile_append_rtakeWhile (p := fun c : Text => decide (c = []))
    (l := segments path)
  have hempty : moves ((segments path).rtakeWhile (· = [])) = [] := by
    refine List.filter_eq_nil_iff.mpr fun c hc => ?_
    have hnil := List.mem_rtakeWhile_imp (p := fun c : Text => decide (c = [])) hc
    obtain rfl := of_decide_eq_true hnil
    decide
  calc
    moves (splitPath path)
      = moves (splitPath path) ++ moves ((segments path).rtakeWhile (· = [])) := by
        rw [hempty, List.append_nil]
    _ = moves (splitPath path ++ (segments path).rtakeWhile (· = [])) :=
        (List.filter_append _ _).symm
    _ = moves (segments path) := congrArg moves hsplit

theorem segments_head (path : Text) :
    (segments path).head? = some [] ↔ path = [] ∨ path.head? = some '/' := by
  cases path with
  | nil => exact iff_of_true rfl (.inl rfl)
  | cons c t =>
    obtain ⟨x, xs, hxs⟩ := List.exists_cons_of_ne_nil (List.splitOnP_ne_nil (· == '/') t)
    rw [segments, List.splitOn, List.splitOnP_cons_eq_if_modifyHead, hxs]
    by_cases hc : c = '/'
    · simp [hc]
    · simp [hc]

/-- The text that is made of what is left. -/
def pathText (absolute : Bool) (out : List Text) : Text :=
  ['/'].intercalate (if absolute then [] :: out else out)

/-- What is left of a path: it starts at the root if the path does. -/
theorem canonicalizePath_eq (path : Text) :
    canonicalizePath path = pathText (path.head? = some '/') (lexical (segments path)) := by
  have hlexical : lexical (splitPath path) = lexical (segments path) := by
    rw [← lexical_moves, moves_splitPath, lexical_moves]
  rw [canonicalizePath, ← hlexical]
  cases hwork : splitPath path with
  | nil =>
    cases decide (path.head? = some '/') <;> rfl
  | cons c work =>
    have hprefix : c :: work <+: segments path := hwork ▸ List.rdropWhile_prefix _ _
    have hhead : (segments path).head? = some c := by
      obtain ⟨rest, hrest⟩ := hprefix
      rw [← hrest]
      rfl
    have hpath : path ≠ [] := by
      rintro rfl
      cases hwork
    have habs : c = [] ↔ path.head? = some '/' := by
      rw [← or_iff_right (a := path = []) (b := path.head? = some '/') hpath, ← segments_head,
        hhead, Option.some_inj]
    by_cases hc : c = []
    · have hskip : lexical (c :: work) = lexical work := by
        rw [lexical, reduce, if_pos (by rw [hc]; rfl), lexical]
      rw [hskip, pathText, ← foldl_pushSegment_nil work]
      simp [hc, habs.mp hc]
    · rw [pathText, ← foldl_pushSegment_nil (c :: work)]
      simp [hc, mt habs.mpr hc]

theorem pathText_nil (absolute : Bool) : pathText absolute [] = [] := by
  cases absolute <;> rfl

theorem pathText_head {out : List Text} (hne : out ≠ []) (hout : ∀ c ∈ out, c ≠ [] ∧ '/' ∉ c)
    (absolute : Bool) : (pathText absolute out).head? = some '/' ↔ absolute = true := by
  obtain ⟨c, cs, rfl⟩ := List.exists_cons_of_ne_nil hne
  cases absolute with
  | true =>
    refine iff_of_true ?_ rfl
    rw [pathText, if_pos rfl, List.intercalate_cons_cons]
    rfl
  | false =>
    obtain ⟨hc, hslash⟩ := hout c List.mem_cons_self
    obtain ⟨d, t, rfl⟩ := List.exists_cons_of_ne_nil hc
    refine iff_of_false (fun h => hslash ?_) Bool.false_ne_true
    have hhead : (pathText false ((d :: t) :: cs)).head? = some d := by
      cases cs with
      | nil => rfl
      | cons b cs => rfl
    rw [hhead] at h
    rw [Option.some.inj h]
    exact List.mem_cons_self

theorem segments_pathText {out : List Text} (hne : out ≠ []) (hout : ∀ c ∈ out, c ≠ [] ∧ '/' ∉ c)
    (absolute : Bool) :
    segments (pathText absolute out) = if absolute then [] :: out else out := by
  refine List.splitOn_intercalate '/' ?_ ?_
  · intro c hc
    cases absolute with
    | true =>
      rcases List.mem_cons.mp hc with rfl | hc
      · exact List.not_mem_nil
      · exact (hout c hc).2
    | false => exact (hout c hc).2
  · cases absolute with
    | true => exact List.cons_ne_nil _ _
    | false => exact hne

theorem canonicalizePath_idempotent (path : Text) :
    canonicalizePath (canonicalizePath path) = canonicalizePath path := by
  rw [canonicalizePath_eq path]
  generalize decide (path.head? = some '/') = absolute
  rcases eq_or_ne (lexical (segments path)) [] with hnil | hne
  · rw [hnil, pathText_nil]
    rfl
  · have hout : ∀ c ∈ lexical (segments path), c ≠ [] ∧ '/' ∉ c := fun c hc => lexical_spec hc
    have hlexical : lexical (if absolute then [] :: lexical (segments path)
        else lexical (segments path)) = lexical (segments path) := by
      cases absolute with
      | true => exact lexical_lexical (segments path)
      | false => exact lexical_lexical (segments path)
    rw [canonicalizePath_eq, segments_pathText hne hout, hlexical]
    congr 1
    exact Bool.eq_iff_iff.mpr (decide_eq_true_iff.trans (pathText_head hne hout absolute))

/-- Where what is left of a path leads to. -/
theorem resolve_canonicalizePath {ι : Type} (fs : FileTree ι) (cwd : ι) (path : Text) :
    fs.resolve cwd (canonicalizePath path) =
      if lexical (segments path) = [] then none
      else fs.walk fs.maxLinks (fs.start cwd path) (lexical (segments path)) := by
  rw [canonicalizePath_eq]
  split
  · next hnil =>
    rw [hnil, pathText_nil]
    rfl
  · next hne =>
    have hout : ∀ c ∈ lexical (segments path), c ≠ [] ∧ '/' ∉ c := fun c hc => lexical_spec hc
    have hhead := pathText_head hne hout (path.head? = some '/')
    have hsegments := segments_pathText hne hout (path.head? = some '/')
    have hnil : pathText (path.head? = some '/') (lexical (segments path)) ≠ [] := by
      intro hnil
      rw [hnil] at hsegments
      by_cases habs : path.head? = some '/'
      · rw [if_pos (decide_eq_true habs)] at hsegments
        exact hne (List.cons.inj hsegments).2.symm
      · rw [if_neg (by simpa using habs)] at hsegments
        have hmem : ([] : Text) ∈ lexical (segments path) := by
          rw [← hsegments]
          exact List.mem_cons_self
        exact (hout [] hmem).1 rfl
    rw [resolve, if_neg hnil, hsegments]
    by_cases habs : path.head? = some '/'
    · rw [start, start, if_pos (hhead.mpr (decide_eq_true habs)), if_pos habs,
        if_pos (decide_eq_true habs)]
      obtain ⟨entries, hroot⟩ := fs.root_dir
      exact walk_here ⟨entries, fs.root, hroot⟩ rfl _ _
    · rw [start, start, if_neg (mt hhead.mp (by simpa using habs)), if_neg habs,
        if_neg (by simpa using habs)]

/-! ## The removal -/

theorem isFile_congr {ι : Type} {fs : FileTree ι} {cwd : ι} {path path' : Text}
    (h : fs.resolve cwd path = fs.resolve cwd path') :
    isFile fs cwd path = isFile fs cwd path' := by
  rw [isFile, isFile, h]

theorem isFile_nil {ι : Type} (fs : FileTree ι) (cwd : ι) : isFile fs cwd [] = false := rfl

theorem isFile_of_resolve_none {ι : Type} {fs : FileTree ι} {cwd : ι} {path : Text}
    (h : fs.resolve cwd path = none) : isFile fs cwd path = false := by
  rw [isFile, h]
  rfl

/-! ## The same file in every tree -/

/-- Segments that move are ups before names, or a `..` is behind a name. -/
theorem ups_or_upBehind {cs : List Text} (h : ∀ c ∈ cs, isHere c = false) :
    (∃ k names, cs = List.replicate k ['.', '.'] ++ names ∧ ∀ c ∈ names, IsName c) ∨
      ∃ k names c rest, cs = List.replicate k ['.', '.'] ++ (names ++ c :: ['.', '.'] :: rest) ∧
        (∀ c ∈ names, IsName c) ∧ IsName c := by
  induction cs with
  | nil => exact .inl ⟨0, [], rfl, fun _ h => absurd h List.not_mem_nil⟩
  | cons b cs ih =>
    obtain ⟨hb, hcs⟩ := List.forall_mem_cons.mp h
    cases hup : isUp b with
    | true =>
      obtain rfl := isUp_iff.mp hup
      rcases ih hcs with ⟨k, names, rfl, hnames⟩ | ⟨k, names, c, rest, rfl, hnames, hc⟩
      · exact .inl ⟨k + 1, names, rfl, hnames⟩
      · exact .inr ⟨k + 1, names, c, rest, rfl, hnames, hc⟩
    | false =>
      have hname : IsName b := ⟨hb, hup⟩
      rcases ih hcs with ⟨k, names, rfl, hnames⟩ | ⟨k, names, c, rest, rfl, hnames, hc⟩
      · cases k with
        | zero => exact .inl ⟨0, b :: names, rfl, List.forall_mem_cons.mpr ⟨hname, hnames⟩⟩
        | succ k =>
          exact .inr ⟨0, [], b, List.replicate k ['.', '.'] ++ names, rfl,
            fun _ h => absurd h List.not_mem_nil, hname⟩
      · cases k with
        | zero =>
          exact .inr ⟨0, b :: names, c, rest, rfl, List.forall_mem_cons.mpr ⟨hname, hnames⟩, hc⟩
        | succ k => exact .inr ⟨0, [], b, _, rfl, fun _ h => absurd h List.not_mem_nil, hname⟩

theorem isHere_of_mem_moves {cs : List Text} {c : Text} (h : c ∈ moves cs) : isHere c = false := by
  simpa using (List.mem_filter.mp h).2

/-- Nothing is struck out where no `..` is behind a name. -/
theorem lexical_of_ups {k : Nat} {names : List Text} (h : ∀ c ∈ names, IsName c) :
    lexical (List.replicate k ['.', '.'] ++ names) = List.replicate k ['.', '.'] ++ names := by
  rw [lexical, reduce_lexical k h]

theorem not_isChain_upBehind {pre rest : List Text} {c : Text} (hc : IsName c) :
    ¬ (pre ++ c :: ['.', '.'] :: rest).IsChain fun a b => isUp b = true → isUp a = true := by
  intro h
  have hup := (List.isChain_append_cons_cons.mp h).2.1 rfl
  rw [hc.2] at hup
  cases hup

theorem isChain_ups {k : Nat} {names : List Text} (h : ∀ c ∈ names, IsName c) :
    (List.replicate k ['.', '.'] ++ names).IsChain fun a b => isUp b = true → isUp a = true := by
  have hup : ∀ a ∈ List.replicate k ['.', '.'], isUp a = true := fun a ha =>
    isUp_iff.mpr (List.eq_of_mem_replicate ha)
  have hnames : names.Pairwise fun a b => isUp b = true → isUp a = true :=
    List.pairwise_of_forall_mem_list fun a _ b hb hup => by
      rw [(h b hb).2] at hup
      cases hup
  refine (List.pairwise_append.mpr ⟨?_, hnames, fun a ha b _ _ => hup a ha⟩).isChain
  exact List.pairwise_of_forall_mem_list fun a ha b _ _ => hup a ha

/-- The last segment that moves. -/
theorem exists_last_move {cs : List Text} (h : moves cs ≠ []) :
    ∃ A c T, cs = A ++ c :: T ∧ isHere c = false ∧ (∀ t ∈ T, isHere t = true) ∧
      moves cs = moves A ++ [c] := by
  induction cs using List.reverseRecOn with
  | nil => exact absurd rfl h
  | append_singleton cs b ih =>
    rw [moves, List.filter_append] at h ⊢
    cases hb : isHere b with
    | true =>
      have hnil : [b].filter (!isHere ·) = [] := List.filter_cons_of_neg (by rw [hb]; decide)
      rw [hnil, List.append_nil] at h ⊢
      obtain ⟨A, c, T, rfl, hc, hT, hmoves⟩ := ih h
      refine ⟨A, c, T ++ [b], by simp, hc, ?_, hmoves⟩
      intro t ht
      rcases List.mem_append.mp ht with ht | ht
      · exact hT t ht
      · rw [List.mem_singleton.mp ht]
        exact hb
    | false =>
      refine ⟨cs, b, [], rfl, hb, fun _ h => absurd h List.not_mem_nil, ?_⟩
      have hone : [b].filter (!isHere ·) = [b] := List.filter_cons_of_pos (by rw [hb]; rfl)
      rw [hone]
      rfl

/-- A path that is plain leads to the same file without the segments that stay. -/
theorem PlainPath.walk_moves {path : Text} (h : PlainPath path) {ι : Type} (fs : FileTree ι)
    (n : Nat) (d : ι) :
    fs.walk n d (FileTree.moves (segments path)) = fs.walk n d (segments path) := by
  obtain ⟨A, c, T, hsplit, hc, hT, hmoves⟩ := exists_last_move h.moves
  have hlastA : ∀ b ∈ (A ++ [c]).getLast?, isHere b = false := fun b hb => by
    rw [List.getLast?_concat] at hb
    rw [← Option.some.inj hb]
    exact hc
  have hA : FileTree.moves (A ++ [c]) = FileTree.moves A ++ [c] := by
    rw [FileTree.moves, List.filter_append, List.filter_cons_of_pos (by rw [hc]; rfl)]
    rfl
  have hwalk : fs.walk n d (A ++ [c]) = fs.walk n d (segments path) := by
    rcases List.eq_nil_or_concat T with rfl | ⟨T, t, rfl⟩
    · rw [hsplit]
    · have hlast : (segments path).getLast? = some t := by
        rw [hsplit, List.concat_eq_append, ← List.cons_append, ← List.append_assoc,
          List.getLast?_concat]
      have hup := h.last t hlast (hT t (by simp))
      rw [hmoves, List.getLast?_concat, Option.some_inj] at hup
      rw [hsplit, hup]
      exact (walk_up_heres n d A hT).symm
  rw [hmoves, ← hwalk, ← hA]
  exact FileTree.walk_moves hlastA n d []

/-- What a plain path leads to is what is left of it does. -/
theorem PlainPath.resolve {path : Text} (h : PlainPath path) {ι : Type} (fs : FileTree ι)
    (cwd : ι) : fs.resolve cwd (canonicalizePath path) = fs.resolve cwd path := by
  have hpath : path ≠ [] := by
    rintro rfl
    exact h.moves rfl
  have hlexical : lexical (segments path) = FileTree.moves (segments path) := by
    rw [← lexical_moves]
    rcases ups_or_upBehind fun c hc => isHere_of_mem_moves hc with
      ⟨k, names, heq, hnames⟩ | ⟨k, names, c, rest, heq, -, hc⟩
    · rw [heq, lexical_of_ups hnames]
    · have hups := h.ups
      rw [heq, ← List.append_assoc] at hups
      exact absurd hups (not_isChain_upBehind hc)
  rw [resolve_canonicalizePath, hlexical, if_neg h.moves, FileTree.resolve, if_neg hpath,
    h.walk_moves]

/-- Of a path with segments to go, something that moves has to be there. -/
theorem SameFile.moves {path : Text} (h : SameFile path) (hpath : path ≠ []) :
    FileTree.moves (segments path) ≠ [] := by
  intro hnil
  obtain ⟨w, -, -, hw⟩ := exists_fresh (segments path)
  have hlexical : lexical (segments path) = [] := by
    rw [← lexical_moves, hnil]
    rfl
  have hwalk := walk_maze_append (a := []) (o := none) hw [] 1 []
  rw [List.append_nil] at hwalk
  have hsame := h (maze [] w none) (.dir []) (maze_isDir [])
  rw [resolve_canonicalizePath, if_pos hlexical, FileTree.resolve, if_neg hpath,
    maze_start] at hsame
  exact absurd (hsame.trans hwalk) (by simp)

/-- A name and the `..` behind it are not the same as nothing if the name is a link. -/
theorem SameFile.ups {path : Text} (h : SameFile path) (hpath : path ≠ []) :
    ∃ k names, FileTree.moves (segments path) = List.replicate k ['.', '.'] ++ names ∧
      ∀ c ∈ names, IsName c := by
  rcases ups_or_upBehind fun c hc => isHere_of_mem_moves hc with
    hups | ⟨k, names, x, rest, heq, hnames, hx⟩
  · exact hups
  · exfalso
    obtain ⟨w, hw, hslash, hfresh⟩ := exists_fresh (segments path)
    have hmem : ∀ c ∈ names ++ x :: ['.', '.'] :: rest, c ≠ w := by
      rintro c hc rfl
      have hmoves : c ∈ FileTree.moves (segments path) := by
        rw [heq]
        exact List.mem_append_right _ hc
      exact hfresh (List.mem_filter.mp hmoves).1
    have hxw : x ≠ w := hmem x (by simp)
    let r := rest.length + 1
    let fs := maze names.reverse x (downLink w r)
    -- behind the link, `..` leads to a place below the root that only the link leads to
    have hwalk : ∃ l, fs.walk 1 (.dir []) (FileTree.moves (segments path)) = some (.dir l) ∧
        0 < l.count w ∧ l.count w ≤ r := by
      have hcount : rest.length < (List.replicate r w).count w := by
        rw [List.count_replicate_self]
        exact Nat.lt_succ_self _
      have hup : w ∉ names.reverse := fun hw =>
        hmem w (List.mem_append_left _ (List.mem_reverse.mp hw)) rfl
      have hrest : w ∉ rest := fun hw => hmem w (by simp [hw]) rfl
      obtain ⟨l, hl, hpos, hle⟩ := walk_maze_deep (x := x) (o := downLink w r) hup hrest hcount 0
      rw [List.count_replicate_self] at hle
      refine ⟨l, ?_, hpos, hle⟩
      rw [heq, walk_maze_ups, walk_maze_names hnames (by simp), List.append_nil,
        walk_maze_link hw hslash hx hxw, walk_up rfl]
      exact hl
    obtain ⟨l, hl, hpos, hle⟩ := hwalk
    have hpathwalk := (walk_moves_isDir (maze_isDir l) 1 (.dir []) []).mp hl
    have hsame := h fs (.dir []) (maze_isDir [])
    rw [resolve_canonicalizePath, FileTree.resolve, if_neg hpath, maze_start] at hsame
    split at hsame
    · exact absurd (hsame.trans hpathwalk) (by simp)
    · have hleft : ∀ c ∈ (reduce (segments path)).2, IsName c ∧ c ≠ w := fun c hc =>
        ⟨(of_mem_reduce hc).2, fun hcw => hfresh (hcw ▸ (of_mem_reduce hc).1)⟩
      have hnames' := hsame.trans hpathwalk
      rw [lexical, walk_maze_ups] at hnames'
      obtain ⟨l', hl', hcount⟩ := count_walk_names hw hslash hx hxw hleft (.inl rfl) hnames'
      obtain rfl := Spot.dir.inj hl'
      omega

/-- A slash or a dot behind a name is not nothing if the name is a file. -/
theorem SameFile.last {path : Text} (h : SameFile path) (hpath : path ≠ []) {k : Nat}
    {names : List Text}
    (heq : FileTree.moves (segments path) = List.replicate k ['.', '.'] ++ names)
    (hnames : ∀ c ∈ names, IsName c) {c : Text} (hc : (segments path).getLast? = some c)
    (hhere : isHere c = true) : (FileTree.moves (segments path)).getLast? = some ['.', '.'] := by
  rcases List.eq_nil_or_concat names with rfl | ⟨names, x, rfl⟩
  · cases k with
    | zero => exact absurd heq (h.moves hpath)
    | succ k => rw [heq, List.append_nil, List.getLast?_replicate, if_neg (Nat.succ_ne_zero k)]
  · exfalso
    rw [List.concat_eq_append] at hnames heq
    have hlexical : lexical (segments path) = List.replicate k ['.', '.'] ++ (names ++ [x]) := by
      rw [← lexical_moves, heq, lexical_of_ups hnames]
    have hne : List.replicate k ['.', '.'] ++ (names ++ [x]) ≠ [] := by simp
    let fs := maze names.reverse x none
    have hsame := h fs (.dir []) (maze_isDir [])
    rw [resolve_canonicalizePath, hlexical, if_neg hne, FileTree.resolve, if_neg hpath,
      maze_start, walk_maze_ups] at hsame
    have hfile := hsame.symm.trans (walk_maze_file
      (fun c hc => hnames c (List.mem_append_left _ hc)) (hnames x (by simp)) 1)
    have hname : ¬ IsName c := fun hname => by
      rw [hname.1] at hhere
      cases hhere
    obtain ⟨entries, p, hdir⟩ := isDir_of_getLast? hc hname hfile
    cases hdir

/-- The paths that lead to the same file in every tree. -/
theorem canonicalizePath_same_iff (path : Text) : SameFile path ↔ path = [] ∨ PlainPath path := by
  constructor
  · intro h
    rcases eq_or_ne path [] with hpath | hpath
    · exact .inl hpath
    · obtain ⟨k, names, heq, hnames⟩ := h.ups hpath
      refine .inr ⟨h.moves hpath, ?_, fun c hc hhere => h.last hpath heq hnames hc hhere⟩
      rw [heq]
      exact isChain_ups hnames
  · rintro (rfl | h)
    · exact fun _ _ _ => rfl
    · exact fun fs cwd _ => h.resolve fs cwd

/-! ## The verdict -/

theorem pathExists_canonicalizePath {ι : Type} (fs : FileTree ι) (cwd : ι) (path : Text) :
    pathExists fs cwd (canonicalizePath path) = true ↔ LexicalExists fs cwd path := by
  rw [pathExists, resolve_canonicalizePath, LexicalExists]
  split
  · next hnil => exact iff_of_false Bool.false_ne_true fun h => h.1 hnil
  · next hne => exact (and_iff_right hne).symm

/-- The file that a path leads to is found unless `abs_path` gives up. -/
theorem IsAbsPath.isFile_iff {ι : Type} {fs : FileTree ι} {cwd : ι} {absPath : Text → Option Text}
    (habs : IsAbsPath fs cwd absPath) {path : Text} {i : ι} (hi : fs.resolve cwd path = some i) :
    isFile fs cwd ((absPath path).getD []) = true ↔
      (absPath path).isSome = true ∧ isFile fs cwd path = true := by
  cases hreal : absPath path with
  | none => exact iff_of_false (by rw [Option.getD_none, isFile_nil]; decide) (by simp)
  | some realPath =>
    have hsame : isFile fs cwd realPath = isFile fs cwd path :=
      isFile_congr ((habs path i hi realPath hreal).trans hi.symm)
    rw [Option.getD_some, hsame]
    exact (and_iff_right rfl).symm

/-- The two tests are right on a text exactly if it is judged. -/
theorem judged_iff {ι : Type} {fs : FileTree ι} {cwd : ι} {absPath : Text → Option Text}
    (habs : IsAbsPath fs cwd absPath) (target : Text) :
    (isFile fs cwd ((absPath target).getD []) = true ∧ LexicalExists fs cwd target ↔
      isFile fs cwd target = true) ↔ Judged fs cwd absPath target := by
  cases hresolve : fs.resolve cwd target with
  | none =>
    have hfile : isFile fs cwd target = false := isFile_of_resolve_none hresolve
    constructor
    · intro h
      refine ⟨fun hfile' => ?_, fun _ hreal hlexical => ?_⟩
      · rw [hfile] at hfile'
        cases hfile'
      · rw [h.mp ⟨hreal, hlexical⟩] at hfile
        cases hfile
    · intro h
      refine iff_of_false (fun hboth => h.lost hresolve hboth.1 hboth.2) ?_
      rw [hfile]
      decide
  | some i =>
    rw [habs.isFile_iff hresolve]
    constructor
    · intro h
      refine ⟨fun hfile => ?_, fun hnone => ?_⟩
      · obtain ⟨⟨hsome, -⟩, hlexical⟩ := h.mpr hfile
        exact ⟨hsome, hlexical⟩
      · rw [hresolve] at hnone
        cases hnone
    · intro h
      refine ⟨fun hboth => hboth.1.2, fun hfile => ?_⟩
      obtain ⟨hsome, hlexical⟩ := h.found hfile
      exact ⟨⟨hsome, hfile⟩, hlexical⟩

end Postrm

open Postrm

/-- What is done with a link is right exactly if its text is judged. -/
theorem imageMagic_right_iff {ι : Type} (fs : FileTree ι) (cwd : ι) {absPath : Text → Option Text}
    (habs : IsAbsPath fs cwd absPath) (kimage : Text) :
    (Postrm.imageMagic fs cwd absPath kimage = true ↔ Dangling fs cwd kimage) ↔
      ∀ target, readlink fs cwd kimage = some target → Judged fs cwd absPath target := by
  rw [Dangling, Postrm.imageMagic]
  cases hlink : readlink fs cwd kimage with
  | none => exact iff_of_true (iff_of_false Bool.false_ne_true (by simp)) (by simp)
  | some target =>
    have hdangling : (∃ t, some target = some t ∧ isFile fs cwd t = false) ↔
        ¬ isFile fs cwd target = true :=
      ⟨fun ⟨t, ht, h⟩ => by rw [Option.some.inj ht, h]; exact Bool.false_ne_true,
        fun h => ⟨target, rfl, Bool.eq_false_iff.mpr h⟩⟩
    have hremoved : (if isFile fs cwd ((absPath target).getD []) = false then true
        else if pathExists fs cwd (canonicalizePath target) = false then true else false) = true ↔
        ¬ (isFile fs cwd ((absPath target).getD []) = true ∧ LexicalExists fs cwd target) := by
      rw [← pathExists_canonicalizePath]
      cases isFile fs cwd ((absPath target).getD []) <;>
        cases pathExists fs cwd (canonicalizePath target) <;> decide
    have hall : (∀ t, some target = some t → Judged fs cwd absPath t) ↔
        Judged fs cwd absPath target :=
      ⟨fun h => h target rfl, fun h t ht => by rwa [← Option.some.inj ht]⟩
    rw [hall, ← judged_iff habs, hdangling]
    exact (iff_congr hremoved Iff.rfl).trans not_iff_not

/-- What the postrm does with a boot link, and with a path. -/
theorem postrm_link_iff {ι : Type} (fs : FileTree ι) (cwd : ι) {absPath : Text → Option Text}
    (habs : IsAbsPath fs cwd absPath) (kimage path : Text) :
    ((Postrm.imageMagic fs cwd absPath kimage = true ↔ Dangling fs cwd kimage) ↔
      ∀ target, readlink fs cwd kimage = some target → Judged fs cwd absPath target) ∧
    (SameFile path ↔ path = [] ∨ PlainPath path) ∧
    canonicalizePath (canonicalizePath path) = canonicalizePath path :=
  ⟨imageMagic_right_iff fs cwd habs kimage, canonicalizePath_same_iff path,
    canonicalizePath_idempotent path⟩

/-! ## A boot directory that is a link -/

namespace BootLink

inductive Inode
  | root | mnt | boot | image | bootLink | upLink | slashLink | plainLink

def mntName : Text := "mnt".toList
def bootName : Text := "boot".toList
def imageName : Text := "vmlinuz-2.6.32-5-amd64".toList

/-- The links in the root, and what they lead to or do not. -/
def upName : Text := "vmlinuz".toList
def slashName : Text := "vmlinuz.old".toList
def plainName : Text := "linux".toList
def upTarget : Text := "boot/../".toList ++ imageName
def slashTarget : Text := "mnt/".toList ++ imageName ++ ['/']
def plainTarget : Text := "mnt/".toList ++ imageName

def rootEntries (c : Text) : Option Inode :=
  if c = mntName then some .mnt
  else if c = bootName then some .bootLink
  else if c = upName then some .upLink
  else if c = slashName then some .slashLink
  else if c = plainName then some .plainLink
  else none

def mntEntries (c : Text) : Option Inode :=
  if c = bootName then some .boot
  else if c = imageName then some .image
  else none

def node : Inode → FileNode Inode
  | .root => .dir rootEntries .root
  | .mnt => .dir mntEntries .root
  | .boot => .dir (fun _ => none) .mnt
  | .image => .file
  | .bootLink => .link "mnt/boot".toList (by decide)
  | .upLink => .link upTarget (by decide)
  | .slashLink => .link slashTarget (by decide)
  | .plainLink => .link plainTarget (by decide)

/-- The only directory that is an entry of the root. -/
theorem rootEntries_dir {name : Text} {d p : Inode} {entries : Text → Option Inode}
    (hname : rootEntries name = some d) (hd : node d = .dir entries p) :
    name = mntName ∧ d = .mnt := by
  rw [rootEntries] at hname
  split at hname
  · next hmnt => exact ⟨hmnt, (Option.some.inj hname).symm⟩
  · exfalso
    split at hname
    · obtain rfl := Option.some.inj hname
      cases hd
    · split at hname
      · obtain rfl := Option.some.inj hname
        cases hd
      · split at hname
        · obtain rfl := Option.some.inj hname
          cases hd
        · split at hname
          · obtain rfl := Option.some.inj hname
            cases hd
          · cases hname

/-- The only directories that are entries. -/
theorem entry_dir {d d' p p' : Inode} {entries entries' : Text → Option Inode} {name : Text}
    (h : node d = .dir entries p) (hname : entries name = some d')
    (h' : node d' = .dir entries' p') :
    d = .root ∧ name = mntName ∧ d' = .mnt ∨ d = .mnt ∧ name = bootName ∧ d' = .boot := by
  cases d with
  | root =>
    obtain ⟨rfl, rfl⟩ := FileNode.dir.inj h
    exact .inl ⟨rfl, rootEntries_dir hname h'⟩
  | mnt =>
    obtain ⟨rfl, rfl⟩ := FileNode.dir.inj h
    rw [mntEntries] at hname
    split at hname
    · next hboot => exact .inr ⟨rfl, hboot, (Option.some.inj hname).symm⟩
    · split at hname
      · obtain rfl := Option.some.inj hname
        cases h'
      · cases hname
  | boot =>
    obtain ⟨rfl, rfl⟩ := FileNode.dir.inj h
    cases hname
  | image => cases h
  | bootLink => cases h
  | upLink => cases h
  | slashLink => cases h
  | plainLink => cases h

/-- `/boot` is a link to `mnt/boot`, and the image is in `/mnt`. -/
def tree : FileTree Inode where
  node := node
  root := .root
  maxLinks := 40
  root_dir := ⟨_, rfl⟩
  parent_dir := fun {d _ _} h => by
    cases d with
    | root =>
      obtain rfl := (FileNode.dir.inj h).2
      exact ⟨_, _, rfl⟩
    | mnt =>
      obtain rfl := (FileNode.dir.inj h).2
      exact ⟨_, _, rfl⟩
    | boot =>
      obtain rfl := (FileNode.dir.inj h).2
      exact ⟨_, _, rfl⟩
    | image => cases h
    | bootLink => cases h
    | upLink => cases h
    | slashLink => cases h
    | plainLink => cases h
  parent_entry := fun h hname h' => by
    rcases entry_dir h hname h' with ⟨rfl, -, rfl⟩ | ⟨rfl, -, rfl⟩
    · exact (FileNode.dir.inj h').2.symm
    · exact (FileNode.dir.inj h').2.symm
  one_entry := fun h hname hname' h' => by
    rcases entry_dir h hname h', entry_dir h hname' h' with
      ⟨⟨rfl, hn, rfl⟩ | ⟨rfl, hn, rfl⟩, ⟨-, hn', h2⟩ | ⟨-, hn', h2⟩⟩
    · exact hn.trans hn'.symm
    · cases h2
    · cases h2
    · exact hn.trans hn'.symm

/-- `abs_path`, as far as it is called here. Slashes at the end are left out. -/
def absPath (path : Text) : Option Text :=
  if path = upTarget ∨ path = slashTarget ∨ path = plainTarget then
    some ("/mnt/".toList ++ imageName)
  else some path

theorem isAbsPath : IsAbsPath tree .root absPath := by
  intro path i hi realPath hreal
  rw [absPath] at hreal
  split at hreal
  · next hpath =>
    obtain rfl := Option.some.inj hreal
    rcases hpath with rfl | rfl | rfl
    · exact hi
    · cases hi
    · exact hi
  · obtain rfl := Option.some.inj hreal
    exact hi

theorem lexicalExists_plain : LexicalExists tree .root plainTarget := by
  refine ⟨?_, rfl⟩
  decide

theorem not_lexicalExists_up : ¬ LexicalExists tree .root upTarget := by
  rintro ⟨-, hwalk⟩
  cases hwalk

end BootLink

/-- The link whose text goes up from a link is judged wrongly, the plain one rightly. -/
theorem postrm_link_iff_boot :
    ¬ (Postrm.imageMagic BootLink.tree .root BootLink.absPath BootLink.upName = true ↔
        Dangling BootLink.tree .root BootLink.upName) ∧
      (Postrm.imageMagic BootLink.tree .root BootLink.absPath BootLink.plainName = true ↔
        Dangling BootLink.tree .root BootLink.plainName) := by
  constructor
  · intro h
    have hjudged := (postrm_link_iff BootLink.tree .root BootLink.isAbsPath BootLink.upName []).1.mp
      h BootLink.upTarget rfl
    exact BootLink.not_lexicalExists_up (hjudged.found rfl).2
  · refine (postrm_link_iff BootLink.tree .root BootLink.isAbsPath BootLink.plainName []).1.mpr ?_
    intro target htarget
    obtain rfl := Option.some.inj htarget
    exact ⟨fun _ => ⟨rfl, BootLink.lexicalExists_plain⟩, fun hnone => by cases hnone⟩

/-- The link leads to the image, and it is removed. -/
theorem working_link_removed : IsAbsPath BootLink.tree .root BootLink.absPath ∧
    Postrm.imageMagic BootLink.tree .root BootLink.absPath BootLink.upName = true ∧
    ¬ Dangling BootLink.tree .root BootLink.upName := by
  refine ⟨BootLink.isAbsPath, rfl, ?_⟩
  rintro ⟨target, htarget, hfile⟩
  obtain rfl := Option.some.inj htarget
  cases hfile

/-- The link leads nowhere, for a slash is behind the image, and it is kept. -/
example : Postrm.imageMagic BootLink.tree .root BootLink.absPath BootLink.slashName = false ∧
    Dangling BootLink.tree .root BootLink.slashName :=
  ⟨rfl, BootLink.slashTarget, rfl, rfl⟩

end DebianKernel.Image
