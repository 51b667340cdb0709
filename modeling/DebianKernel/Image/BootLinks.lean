import DebianKernel.Lib.Text

/-!
# The boot links of a kernel image

`image_magic` of the image postinst makes `kimage` in the link directory denote the new image and
keeps the entry that was there as `kimage.old`. Every rename, and the call that makes the new
entry, can fail. Whether a link is replaced is decided on texts: on what `abs_path` returns for the
text of the link, and on what a shell prints for it with `readlink -q -m`, unquoted.

Results:
1. `moveP_eq_false_iff`: which links are left alone.
2. `moveLink_consistent_iff`, `nonSymlinks_consistent_iff`, `missingLink_consistent_iff`: what
   each of the three handlers leaves.
3. `boot_links_consistent_iff`: when the links are consistent after `image_magic`.
-/

namespace DebianKernel.Image

/-! ## The link directory -/

/-- The flags of `kernel-img.conf`. -/
structure Config where
  doSymlink : Bool
  noSymlink : Bool
  useHardLinks : Bool
  minimalSwap : Bool

/-- With both options, `no_symlinks` is disabled. -/
def Config.sanity (c : Config) : Config :=
  if c.doSymlink && c.noSymlink then { c with noSymlink := false } else c

inductive Entry
  | file (inode : Nat)
  | link (target : Text)
  deriving DecidableEq

/-- `-l`. -/
def isLink : Option Entry → Bool
  | some (.link _) => true
  | _ => false

/-- The entries `$kimage`, `$kimage.old` and `$kimage.$$`. -/
structure Dir where
  kimage : Option Entry
  old : Option Entry
  temp : Option Entry
  deriving DecidableEq

/-- `rename`: what stays in the first place, and what is in the second one then. A file is not
renamed to another name of itself. -/
def renamed (src dst : Option Entry) : Option Entry × Option Entry :=
  match src, dst with
  | some (.file i), some (.file j) => if i = j then (src, dst) else (none, src)
  | some _, _ => (none, src)
  | none, _ => (none, dst)

namespace Dir

/-- `rename("$kimage", "$kimage.$$")`. -/
def away (d : Dir) : Dir :=
  { d with kimage := (renamed d.kimage d.temp).1, temp := (renamed d.kimage d.temp).2 }

/-- `rename("$kimage.$$", "$kimage")`. -/
def back (d : Dir) : Dir :=
  { d with temp := (renamed d.temp d.kimage).1, kimage := (renamed d.temp d.kimage).2 }

/-- `rename("$kimage.$$", "$kimage.old")`. -/
def toOld (d : Dir) : Dir :=
  { d with temp := (renamed d.temp d.old).1, old := (renamed d.temp d.old).2 }

end Dir

/-- Where the text of a link leads to. Nothing leads to the temporary name. -/
inductive Place
  | kimage
  | old
  | file (path : Text)
  | nothing
  deriving DecidableEq

/-- `${Old}${image_name}`, where `nested` is the file `boot/<image_name>` below the link
directory, which `test_relative` looks for, and `sameDir` tells that `spath` is blank. -/
def linkText (imageName : Text) (nested : Option Text) (sameDir : Bool) : Text :=
  if sameDir then imageName
  else if nested.isSome then "boot/" ++ imageName else "/boot/" ++ imageName

/-- The files outside of the three entries, what other programs say of the state before, and which
calls succeed. -/
structure Env where
  /-- `$image_name`. -/
  imageName : Text
  /-- The path of `/boot/$image_name`. -/
  image : Text
  nested : Option Text
  sameDir : Bool
  locate : Text → Place
  inode : Text → Nat
  /-- What `pwd` prints. -/
  cwd : Text
  absPath : Text → Option Text
  /-- `-f`. -/
  isRegular : Text → Bool
  /-- What `readlink -q -m` prints for the path of the new image. -/
  target : Text
  /-- What a shell prints when a text stands behind `readlink -q -m`. -/
  readlink : Text → Text
  /-- What `cp` makes. -/
  copy : Nat
  /-- A `cp` that fails leaves a file. -/
  leftover : Bool
  renameAway : Bool
  /-- The call of `link`, `symlink` or `cp` succeeds. -/
  create : Bool
  renameBack : Bool
  renameOld : Bool
  located : locate (linkText imageName nested sameDir) = .file (nested.getD image)
  fresh : ∀ path, inode path ≠ copy

/-- A file that a name leads to. -/
inductive Found
  | own (inode : Nat)
  | outside (path : Text)
  deriving DecidableEq

namespace Env

variable (env : Env)

/-- `${Old}${image_name}`. -/
def linkText : Text := Image.linkText env.imageName env.nested env.sameDir

/-- The file at `linkText`. -/
def linkFile : Text := env.nested.getD env.image

/-- Links are followed. -/
def walk (d : Dir) : Nat → Option Entry → Option Found
  | _, none => none
  | _, some (.file i) => some (.own i)
  | 0, some (.link _) => none
  | n + 1, some (.link target) =>
    match env.locate target with
    | .kimage => walk d n d.kimage
    | .old => walk d n d.old
    | .file path => some (.outside path)
    | .nothing => none

/-- Of two names, more than two links in a row run in a circle. -/
def resolve (d : Dir) (e : Option Entry) : Option Found := env.walk d 2 e

def inodeOf : Found → Nat
  | .own i => i
  | .outside path => env.inode path

/-- The file that an entry names. -/
def named (d : Dir) (e : Option Entry) : Option Nat := (env.resolve d e).map env.inodeOf

end Env

/-! ## The postinst -/

/-- What a run leaves, and whether it died. `created` tells how the call went that makes the new
entry. -/
structure Run where
  dir : Dir
  died : Bool
  created : Option Bool

/-- `s|/+|/|`: the first slashes in a row become one. -/
def squeezeSlashes (path : Text) : Text :=
  match path.span (· ≠ '/') with
  | (_, []) => path
  | (before, _ :: rest) => before ++ '/' :: rest.dropWhile (· = '/')

namespace Env

variable (env : Env)

/-- The path that the text of a link is looked at by. -/
def fullPath (text : Text) : Text :=
  if text.head? = some '/' then text else squeezeSlashes (env.cwd ++ '/' :: text)

/-- What is printed for the text of a link. -/
def printed (text : Text) : Text := env.readlink (env.fullPath text)

/-- `-f "$real_target"`. -/
def isFile (realTarget : Option Text) : Bool := realTarget.any env.isRegular

/-- `$real_old_target && -f "$real_old_target"`. -/
def isTrueFile (realTarget : Option Text) : Bool :=
  realTarget.any fun path => path ≠ [] && path ≠ ['0'] && env.isRegular path

end Env

/-- `move_p`. -/
def moveP (c : Config) (env : Env) (d : Dir) : Bool :=
  if c.noSymlink then true
  else match d.kimage with
    | some (.link vmlinuzTarget) =>
      if env.isFile (env.absPath vmlinuzTarget) = false then true
      else if env.printed vmlinuzTarget ≠ env.target then
        if c.minimalSwap then
          match d.old with
          | some (.link oldTarget) =>
            if env.isTrueFile (env.absPath oldTarget) then env.printed oldTarget ≠ env.target
            else true
          | _ => true
        else true
      else false
    | _ => true

/-- `really_move_link`. -/
def reallyMoveLink (c : Config) (env : Env) (d : Dir) : Run :=
  if env.renameAway then
    if env.create then
      let e : Entry := if c.useHardLinks then .file (env.inode env.linkFile) else .link env.linkText
      let moved := { d.away with kimage := some e }
      if (isLink moved.old || (env.resolve moved moved.old).isNone) && env.renameOld then
        ⟨moved.toOld, false, some true⟩
      else ⟨moved, false, some true⟩
    else ⟨if env.renameBack then d.away.back else d.away, true, some false⟩
  else ⟨d, true, none⟩

/-- What `cp` leaves when it fails. -/
def leftoverEntry (env : Env) : Option Entry :=
  if env.leftover then some (.file env.copy) else none

/-- `handle_missing_link`. -/
def handleMissingLink (c : Config) (env : Env) (d : Dir) : Run :=
  if c.noSymlink then
    if env.create then ⟨{ d with kimage := some (.file env.copy) }, false, some true⟩
    else ⟨{ d with kimage := leftoverEntry env }, true, some false⟩
  else if c.doSymlink then
    if env.create then ⟨{ d with kimage := some (.link env.linkText) }, false, some true⟩
    else ⟨d, true, some false⟩
  else ⟨d, false, none⟩

/-- `rename("$kimage.$$", "$kimage.old") if -e "$kimage.$$"`. -/
def saveOld (env : Env) (d : Dir) : Run :=
  if (env.resolve d d.temp).isSome && env.renameOld then ⟨d.toOld, false, some true⟩
  else ⟨d, false, some true⟩

/-- The cases one and three of `handle_non_symlinks`. -/
def copyOver (env : Env) (d : Dir) : Run :=
  if env.create then saveOld env { d.away with kimage := some (.file env.copy) }
  else
    let moved := { d.away with kimage := leftoverEntry env }
    ⟨if (env.resolve moved moved.temp).isSome && env.renameBack then moved.back else moved, true,
      some false⟩

/-- `handle_non_symlinks`. -/
def handleNonSymlinks (c : Config) (env : Env) (d : Dir) : Run :=
  if env.renameAway then
    if c.noSymlink then copyOver env d
    else if c.useHardLinks then
      if env.create then
        saveOld env { d.away with kimage := some (.file (env.inode env.linkFile)) }
      else ⟨if env.renameBack then d.away.back else d.away, true, some false⟩
    else copyOver env d
  else ⟨d, true, none⟩

/-- `image_magic`. -/
def imageMagic (c : Config) (env : Env) (d : Dir) : Run :=
  match d.kimage with
  | some (.link _) => if moveP c env d then reallyMoveLink c env d else ⟨d, false, none⟩
  | none => handleMissingLink c env d
  | some (.file _) => handleNonSymlinks c env d

/-! ## What is expected -/

/-- The state before: the temporary name is free, and `cp` makes a new file. -/
structure Start (env : Env) where
  kimage : Option Entry
  old : Option Entry
  fresh : kimage ≠ some (.file env.copy)

def Start.dir {env : Env} (s : Start env) : Dir := ⟨s.kimage, s.old, none⟩

/-- `kimage` is the new image: a link to it, a hard link or a copy. -/
def Denotes (env : Env) (d : Dir) : Prop :=
  env.named d d.kimage = some (env.inode env.image) ∨ env.named d d.kimage = some env.copy

/-- `kimage` may stay as it is. -/
def MayStay (c : Config) (env : Env) (d : Dir) : Prop :=
  (c.doSymlink = false ∧ c.noSymlink = false ∧ d.kimage = none) ∨
    (c.minimalSwap = true ∧ env.named d d.old = some (env.inode env.image))

/-- The links after a run are consistent with those before. -/
structure Consistent (c : Config) (env : Env) (d : Dir) (run : Run) : Prop where
  denotes : run.died = false →
    (Denotes env run.dir ∧ (c.noSymlink = true → isLink run.dir.kimage = false)) ∨
      (run.created = none ∧ run.dir = d ∧ MayStay c env d)
  kept : run.died = false → ∀ i, env.named d d.kimage = some i →
    (isLink d.kimage = true ∧ ∃ j, d.old = some (.file j)) ∨
      env.named run.dir run.dir.kimage = some i ∨ env.named run.dir run.dir.old = some i
  stopped : run.created = some false → run.died = true ∧ run.dir.kimage = d.kimage

/-! ## When they are -/

/-- The image is copied to `kimage`. -/
def copies (c : Config) (d : Dir) : Bool :=
  match d.kimage with
  | some (.link _) => false
  | some (.file _) => c.noSymlink || !c.useHardLinks
  | none => c.noSymlink

/-- A new entry is made. -/
def creates (c : Config) (env : Env) (d : Dir) : Bool :=
  match d.kimage with
  | some (.link _) => env.renameAway && moveP c env d
  | some (.file _) => env.renameAway
  | none => c.noSymlink || c.doSymlink

/-- The entry `kimage.old` names a file without the entry `kimage`. -/
def NamesAlone (env : Env) (old : Option Entry) (i : Nat) : Prop :=
  old = some (.file i) ∨
    ∃ target path, old = some (.link target) ∧ env.locate target = .file path ∧ env.inode path = i

/-- What is needed when the new entry was made. -/
structure SafeCreated (c : Config) (env : Env) (d : Dir) : Prop where
  /-- A symbolic link is not replaced by another one with `no_symlinks`. -/
  noSymlink : c.noSymlink = true → isLink d.kimage = true → c.useHardLinks = true
  /-- A link is made to the new image, not to the file `boot/<image_name>` of another system. -/
  sameFile : copies c d = false → env.inode env.linkFile = env.inode env.image
  /-- The file that `kimage` names is kept: as the new image, or behind `kimage.old`, when
  `kimage` is not a link to a link there. -/
  kept : ∀ i, env.named d d.kimage = some i →
    (isLink d.kimage = true ∧ ∃ j, d.old = some (.file j)) ∨
    (copies c d = false ∧ i = env.inode env.linkFile) ∨
    if env.renameOld then ∀ target, d.kimage = some (.link target) → env.locate target ≠ .old
    else NamesAlone env d.old i

/-- What is needed when the call failed that makes the new entry. -/
structure SafeFailed (c : Config) (env : Env) (d : Dir) : Prop where
  restored : d.kimage ≠ none → env.renameBack = true
  nothingLeft : d.kimage = none → c.noSymlink = true → env.leftover = false

/-- The link is taken for one to the new image, or with `minimal_swap` `kimage.old` is: a regular
file is behind it, and the path that is printed for it is that of the image. -/
def TakenForImage (c : Config) (env : Env) (d : Dir) (text : Text) : Prop :=
  env.isFile (env.absPath text) = true ∧
    (env.printed text = env.target ∨ c.minimalSwap = true ∧ ∃ oldText,
      d.old = some (.link oldText) ∧ env.isTrueFile (env.absPath oldText) = true ∧
        env.printed oldText = env.target)

structure LinksSafe (c : Config) (env : Env) (d : Dir) : Prop where
  created : creates c env d = true →
    if env.create then SafeCreated c env d else SafeFailed c env d
  /-- Where a link is taken for one to the new image, it leads there, or `kimage.old` does. -/
  taken : c.noSymlink = false → ∀ text, d.kimage = some (.link text) → TakenForImage c env d text →
    Denotes env d ∨ (c.minimalSwap = true ∧ env.named d d.old = some (env.inode env.image))

namespace BootLinkLemmas

/-! ## Names -/

variable {c : Config} {env : Env} {d : Dir}

theorem named_file (i : Nat) : env.named d (some (.file i)) = some i := rfl

theorem named_outside {target path : Text} (h : env.locate target = .file path) :
    env.named d (some (.link target)) = some (env.inode path) := by
  rw [Env.named, Env.resolve, Env.walk, h]
  rfl

theorem named_nothing {target : Text} (h : env.locate target = .nothing) :
    env.named d (some (.link target)) = none := by
  rw [Env.named, Env.resolve, Env.walk, h]
  rfl

/-- A link to itself names nothing. -/
theorem named_loop {target : Text} (h : env.locate target = .kimage)
    (hd : d.kimage = some (.link target)) : env.named d (some (.link target)) = none := by
  rw [Env.named, Env.resolve, Env.walk, h]
  dsimp only
  rw [hd, Env.walk, h]
  dsimp only
  rw [hd]
  rfl

theorem named_old_loop {target : Text} (h : env.locate target = .old)
    (hd : d.old = some (.link target)) : env.named d (some (.link target)) = none := by
  rw [Env.named, Env.resolve, Env.walk, h]
  dsimp only
  rw [hd, Env.walk, h]
  dsimp only
  rw [hd]
  rfl

/-- The entry that `really_move_link` makes. -/
def newEntry (c : Config) (env : Env) : Entry :=
  if c.useHardLinks then .file (env.inode env.linkFile) else .link env.linkText

theorem named_linkText : env.named d (some (.link env.linkText)) = some (env.inode env.linkFile) :=
  named_outside env.located

theorem named_newEntry : env.named d (some (newEntry c env)) = some (env.inode env.linkFile) := by
  rw [newEntry]
  split
  · rfl
  · exact named_linkText

theorem isLink_newEntry : isLink (some (newEntry c env)) = !c.useHardLinks := by
  rw [newEntry]
  cases c.useHardLinks <;> rfl

/-- A link to `kimage` names what the new entry does. -/
theorem named_through_kimage {target : Text} {e : Entry} {n : Nat}
    (he : e = .file n ∨ e = .link env.linkText ∧ n = env.inode env.linkFile)
    (h : env.locate target = .kimage) (hd : d.kimage = some e) :
    env.named d (some (.link target)) = some n := by
  rw [Env.named, Env.resolve, Env.walk, h]
  dsimp only
  rw [hd]
  rcases he with rfl | ⟨rfl, rfl⟩
  · rfl
  · rw [Env.walk, show env.locate env.linkText = _ from env.located]
    rfl

/-- What `kimage.old` names while `kimage` is a new entry. -/
theorem named_old {e : Entry} {n i : Nat}
    (he : e = .file n ∨ e = .link env.linkText ∧ n = env.inode env.linkFile)
    (hd : d.kimage = some e) (hne : i ≠ n) :
    env.named d d.old = some i ↔ NamesAlone env d.old i := by
  rcases hold : d.old with _ | ⟨j⟩ | ⟨target⟩
  · exact iff_of_false nofun (by simp [NamesAlone])
  · simp [NamesAlone, named_file]
  · have halone : NamesAlone env (some (.link target)) i ↔
        ∃ path, env.locate target = .file path ∧ env.inode path = i := by
      simp [NamesAlone]
    rw [halone]
    cases h : env.locate target with
    | kimage =>
      rw [named_through_kimage he h hd, Option.some.injEq]
      exact iff_of_false hne.symm (by simp)
    | old =>
      rw [named_old_loop h hold]
      exact iff_of_false nofun (by simp)
    | file path =>
      rw [named_outside h, Option.some.injEq]
      simp
    | nothing =>
      rw [named_nothing h]
      exact iff_of_false nofun (by simp)

theorem newEntry_cases (c : Config) (env : Env) :
    newEntry c env = .file (env.inode env.linkFile) ∨
      newEntry c env = .link env.linkText ∧ env.inode env.linkFile = env.inode env.linkFile := by
  rw [newEntry]
  split
  · exact .inl rfl
  · exact .inr ⟨rfl, rfl⟩

theorem denotes_iff (h : env.named d d.kimage = some (env.inode env.linkFile)) :
    Denotes env d ↔ env.inode env.linkFile = env.inode env.image := by
  rw [Denotes, h, Option.some.injEq, Option.some.injEq]
  exact or_iff_left (env.fresh _)

/-- A run that stops before it makes an entry. -/
theorem consistent_died : Consistent c env d ⟨d, true, none⟩ :=
  ⟨nofun, nofun, nofun⟩

/-- A run that does nothing. -/
theorem consistent_untouched_iff : Consistent c env d ⟨d, false, none⟩ ↔
    (Denotes env d ∧ (c.noSymlink = true → isLink d.kimage = false)) ∨ MayStay c env d :=
  ⟨fun h => (h.denotes rfl).imp id fun hstay => hstay.2.2, fun h =>
    ⟨fun _ => h.imp id fun hstay => ⟨rfl, rfl, hstay⟩, fun _ _ hi => .inr (.inl hi), nofun⟩⟩

/-- A run that fails to make an entry. -/
theorem consistent_failed_iff {d' : Dir} :
    Consistent c env d ⟨d', true, some false⟩ ↔ d'.kimage = d.kimage :=
  ⟨fun h => (h.stopped rfl).2, fun h => ⟨nofun, nofun, fun _ => ⟨rfl, h⟩⟩⟩

/-- A run that makes an entry. -/
theorem consistent_created_iff {d' : Dir} : Consistent c env d ⟨d', false, some true⟩ ↔
    (Denotes env d' ∧ (c.noSymlink = true → isLink d'.kimage = false)) ∧
      ∀ i, env.named d d.kimage = some i → (isLink d.kimage = true ∧ ∃ j, d.old = some (.file j)) ∨
        env.named d' d'.kimage = some i ∨ env.named d' d'.old = some i := by
  constructor
  · intro h
    exact ⟨(h.denotes rfl).resolve_right fun hnone => absurd hnone.1 nofun, h.kept rfl⟩
  · rintro ⟨hdenotes, hkept⟩
    exact ⟨fun _ => .inl hdenotes, fun _ => hkept, nofun⟩

/-- Only a link can be taken for one to the new image. -/
theorem linksSafe_iff_created (h : isLink d.kimage = false) : LinksSafe c env d ↔
    (creates c env d = true → if env.create then SafeCreated c env d else SafeFailed c env d) := by
  refine ⟨fun hsafe => hsafe.created, fun hcreated => ⟨hcreated, fun _ text htext _ => ?_⟩⟩
  rw [htext] at h
  cases h

/-! ## The handlers -/

/-- What is needed when a link is replaced. -/
theorem safeCreated_link_iff {target : Text} {old : Option Entry} :
    SafeCreated c env ⟨some (.link target), old, none⟩ ↔
      (env.inode env.linkFile = env.inode env.image ∧
        (c.noSymlink = true → c.useHardLinks = true)) ∧
      ∀ i, env.named ⟨some (.link target), old, none⟩ (some (.link target)) = some i →
        (∃ j, old = some (.file j)) ∨ i = env.inode env.linkFile ∨
          if env.renameOld then env.locate target ≠ .old else NamesAlone env old i := by
  constructor
  · rintro ⟨hno, hsame, hkept⟩
    refine ⟨⟨hsame rfl, fun h => hno h rfl⟩, fun i hi => ?_⟩
    rcases hkept i hi with ⟨-, hfile⟩ | ⟨-, hnew⟩ | hold
    · exact .inl hfile
    · exact .inr (.inl hnew)
    · refine .inr (.inr ?_)
      split
      · next hrename =>
        rw [if_pos hrename] at hold
        exact hold target rfl
      · next hrename => rwa [if_neg hrename] at hold
  · rintro ⟨⟨hsame, hno⟩, hkept⟩
    refine ⟨fun h _ => hno h, fun _ => hsame, fun i hi => ?_⟩
    rcases hkept i hi with hfile | hnew | hold
    · exact .inl ⟨rfl, hfile⟩
    · exact .inr (.inl ⟨rfl, hnew⟩)
    · refine .inr (.inr ?_)
      split
      · next hrename =>
        rw [if_pos hrename] at hold
        rintro _ ⟨⟩
        exact hold
      · next hrename => rwa [if_neg hrename] at hold

/-- What the link names that became `kimage.old`. -/
theorem named_moved_iff {target : Text} {old : Option Entry} {i : Nat}
    (hi : env.named ⟨some (.link target), old, none⟩ (some (.link target)) = some i) :
    env.named ⟨some (newEntry c env), some (.link target), none⟩ (some (.link target)) = some i ↔
      env.locate target ≠ .old := by
  cases h : env.locate target with
  | kimage =>
    rw [named_loop h rfl] at hi
    cases hi
  | old =>
    rw [named_old_loop h rfl]
    exact iff_of_false nofun (not_not.mpr rfl)
  | file path =>
    rw [named_outside h] at hi ⊢
    exact iff_of_true hi nofun
  | nothing =>
    rw [named_nothing h] at hi
    cases hi

theorem moveLink_consistent_iff {target : Text} {old : Option Entry}
    (haway : env.renameAway = true) :
    Consistent c env ⟨some (.link target), old, none⟩
        (reallyMoveLink c env ⟨some (.link target), old, none⟩) ↔
      if env.create then SafeCreated c env ⟨some (.link target), old, none⟩
      else SafeFailed c env ⟨some (.link target), old, none⟩ := by
  rw [reallyMoveLink, if_pos haway]
  cases hcreate : env.create with
  | false =>
    rw [if_neg Bool.false_ne_true, if_neg Bool.false_ne_true, consistent_failed_iff]
    cases hback : env.renameBack with
    | true =>
      refine iff_of_true rfl ⟨fun _ => hback, nofun⟩
    | false =>
      refine iff_of_false nofun fun h => ?_
      rw [h.restored (Option.some_ne_none _)] at hback
      cases hback
  | true =>
    rw [if_pos rfl, if_pos rfl]
    have hdenotes : ∀ old' temp, (Denotes env ⟨some (newEntry c env), old', temp⟩ ∧
        (c.noSymlink = true → isLink (some (newEntry c env)) = false)) ↔
        env.inode env.linkFile = env.inode env.image ∧
          (c.noSymlink = true → c.useHardLinks = true) := by
      intro old' temp
      rw [denotes_iff named_newEntry, isLink_newEntry, Bool.not_eq_false']
    show Consistent c env _ (if (isLink old ||
      (env.resolve ⟨some (newEntry c env), old, some (.link target)⟩ old).isNone) && env.renameOld
      then ⟨Dir.toOld ⟨some (newEntry c env), old, some (.link target)⟩, false, some true⟩
      else ⟨⟨some (newEntry c env), old, some (.link target)⟩, false, some true⟩) ↔ _
    rw [safeCreated_link_iff]
    rcases Classical.em (∃ j, old = some (.file j)) with ⟨j, rfl⟩ | hnofile
    · -- a file at `kimage.old` is not clobbered
      show Consistent c env _ ⟨⟨some (newEntry c env), some (.file j), some (.link target)⟩, false,
        some true⟩ ↔ _
      rw [consistent_created_iff, hdenotes]
      exact and_congr_right fun _ => iff_of_true (fun _ _ => .inl ⟨rfl, j, rfl⟩)
        fun _ _ => .inl ⟨j, rfl⟩
    · have hclobber : (isLink old || (env.resolve
          ⟨some (newEntry c env), old, some (.link target)⟩ old).isNone) = true := by
        rcases old with _ | ⟨j⟩ | ⟨target'⟩
        · rfl
        · exact absurd ⟨j, rfl⟩ hnofile
        · rfl
      have hkept : ∀ {p q : Prop}, (isLink (some (Entry.link target)) = true ∧
          ∃ j, old = some (.file j)) ∨ p ∨ q ↔ p ∨ q :=
        fun {p q} => or_iff_right fun h => hnofile h.2
      have hcondition : ∀ {p : Prop}, (∃ j, old = some (.file j)) ∨ p ↔ p :=
        fun {p} => or_iff_right hnofile
      rw [hclobber, Bool.true_and]
      cases hrename : env.renameOld with
      | true =>
        have hmoved : Dir.toOld ⟨some (newEntry c env), old, some (.link target)⟩ =
            ⟨some (newEntry c env), some (.link target), none⟩ := by
          cases old <;> rfl
        rw [if_pos rfl, hmoved, consistent_created_iff, hdenotes]
        refine and_congr_right fun _ => forall₂_congr fun i hi => ?_
        rw [hkept, hcondition, if_pos rfl, named_newEntry, Option.some.injEq]
        exact or_congr eq_comm (named_moved_iff hi)
      | false =>
        rw [if_neg Bool.false_ne_true, consistent_created_iff, hdenotes]
        refine and_congr_right fun _ => forall₂_congr fun i _ => ?_
        rw [hkept, hcondition, if_neg Bool.false_ne_true, named_newEntry, Option.some.injEq]
        rcases eq_or_ne i (env.inode env.linkFile) with rfl | hne
        · exact iff_of_true (.inl rfl) (.inl rfl)
        · rw [or_iff_right hne.symm, or_iff_right hne]
          exact named_old (newEntry_cases c env) rfl hne

theorem missingLink_consistent_iff {old : Option Entry} :
    Consistent c env ⟨none, old, none⟩ (handleMissingLink c env ⟨none, old, none⟩) ↔
      LinksSafe c env ⟨none, old, none⟩ := by
  have hcreates : creates c env ⟨none, old, none⟩ = (c.noSymlink || c.doSymlink) := rfl
  rw [linksSafe_iff_created rfl, hcreates, handleMissingLink]
  cases hno : c.noSymlink with
  | true =>
    rw [if_pos rfl, Bool.true_or, forall_prop_of_true rfl]
    cases hcreate : env.create with
    | true =>
      rw [if_pos rfl, if_pos rfl, consistent_created_iff]
      refine iff_of_true ⟨⟨.inr rfl, fun _ => rfl⟩, nofun⟩ ⟨fun _ => nofun, fun h => ?_, nofun⟩
      exact absurd (hno.symm.trans h) nofun
    | false =>
      rw [if_neg Bool.false_ne_true, if_neg Bool.false_ne_true, consistent_failed_iff]
      show leftoverEntry env = none ↔ _
      rw [leftoverEntry]
      cases hleft : env.leftover with
      | true => exact iff_of_false nofun fun h => absurd (h.nothingLeft rfl hno) (by simp [hleft])
      | false => exact iff_of_true rfl ⟨fun h => absurd rfl h, fun _ _ => hleft⟩
  | false =>
    rw [if_neg Bool.false_ne_true, Bool.false_or]
    cases hdo : c.doSymlink with
    | true =>
      rw [if_pos rfl, forall_prop_of_true rfl]
      cases hcreate : env.create with
      | true =>
        rw [if_pos rfl, if_pos rfl, consistent_created_iff, denotes_iff named_linkText]
        constructor
        · rintro ⟨⟨himage, -⟩, -⟩
          exact ⟨fun h => absurd (hno.symm.trans h) nofun, fun _ => himage, nofun⟩
        · rintro ⟨-, himage, -⟩
          exact ⟨⟨himage hno, fun h => absurd (hno.symm.trans h) nofun⟩, nofun⟩
      | false =>
        rw [if_neg Bool.false_ne_true, if_neg Bool.false_ne_true, consistent_failed_iff]
        refine iff_of_true rfl ⟨fun h => absurd rfl h, fun _ h => ?_⟩
        exact absurd (hno.symm.trans h) nofun
    | false =>
      rw [if_neg Bool.false_ne_true]
      exact iff_of_true (consistent_untouched_iff.mpr (.inr (.inl ⟨hdo, hno, rfl⟩))) nofun

/-- What is needed when a file is replaced. -/
theorem safeCreated_file_iff {inode : Nat} {old : Option Entry} :
    SafeCreated c env ⟨some (.file inode), old, none⟩ ↔
      (copies c ⟨some (.file inode), old, none⟩ = false →
        env.inode env.linkFile = env.inode env.image) ∧
      ((copies c ⟨some (.file inode), old, none⟩ = false ∧ inode = env.inode env.linkFile) ∨
        (env.renameOld = true ∨ NamesAlone env old inode)) := by
  have hrename : (if env.renameOld then ∀ target, some (Entry.file inode) = some (.link target) →
      env.locate target ≠ .old else NamesAlone env old inode) ↔
        (env.renameOld = true ∨ NamesAlone env old inode) := by
    cases env.renameOld with
    | true => exact iff_of_true nofun (.inl rfl)
    | false => exact (or_iff_right Bool.false_ne_true).symm
  constructor
  · rintro ⟨-, hsame, hkept⟩
    refine ⟨hsame, ?_⟩
    rcases hkept inode rfl with ⟨hlink, -⟩ | hnew | hold
    · cases hlink
    · exact .inl hnew
    · exact .inr (hrename.mp hold)
  · rintro ⟨hsame, hkept⟩
    refine ⟨fun _ => nofun, hsame, ?_⟩
    rintro _ ⟨⟩
    exact .inr (hkept.imp id hrename.mpr)

/-- The file that was moved away becomes `kimage.old`. -/
theorem saveOld_consistent_iff {inode n : Nat} {old : Option Entry} :
    Consistent c env ⟨some (.file inode), old, none⟩
        (saveOld env ⟨some (.file n), old, some (.file inode)⟩) ↔
      (n = env.inode env.image ∨ n = env.copy) ∧
        (inode = n ∨ (env.renameOld = true ∨ NamesAlone env old inode)) := by
  have hdenotes : ∀ old' temp, (Denotes env ⟨some (.file n), old', temp⟩ ∧
      (c.noSymlink = true → isLink (some (Entry.file n)) = false)) ↔
        (n = env.inode env.image ∨ n = env.copy) := by
    intro old' temp
    rw [Denotes, named_file, Option.some.injEq, Option.some.injEq]
    exact and_iff_left fun _ => rfl
  have hkept : ∀ d' : Dir, (∀ i, env.named ⟨some (.file inode), old, none⟩
      (some (.file inode)) = some i → (isLink (some (Entry.file inode)) = true ∧
        ∃ j, old = some (.file j)) ∨ env.named d' d'.kimage = some i ∨
          env.named d' d'.old = some i) ↔
      (env.named d' d'.kimage = some inode ∨ env.named d' d'.old = some inode) := by
    intro d'
    constructor
    · exact fun h => (h inode rfl).resolve_left fun hlink => absurd hlink.1 nofun
    · rintro h _ ⟨⟩
      exact .inr h
  have htemp : (env.resolve ⟨some (.file n), old, some (.file inode)⟩
      (some (.file inode))).isSome = true := rfl
  rw [saveOld, htemp, Bool.true_and]
  cases hrename : env.renameOld with
  | true =>
    have hold : (Dir.toOld ⟨some (.file n), old, some (.file inode)⟩).old = some (.file inode) := by
      rcases old with _ | ⟨j⟩ | ⟨target⟩
      · rfl
      · rcases eq_or_ne inode j with rfl | hne
        · simp [Dir.toOld, renamed]
        · simp [Dir.toOld, renamed, hne]
      · rfl
    rw [if_pos rfl, consistent_created_iff]
    refine and_congr (hdenotes _ _) ((hkept _).trans (iff_of_true (.inr ?_) (.inr (.inl rfl))))
    rw [hold]
    rfl
  | false =>
    rw [if_neg Bool.false_ne_true, consistent_created_iff]
    refine and_congr (hdenotes _ _) ((hkept _).trans ?_)
    rw [named_file, Option.some.injEq, or_iff_right Bool.false_ne_true]
    rcases eq_or_ne inode n with rfl | hne
    · exact iff_of_true (.inl rfl) (.inl rfl)
    · rw [or_iff_right hne.symm, or_iff_right hne]
      exact named_old (.inl rfl) rfl hne

/-- A file is put back when its place could not be taken. -/
theorem safeFailed_file_iff {inode : Nat} {old : Option Entry} :
    SafeFailed c env ⟨some (.file inode), old, none⟩ ↔ env.renameBack = true :=
  ⟨fun h => h.restored (Option.some_ne_none _), fun h => ⟨fun _ => h, nofun⟩⟩

theorem copyOver_consistent_iff {inode : Nat} {old : Option Entry} (hfresh : inode ≠ env.copy)
    (hcopies : copies c ⟨some (.file inode), old, none⟩ = true) :
    Consistent c env ⟨some (.file inode), old, none⟩
        (copyOver env ⟨some (.file inode), old, none⟩) ↔
      if env.create then SafeCreated c env ⟨some (.file inode), old, none⟩
      else SafeFailed c env ⟨some (.file inode), old, none⟩ := by
  rw [copyOver]
  cases hcreate : env.create with
  | true =>
    rw [if_pos rfl, if_pos rfl, safeCreated_file_iff, hcopies]
    refine saveOld_consistent_iff.trans ?_
    rw [or_iff_right hfresh, and_iff_right (.inr rfl), and_iff_right nofun]
    exact (or_iff_right fun h => Bool.false_ne_true h.1.symm).symm
  | false =>
    rw [if_neg Bool.false_ne_true, if_neg Bool.false_ne_true, consistent_failed_iff,
      safeFailed_file_iff]
    have hleft : leftoverEntry env = none ∨ leftoverEntry env = some (.file env.copy) := by
      rw [leftoverEntry]
      cases env.leftover with
      | true => exact .inr rfl
      | false => exact .inl rfl
    show (if (true && env.renameBack) = true
      then Dir.back ⟨leftoverEntry env, old, some (.file inode)⟩
      else ⟨leftoverEntry env, old, some (.file inode)⟩).kimage = some (.file inode) ↔ _
    rw [Bool.true_and]
    cases env.renameBack with
    | true =>
      rw [if_pos rfl]
      refine iff_of_true ?_ rfl
      rcases hleft with h | h
      · rw [h]
        rfl
      · rw [h]
        simp [Dir.back, renamed, hfresh]
    | false =>
      rw [if_neg Bool.false_ne_true]
      refine iff_of_false (fun h => ?_) Bool.false_ne_true
      rcases hleft with hl | hl
      · exact absurd (hl.symm.trans h) nofun
      · exact hfresh (Entry.file.inj (Option.some.inj (hl.symm.trans h))).symm

theorem nonSymlinks_consistent_iff {inode : Nat} {old : Option Entry} (hfresh : inode ≠ env.copy) :
    Consistent c env ⟨some (.file inode), old, none⟩
        (handleNonSymlinks c env ⟨some (.file inode), old, none⟩) ↔
      LinksSafe c env ⟨some (.file inode), old, none⟩ := by
  have hcreates : creates c env ⟨some (.file inode), old, none⟩ = env.renameAway := rfl
  have hcopies : copies c ⟨some (.file inode), old, none⟩ =
      (c.noSymlink || !c.useHardLinks) := rfl
  rw [linksSafe_iff_created rfl, hcreates, handleNonSymlinks]
  cases haway : env.renameAway with
  | false =>
    rw [if_neg Bool.false_ne_true]
    exact iff_of_true consistent_died nofun
  | true =>
    rw [if_pos rfl, forall_prop_of_true rfl]
    cases hno : c.noSymlink with
    | true =>
      rw [if_pos rfl]
      exact copyOver_consistent_iff hfresh (by rw [hcopies, hno]; rfl)
    | false =>
      rw [if_neg Bool.false_ne_true]
      cases hhard : c.useHardLinks with
      | false =>
        rw [if_neg Bool.false_ne_true]
        exact copyOver_consistent_iff hfresh (by rw [hcopies, hno, hhard]; rfl)
      | true =>
        rw [hno, hhard] at hcopies
        rw [if_pos rfl]
        cases hcreate : env.create with
        | true =>
          rw [if_pos rfl, if_pos rfl, safeCreated_file_iff, hcopies]
          refine saveOld_consistent_iff.trans (and_congr ?_ (or_congr_left ?_))
          · rw [or_iff_left (env.fresh _)]
            exact ⟨fun h _ => h, fun h => h rfl⟩
          · exact (and_iff_right rfl).symm
        | false =>
          rw [if_neg Bool.false_ne_true, if_neg Bool.false_ne_true, consistent_failed_iff,
            safeFailed_file_iff]
          cases env.renameBack with
          | true => exact iff_of_true rfl rfl
          | false => exact iff_of_false nofun Bool.false_ne_true

/-- The links that are left alone. -/
theorem moveP_eq_false_iff {text : Text} {old : Option Entry} :
    moveP c env ⟨some (.link text), old, none⟩ = false ↔
      c.noSymlink = false ∧ TakenForImage c env ⟨some (.link text), old, none⟩ text := by
  rw [moveP, TakenForImage]
  cases c.noSymlink with
  | true => exact iff_of_false (by simp) (by simp)
  | false =>
    rw [if_neg Bool.false_ne_true, and_iff_right rfl]
    dsimp only
    cases env.isFile (env.absPath text) with
    | false => exact iff_of_false (by simp) (by simp)
    | true =>
      rw [if_neg (by decide), and_iff_right rfl]
      by_cases hprinted : env.printed text = env.target
      · rw [if_neg (not_not.mpr hprinted)]
        exact iff_of_true rfl (.inl hprinted)
      · rw [if_pos hprinted, or_iff_right hprinted]
        cases c.minimalSwap with
        | false => exact iff_of_false (by simp) (by simp)
        | true =>
          rw [if_pos rfl, and_iff_right rfl]
          rcases old with _ | ⟨j⟩ | ⟨oldText⟩
          · exact iff_of_false (by simp) (by simp)
          · exact iff_of_false (by simp) (by simp)
          · dsimp only
            cases htrue : env.isTrueFile (env.absPath oldText) <;> simp [htrue]

/-- A link that is left alone. -/
theorem leftAlone_consistent_iff {text : Text} {old : Option Entry} (hno : c.noSymlink = false) :
    Consistent c env ⟨some (.link text), old, none⟩ ⟨⟨some (.link text), old, none⟩, false, none⟩ ↔
      Denotes env ⟨some (.link text), old, none⟩ ∨ (c.minimalSwap = true ∧
        env.named ⟨some (.link text), old, none⟩ old = some (env.inode env.image)) := by
  have hkind : c.noSymlink = true → isLink (some (.link text)) = false := fun h => by
    rw [hno] at h
    cases h
  have hstay : MayStay c env ⟨some (.link text), old, none⟩ ↔ c.minimalSwap = true ∧
      env.named ⟨some (.link text), old, none⟩ old = some (env.inode env.image) :=
    or_iff_right fun h => by cases h.2.2
  rw [consistent_untouched_iff, hstay, and_iff_left hkind]

end BootLinkLemmas

open BootLinkLemmas

/-- `image_magic` leaves the links consistent exactly where `LinksSafe` holds. -/
theorem boot_links_consistent_iff (c : Config) (env : Env) (s : Start env) :
    Consistent c.sanity env s.dir (imageMagic c.sanity env s.dir) ↔
      LinksSafe c.sanity env s.dir := by
  generalize c.sanity = c
  obtain ⟨kimage, old, hfresh⟩ := s
  rcases kimage with _ | ⟨inode⟩ | ⟨text⟩
  · exact missingLink_consistent_iff
  · exact nonSymlinks_consistent_iff fun h => hfresh (by rw [h])
  · show Consistent c env ⟨some (.link text), old, none⟩
      (if moveP c env ⟨some (.link text), old, none⟩ then _ else _) ↔
        LinksSafe c env ⟨some (.link text), old, none⟩
    have hcreates : creates c env ⟨some (.link text), old, none⟩ =
        (env.renameAway && moveP c env ⟨some (.link text), old, none⟩) := rfl
    cases hmove : moveP c env ⟨some (.link text), old, none⟩ with
    | false =>
      obtain ⟨hno, htaken⟩ := moveP_eq_false_iff.mp hmove
      rw [if_neg Bool.false_ne_true]
      refine (leftAlone_consistent_iff hno).trans
        ⟨fun h => ?_, fun h => h.taken hno text rfl htaken⟩
      refine ⟨fun hnew => ?_, fun _ _ _ _ => h⟩
      rw [hcreates, hmove, Bool.and_false] at hnew
      cases hnew
    | true =>
      have hsafe : LinksSafe c env ⟨some (.link text), old, none⟩ ↔
          (creates c env ⟨some (.link text), old, none⟩ = true →
            if env.create then SafeCreated c env ⟨some (.link text), old, none⟩
            else SafeFailed c env ⟨some (.link text), old, none⟩) := by
        refine ⟨fun h => h.created, fun h => ⟨h, fun hno t ht htaken => ?_⟩⟩
        obtain rfl := Entry.link.inj (Option.some.inj ht)
        rw [moveP_eq_false_iff.mpr ⟨hno, htaken⟩] at hmove
        cases hmove
      rw [if_pos rfl, hsafe, hcreates, hmove, Bool.and_true]
      cases haway : env.renameAway with
      | false =>
        rw [reallyMoveLink, if_neg (by rw [haway]; exact Bool.false_ne_true)]
        exact iff_of_true consistent_died nofun
      | true =>
        rw [forall_prop_of_true rfl]
        exact moveLink_consistent_iff haway

/-- The link directory is `/`, there are two images and a file with a blank at the end of its name,
and no call fails. -/
def rootEnv : Env where
  imageName := "vmlinuz-2"
  image := "/boot/vmlinuz-2"
  nested := some "/boot/vmlinuz-2"
  sameDir := false
  locate target :=
    if target = "boot/vmlinuz-1" then .file "/boot/vmlinuz-1"
    else if target = "boot/vmlinuz-2" then .file "/boot/vmlinuz-2"
    else if target = "boot/vmlinuz-2 " then .file "/boot/vmlinuz-2 "
    else .nothing
  inode path :=
    if path = "/boot/vmlinuz-1" then 1
    else if path = "/boot/vmlinuz-2 " then 4
    else 2
  cwd := "/"
  absPath target := some ('/' :: target)
  isRegular path := path = "/boot/vmlinuz-1" ∨ path = "/boot/vmlinuz-2" ∨ path = "/boot/vmlinuz-2 "
  target := "/boot/vmlinuz-2\n"
  readlink words := words.rdropWhile (· = ' ') ++ ['\n']
  copy := 3
  leftover := false
  renameAway := true
  create := true
  renameBack := true
  renameOld := true
  located := by decide
  fresh := by
    intro path
    split
    · decide
    · split <;> decide

/-- A link to the old image becomes a link to the new one, in spite of `no_symlinks`. -/
theorem link_despite_no_symlinks :
    ¬ ∀ (c : Config) (env : Env) (s : Start env),
      Consistent c.sanity env s.dir (imageMagic c.sanity env s.dir) := by
  intro h
  have hrun := h ⟨false, true, false, false⟩ rootEnv
    ⟨some (.link "boot/vmlinuz-1"), none, by decide⟩
  rcases hrun.denotes (by decide) with ⟨-, hlink⟩ | ⟨hnone, -⟩
  · exact absurd (hlink rfl) (by decide)
  · exact absurd hnone (by decide)

/-- The blank is lost in the shell: the link leads to another file, and is left alone. -/
example : let d : Dir := ⟨some (.link "boot/vmlinuz-2 "), none, none⟩
    (imageMagic ⟨true, false, false, false⟩ rootEnv d).dir = d ∧
      rootEnv.named d d.kimage = some 4 := by decide

end DebianKernel.Image
