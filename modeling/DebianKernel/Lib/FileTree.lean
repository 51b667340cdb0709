import DebianKernel.Lib.Text

/-!
# Path names in a tree of files

Directories, files and symbolic links, and what a path name leads to: it is cut at the slashes,
and each segment is looked up in the directory that was reached. The text of a symbolic link is
put in front of what is left of the path.

Results:
1. `walk_append_congr`: what may be exchanged at the end of a path may be so behind any path.
2. `walk_moves`, `walk_moves_isDir`: segments that stay where they are can be left out.
3. `isDir_of_getLast?`: a path that does not end in a name leads to a directory.
-/

/-- What an inode is. The text of a link is not empty. -/
inductive FileNode (ι : Type)
  | dir (entries : Text → Option ι) (parent : ι)
  | file
  | link (target : Text) (nonempty : target ≠ [])
  | other

/-- The inodes of a file system. A directory is in one place, below its parent. -/
structure FileTree (ι : Type) where
  node : ι → FileNode ι
  root : ι
  /-- How many links are followed in a path. -/
  maxLinks : Nat
  root_dir : ∃ entries, node root = .dir entries root
  parent_dir : ∀ {d entries parent}, node d = .dir entries parent →
    ∃ entries' parent', node parent = .dir entries' parent'
  parent_entry : ∀ {d entries parent name d' entries' parent'}, node d = .dir entries parent →
    entries name = some d' → node d' = .dir entries' parent' → parent' = d
  one_entry : ∀ {d entries parent name name' d' entries' parent'}, node d = .dir entries parent →
    entries name = some d' → entries name' = some d' → node d' = .dir entries' parent' →
    name = name'

namespace FileTree

open Text

variable {ι : Type} (fs : FileTree ι)

/-! ## Path names -/

def segments (path : Text) : List Text := path.splitOn '/'

/-- A segment that stays in the directory. -/
def isHere (c : Text) : Bool := c = [] ∨ c = ['.']

def isUp (c : Text) : Bool := c = ['.', '.']

def IsName (c : Text) : Prop := isHere c = false ∧ isUp c = false

def IsDir (d : ι) : Prop := ∃ entries parent, fs.node d = .dir entries parent

/-- Where a path name starts. -/
def start (d : ι) (path : Text) : ι := if path.head? = some '/' then fs.root else d

/-- The inode that segments lead to; `follow` goes on behind a link. -/
def walkWith (follow : ι → List Text → Option ι) : ι → List Text → Option ι
  | d, [] => some d
  | d, c :: cs =>
    match fs.node d with
    | .dir entries parent =>
      if isHere c then walkWith follow d cs
      else if isUp c then walkWith follow parent cs
      else match entries c with
        | none => none
        | some j =>
          match fs.node j with
          | .link target _ => follow (fs.start d target) (segments target ++ cs)
          | _ => walkWith follow j cs
    | _ => none

/-- The inode behind a link, if so many links more are followed, that one included. -/
def follow : Nat → ι → List Text → Option ι
  | 0, _, _ => none
  | n + 1, d, cs => fs.walkWith (follow n) d cs

/-- The inode that segments lead to, over so many links at most. -/
def walk (n : Nat) (d : ι) (cs : List Text) : Option ι := fs.walkWith (fs.follow n) d cs

/-- The inode that a path name leads to. -/
def resolve (cwd : ι) (path : Text) : Option ι :=
  if path = [] then none else fs.walk fs.maxLinks (fs.start cwd path) (segments path)

/-! ## One segment -/

theorem isName_iff {c : Text} : IsName c ↔ c ≠ [] ∧ c ≠ ['.'] ∧ c ≠ ['.', '.'] := by
  simp [IsName, isHere, isUp, and_assoc]

variable {fs}

@[simp] theorem walk_nil (n : Nat) (d : ι) : fs.walk n d [] = some d := rfl

theorem walk_of_not_isDir {d : ι} (h : ¬ fs.IsDir d) (n : Nat) (c : Text) (cs : List Text) :
    fs.walk n d (c :: cs) = none := by
  rw [walk, walkWith]
  split
  · next entries parent hd => exact absurd ⟨entries, parent, hd⟩ h
  · rfl

theorem walk_here {d : ι} (hd : fs.IsDir d) {c : Text} (hc : isHere c = true) (n : Nat)
    (cs : List Text) : fs.walk n d (c :: cs) = fs.walk n d cs := by
  obtain ⟨entries, parent, hd⟩ := hd
  rw [walk, walkWith, hd]
  exact if_pos hc

theorem walk_up {d p : ι} {entries : Text → Option ι} (hd : fs.node d = .dir entries p) (n : Nat)
    (cs : List Text) : fs.walk n d (['.', '.'] :: cs) = fs.walk n p cs := by
  rw [walk, walkWith, hd]
  rfl

/-- A segment that names an entry. -/
theorem walk_name {d p : ι} {entries : Text → Option ι} (hd : fs.node d = .dir entries p)
    {c : Text} (hc : IsName c) (n : Nat) (cs : List Text) : fs.walk n d (c :: cs) =
      (entries c).bind fun j => match fs.node j with
        | .link target _ => fs.follow n (fs.start d target) (segments target ++ cs)
        | _ => fs.walk n j cs := by
  rw [walk, walkWith, hd]
  dsimp only
  rw [if_neg (by rw [hc.1]; exact Bool.false_ne_true),
    if_neg (by rw [hc.2]; exact Bool.false_ne_true)]
  cases entries c with
  | none => rfl
  | some j => cases fs.node j <;> rfl

/-! ## Segments that stay -/

/-- Where the end of a path leads to, another end does behind any segments. -/
theorem walk_append_mono {xs ys : List Text} {i : ι}
    (h : ∀ n d, fs.walk n d xs = some i → fs.walk n d ys = some i) (n : Nat) (d : ι)
    (pre : List Text) (hi : fs.walk n d (pre ++ xs) = some i) :
    fs.walk n d (pre ++ ys) = some i := by
  induction n using Nat.strongRecOn generalizing d pre with
  | ind n ihn =>
    induction pre generalizing d with
    | nil => exact h n d hi
    | cons c pre ih =>
      rw [List.cons_append] at hi ⊢
      by_cases hd : fs.IsDir d
      · by_cases hhere : isHere c = true
        · rw [walk_here hd hhere] at hi ⊢
          exact ih d hi
        · obtain ⟨entries, p, hd⟩ := hd
          by_cases hup : isUp c = true
          · obtain rfl : c = ['.', '.'] := of_decide_eq_true hup
            rw [walk_up hd] at hi ⊢
            exact ih p hi
          · have hc : IsName c := ⟨Bool.eq_false_iff.mpr hhere, Bool.eq_false_iff.mpr hup⟩
            rw [walk_name hd hc] at hi ⊢
            obtain ⟨j, hj, hi⟩ := Option.bind_eq_some_iff.mp hi
            refine Option.bind_eq_some_iff.mpr ⟨j, hj, ?_⟩
            split at hi
            · cases n with
              | zero => cases hi
              | succ n =>
                rw [← List.append_assoc] at hi ⊢
                exact ihn n (Nat.lt_succ_self n) _ _ hi
            · exact ih j hi
      · rw [walk_of_not_isDir hd] at hi
        cases hi

/-- What is the same at the end of a path is the same behind any segments. -/
theorem walk_append_congr {xs ys : List Text} (h : ∀ n d, fs.walk n d xs = fs.walk n d ys)
    (n : Nat) (d : ι) (pre : List Text) : fs.walk n d (pre ++ xs) = fs.walk n d (pre ++ ys) := by
  refine Option.ext fun i => ⟨fun hi => ?_, fun hi => ?_⟩
  · exact walk_append_mono (fun n d hi => by rwa [← h]) n d pre hi
  · exact walk_append_mono (fun n d hi => by rwa [h]) n d pre hi

/-- A segment that stays can be left out if there are others behind it. -/
theorem walk_skip {c : Text} (hc : isHere c = true) {cs : List Text} (hne : cs ≠ []) (n : Nat)
    (d : ι) (pre : List Text) : fs.walk n d (pre ++ c :: cs) = fs.walk n d (pre ++ cs) := by
  refine walk_append_congr (fun n d => ?_) n d pre
  by_cases hd : fs.IsDir d
  · exact walk_here hd hc n cs
  · obtain ⟨b, bs, rfl⟩ := List.exists_cons_of_ne_nil hne
    rw [walk_of_not_isDir hd, walk_of_not_isDir hd]

theorem walk_heres {d : ι} (hd : fs.IsDir d) (n : Nat) {ts : List Text}
    (h : ∀ t ∈ ts, isHere t = true) : fs.walk n d ts = some d := by
  induction ts with
  | nil => rfl
  | cons t ts ih =>
    obtain ⟨ht, hts⟩ := List.forall_mem_cons.mp h
    rw [walk_here hd ht, ih hts]

/-- Behind `..` there is a directory. -/
theorem walk_up_heres (n : Nat) (d : ι) (pre : List Text) {ts : List Text}
    (h : ∀ t ∈ ts, isHere t = true) :
    fs.walk n d (pre ++ ['.', '.'] :: ts) = fs.walk n d (pre ++ [['.', '.']]) := by
  refine walk_append_congr (fun n d => ?_) n d pre
  by_cases hd : fs.IsDir d
  · obtain ⟨entries, p, hd⟩ := hd
    rw [walk_up hd, walk_up hd, walk_heres (fs.parent_dir hd) n h]
    rfl
  · rw [walk_of_not_isDir hd, walk_of_not_isDir hd]

/-- The segments that do not stay. -/
def moves (cs : List Text) : List Text := cs.filter (!isHere ·)

/-- The segments that stay can be left out if the last one moves. -/
theorem walk_moves {cs : List Text} (hlast : ∀ c ∈ cs.getLast?, isHere c = false) (n : Nat) (d : ι)
    (pre : List Text) : fs.walk n d (pre ++ moves cs) = fs.walk n d (pre ++ cs) := by
  induction cs generalizing pre with
  | nil => rfl
  | cons c cs ih =>
    rcases eq_or_ne cs [] with rfl | hne
    · rw [moves, List.filter_cons_of_pos (by rw [hlast c rfl]; rfl)]
      rfl
    · have hlast' : ∀ c ∈ cs.getLast?, isHere c = false := fun b hb =>
        hlast b (by rw [List.getLast?_cons_of_ne_nil hne]; exact hb)
      cases hc : isHere c with
      | true =>
        rw [walk_skip hc hne, moves, List.filter_cons_of_neg (by rw [hc]; decide)]
        exact ih hlast' pre
      | false =>
        rw [moves, List.filter_cons_of_pos (by rw [hc]; rfl), List.append_cons,
          List.append_cons pre c cs]
        exact ih hlast' (pre ++ [c])

/-- A path that leads to a directory does so with the segments that stay, and without. -/
theorem walk_moves_isDir {i : ι} (hi : fs.IsDir i) {cs : List Text} (n : Nat) (d : ι)
    (pre : List Text) :
    fs.walk n d (pre ++ moves cs) = some i ↔ fs.walk n d (pre ++ cs) = some i := by
  induction cs generalizing pre with
  | nil => exact Iff.rfl
  | cons c cs ih =>
    cases hc : isHere c with
    | true =>
      rw [moves, List.filter_cons_of_neg (by rw [hc]; decide), ← moves, ih pre]
      refine ⟨walk_append_mono (fun n d h => ?_) n d pre,
        walk_append_mono (fun n d h => ?_) n d pre⟩
      · by_cases hd : fs.IsDir d
        · rwa [walk_here hd hc]
        · cases cs with
          | nil => exact absurd (Option.some.inj h ▸ hi) hd
          | cons b cs =>
            rw [walk_of_not_isDir hd] at h
            cases h
      · by_cases hd : fs.IsDir d
        · rwa [walk_here hd hc] at h
        · rw [walk_of_not_isDir hd] at h
          cases h
    | false =>
      rw [moves, List.filter_cons_of_pos (by rw [hc]; rfl), ← moves, List.append_cons,
        List.append_cons pre c cs]
      exact ih (pre ++ [c])

/-- A path that does not end in a name leads to a directory. -/
theorem isDir_of_getLast? {n : Nat} {d i : ι} {cs : List Text} {c : Text}
    (hlast : cs.getLast? = some c) (hc : ¬ IsName c) (h : fs.walk n d cs = some i) :
    fs.IsDir i := by
  induction n using Nat.strongRecOn generalizing d cs with
  | ind n ihn =>
    induction cs generalizing d with
    | nil => cases hlast
    | cons b cs ih =>
      by_cases hd : fs.IsDir d
      · have hrest : ∀ j, fs.walk n j cs = some i → (cs = [] → fs.IsDir j) → fs.IsDir i := by
          intro j hj hnil
          rcases eq_or_ne cs [] with rfl | hne
          · rw [← Option.some.inj hj]
            exact hnil rfl
          · rw [List.getLast?_cons_of_ne_nil hne] at hlast
            exact ih hlast hj
        by_cases hhere : isHere b = true
        · rw [walk_here hd hhere] at h
          exact hrest d h fun _ => hd
        · by_cases hup : isUp b = true
          · obtain ⟨entries, p, hd⟩ := hd
            obtain rfl : b = ['.', '.'] := of_decide_eq_true hup
            rw [walk_up hd] at h
            exact hrest p h fun _ => fs.parent_dir hd
          · have hb : IsName b := ⟨Bool.eq_false_iff.mpr hhere, Bool.eq_false_iff.mpr hup⟩
            have hne : cs ≠ [] := by
              rintro rfl
              obtain rfl := Option.some.inj hlast
              exact hc hb
            obtain ⟨entries, p, hd⟩ := hd
            rw [walk_name hd hb] at h
            obtain ⟨j, -, h⟩ := Option.bind_eq_some_iff.mp h
            rw [List.getLast?_cons_of_ne_nil hne] at hlast
            split at h
            · cases n with
              | zero => cases h
              | succ n =>
                refine ihn n (Nat.lt_succ_self n) ?_ h
                rw [List.getLast?_append_of_ne_nil _ hne]
                exact hlast
            · exact ih hlast h
      · rw [walk_of_not_isDir hd] at h
        cases h

end FileTree
