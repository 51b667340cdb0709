import DebianKernel.Lib.FileTree
import Mathlib.Algebra.Order.BigOperators.Group.List
import Mathlib.Algebra.Order.Group.Nat

/-!
# A tree that tells paths apart

Each name in each directory is a directory, but one name in one directory: it is a file or a link.

Results:
1. `walk_maze_cons`: away from that name, where a path leads to can be read off its segments.
2. `walk_maze_deep`, `count_walk_names`: a path with `..` behind the link, and one of names alone,
lead to different places.
-/

namespace FileTree

open Text

/-- An inode: a directory by the names that lead to it, the last one first, or the odd one. -/
inductive Spot
  | dir (names : List Text)
  | odd

/-- A file, or a link with this text. -/
abbrev Odd := Option { target : Text // target ≠ [] }

variable (a : List Text) (x : Text) (o : Odd)

def spotNode : Spot → FileNode Spot
  | .dir l => .dir (fun c => some (if l = a ∧ c = x then .odd else .dir (c :: l))) (.dir l.tail)
  | .odd =>
    match o with
    | none => .file
    | some t => .link t.1 t.2

theorem spotNode_dir {a : List Text} {x : Text} {o : Odd} {s : Spot}
    {entries : Text → Option Spot} {p : Spot} (h : spotNode a x o s = .dir entries p) :
    ∃ l, s = .dir l ∧ p = .dir l.tail ∧
      ∀ c, entries c = some (if l = a ∧ c = x then .odd else .dir (c :: l)) := by
  cases s with
  | dir l =>
    obtain ⟨rfl, rfl⟩ := FileNode.dir.inj h
    exact ⟨l, rfl, rfl, fun _ => rfl⟩
  | odd => cases o <;> cases h

/-- The child of a directory that is one too. -/
theorem spotNode_child {a : List Text} {x : Text} {o : Odd} {l : List Text} {c : Text} {s : Spot}
    {entries : Text → Option Spot} {p : Spot}
    (hs : some (if l = a ∧ c = x then Spot.odd else .dir (c :: l)) = some s)
    (h : spotNode a x o s = .dir entries p) : s = .dir (c :: l) ∧ p = .dir l := by
  obtain ⟨l', rfl, rfl, -⟩ := spotNode_dir h
  split at hs
  · cases hs
  · obtain rfl := Spot.dir.inj (Option.some.inj hs)
    exact ⟨rfl, rfl⟩

def maze : FileTree Spot where
  node := spotNode a x o
  root := .dir []
  maxLinks := 1
  root_dir := ⟨_, rfl⟩
  parent_dir := fun h => by
    obtain ⟨l, -, rfl, -⟩ := spotNode_dir h
    exact ⟨_, _, rfl⟩
  parent_entry := fun h hs h' => by
    obtain ⟨l, rfl, -, he⟩ := spotNode_dir h
    exact (spotNode_child ((he _).symm.trans hs) h').2
  one_entry := fun h hs hs' h' => by
    obtain ⟨l, -, -, he⟩ := spotNode_dir h
    have h1 := (spotNode_child ((he _).symm.trans hs) h').1
    have h2 := (spotNode_child ((he _).symm.trans hs') h').1
    exact (List.cons.inj (Spot.dir.inj (h1.symm.trans h2))).1

/-- Where a segment leads to from a directory. -/
def stepTo (l : List Text) (c : Text) : List Text :=
  if isHere c then l else if isUp c then l.tail else c :: l

/-! ## Away from the odd one -/

variable {a x o}

theorem maze_isDir (l : List Text) : (maze a x o).IsDir (.dir l) := ⟨_, _, rfl⟩

theorem maze_start (path : Text) : (maze a x o).start (.dir []) path = .dir [] := by
  rw [start]
  split <;> rfl

theorem walk_maze_cons {l : List Text} {c : Text} (h : ¬ (l = a ∧ c = x)) (n : Nat)
    (cs : List Text) :
    (maze a x o).walk n (.dir l) (c :: cs) = (maze a x o).walk n (.dir (stepTo l c)) cs := by
  rw [stepTo]
  by_cases hhere : isHere c = true
  · rw [if_pos hhere, walk_here (maze_isDir l) hhere]
  · rw [if_neg hhere]
    by_cases hup : isUp c = true
    · obtain rfl : c = ['.', '.'] := of_decide_eq_true hup
      exact walk_up rfl n cs
    · have hc : IsName c := ⟨Bool.eq_false_iff.mpr hhere, Bool.eq_false_iff.mpr hup⟩
      rw [if_neg hup, walk_name rfl hc, if_neg h]
      rfl

/-- Segments that do not name the odd one. -/
theorem walk_maze_append {bs : List Text} (h : x ∉ bs) (l : List Text) (n : Nat) (cs : List Text) :
    (maze a x o).walk n (.dir l) (bs ++ cs) =
      (maze a x o).walk n (.dir (bs.foldl stepTo l)) cs := by
  induction bs generalizing l with
  | nil => rfl
  | cons b bs ih =>
    have hb : b ≠ x := fun hb => h (hb ▸ List.mem_cons_self)
    rw [List.cons_append, walk_maze_cons fun h => hb h.2,
      ih fun hx => h (List.mem_cons_of_mem b hx)]
    rfl

theorem stepTo_name {c : Text} (hc : IsName c) (l : List Text) : stepTo l c = c :: l := by
  rw [stepTo, hc.1, hc.2]
  rfl

/-- Each `..` stays in the root. -/
theorem walk_maze_ups (n k : Nat) (cs : List Text) :
    (maze a x o).walk n (.dir []) (List.replicate k ['.', '.'] ++ cs) =
      (maze a x o).walk n (.dir []) cs := by
  induction k with
  | zero => rfl
  | succ k ih =>
    rw [List.replicate_succ, List.cons_append, walk_up rfl]
    exact ih

/-- Names lead down to the odd one. -/
theorem walk_maze_names {bs : List Text} (hbs : ∀ b ∈ bs, IsName b) {l : List Text}
    (h : (bs.reverse ++ l).length ≤ a.length) (n : Nat) (cs : List Text) :
    (maze a x o).walk n (.dir l) (bs ++ cs) =
      (maze a x o).walk n (.dir (bs.reverse ++ l)) cs := by
  induction bs generalizing l with
  | nil => rfl
  | cons b bs ih =>
    obtain ⟨hb, hbs⟩ := List.forall_mem_cons.mp hbs
    have hl : l ≠ a := by
      rintro rfl
      rw [List.length_append, List.length_reverse, List.length_cons] at h
      omega
    rw [List.cons_append, walk_maze_cons fun h => hl h.1, stepTo_name hb,
      ih hbs (by simpa using h), List.reverse_cons, List.append_assoc]
    rfl

/-- The path to the odd one, if it is a file. -/
theorem walk_maze_file {bs : List Text} (hbs : ∀ b ∈ bs, IsName b) (hx : IsName x) (n : Nat) :
    (maze bs.reverse x none).walk n (.dir []) (bs ++ [x]) = some .odd := by
  rw [walk_maze_names hbs (by simp), List.append_nil, walk_name rfl hx, if_pos ⟨rfl, rfl⟩]
  rfl

/-! ## A link to a place far down -/

variable {w : Text}

/-- The text of a link that leads down from the root, by one name so many times and once more. -/
def downText (w : Text) (r : Nat) : Text := ['/'].intercalate ([] :: List.replicate (r + 1) w)

theorem downText_head (w : Text) (r : Nat) : (downText w r).head? = some '/' := by
  rw [downText, List.replicate_succ, List.intercalate_cons_cons]
  rfl

def downLink (w : Text) (r : Nat) : Odd :=
  some ⟨downText w r, fun h => by
    have hhead := downText_head w r
    rw [h] at hhead
    cases hhead⟩

theorem segments_downText (hw : '/' ∉ w) (r : Nat) :
    segments (downText w r) = [] :: List.replicate (r + 1) w := by
  refine List.splitOn_intercalate '/' ?_ (List.cons_ne_nil _ _)
  intro c hc
  rcases List.mem_cons.mp hc with rfl | hc
  · exact List.not_mem_nil
  · rwa [List.eq_of_mem_replicate hc]

/-- The odd one leads there, if a link may still be followed. -/
theorem walk_maze_link (hw : IsName w) (hslash : '/' ∉ w) (hx : IsName x) (hne : x ≠ w)
    (n r : Nat) (cs : List Text) :
    (maze a x (downLink w r)).walk (n + 1) (.dir a) (x :: cs) =
      (maze a x (downLink w r)).walk n (.dir (List.replicate (r + 1) w)) cs := by
  have hdown : ∀ k l, (List.replicate k w).foldl stepTo l = List.replicate k w ++ l := by
    intro k
    induction k with
    | zero => exact fun _ => rfl
    | succ k ih =>
      intro l
      rw [List.replicate_succ, List.foldl_cons, stepTo_name hw, ih, List.append_cons,
        ← List.replicate_succ', List.replicate_succ]
  have hnot : x ∉ List.replicate (r + 1) w := fun h => hne (List.eq_of_mem_replicate h)
  have hstart : (maze a x (downLink w r)).start (.dir a) (downText w r) = .dir [] :=
    if_pos (downText_head w r)
  rw [walk_name rfl hx, if_pos ⟨rfl, rfl⟩]
  calc
    (maze a x (downLink w r)).walk n
        ((maze a x (downLink w r)).start (.dir a) (downText w r)) (segments (downText w r) ++ cs)
      = (maze a x (downLink w r)).walk n (.dir []) (List.replicate (r + 1) w ++ cs) := by
        rw [hstart, segments_downText hslash, List.cons_append]
        exact walk_here (maze_isDir []) rfl _ _
    _ = (maze a x (downLink w r)).walk n (.dir (List.replicate (r + 1) w)) cs := by
        rw [walk_maze_append hnot, hdown, List.append_nil]

theorem count_stepTo {c : Text} (hc : c ≠ w) (l : List Text) :
    (stepTo l c).count w ≤ l.count w ∧ l.count w ≤ (stepTo l c).count w + 1 := by
  rw [stepTo]
  split
  · exact ⟨le_rfl, Nat.le_succ _⟩
  · split
    · cases l with
      | nil => exact ⟨le_rfl, Nat.le_succ _⟩
      | cons b l =>
        rw [List.tail_cons, List.count_cons]
        split <;> omega
    · rw [List.count_cons_of_ne hc]
      exact ⟨le_rfl, Nat.le_succ _⟩

/-- From far down, segments lead to a place that is still down there, and not farther. -/
theorem walk_maze_deep (ha : w ∉ a) {cs : List Text} (hcs : w ∉ cs) {l : List Text}
    (hl : cs.length < l.count w) (n : Nat) :
    ∃ l', (maze a x o).walk n (.dir l) cs = some (.dir l') ∧
      0 < l'.count w ∧ l'.count w ≤ l.count w := by
  induction cs generalizing l with
  | nil => exact ⟨l, rfl, hl, le_rfl⟩
  | cons c cs ih =>
    have hc : c ≠ w := fun hc => hcs (hc ▸ List.mem_cons_self)
    have hla : l ≠ a := by
      rintro rfl
      rw [List.count_eq_zero_of_not_mem ha] at hl
      exact absurd hl (Nat.not_lt_zero _)
    obtain ⟨hle, hge⟩ := count_stepTo hc l
    rw [List.length_cons] at hl
    obtain ⟨l', hwalk, hpos, hl'⟩ := ih (fun h => hcs (List.mem_cons_of_mem c h))
      (l := stepTo l c) (by omega)
    exact ⟨l', by rw [walk_maze_cons fun h => hla h.1, hwalk], hpos, hl'.trans hle⟩

/-- Names lead to a place that is not down there, or farther down than the link. -/
theorem count_walk_names (hw : IsName w) (hslash : '/' ∉ w) (hx : IsName x) (hne : x ≠ w) {r : Nat}
    {bs : List Text} (hbs : ∀ b ∈ bs, IsName b ∧ b ≠ w) {l : List Text}
    (hl : l.count w = 0 ∨ l.count w = r + 1) {n : Nat} {i : Spot}
    (h : (maze a x (downLink w r)).walk n (.dir l) bs = some i) :
    ∃ l', i = .dir l' ∧ (l'.count w = 0 ∨ l'.count w = r + 1) := by
  induction bs generalizing l n with
  | nil => exact ⟨l, (Option.some.inj h).symm, hl⟩
  | cons b bs ih =>
    obtain ⟨⟨hb, hbw⟩, hbs⟩ := List.forall_mem_cons.mp hbs
    by_cases hodd : l = a ∧ b = x
    · obtain ⟨rfl, rfl⟩ := hodd
      cases n with
      | zero =>
        rw [walk_name rfl hb, if_pos ⟨rfl, rfl⟩] at h
        cases h
      | succ n =>
        rw [walk_maze_link hw hslash hx hne] at h
        exact ih hbs (.inr (by rw [List.count_replicate_self])) h
    · rw [walk_maze_cons hodd, stepTo_name hb] at h
      exact ih hbs (by rwa [List.count_cons_of_ne hbw]) h

/-- There is a name that is not in a list. -/
theorem exists_fresh (cs : List Text) : ∃ w, IsName w ∧ '/' ∉ w ∧ w ∉ cs := by
  refine ⟨List.replicate ((cs.map List.length).sum + 1) 'w', isName_iff.mpr ⟨?_, ?_, ?_⟩, ?_, ?_⟩
  · exact List.cons_ne_nil _ _
  · exact fun h => absurd (List.cons.inj h).1 (by decide)
  · exact fun h => absurd (List.cons.inj h).1 (by decide)
  · exact fun h => absurd (List.eq_of_mem_replicate h) (by decide)
  · intro h
    have hle := List.le_sum_of_mem (List.mem_map_of_mem (f := List.length) h)
    rw [List.length_replicate] at hle
    exact absurd hle (Nat.not_succ_le_self _)

end FileTree
