import DebianKernel.Lib.Text
import Mathlib.Data.List.Nodup
import Mathlib.Data.List.Perm.Basic

/-!
# A walk through a directory tree

The files of a directory are met before those in its directories. In which order the entries of
one directory are met is not determined. A directory of one name is left out, and a link is not
followed.

Results:
1. `mem_walk`: what is met, in whatever order.
2. `nodup_walk`: nothing is met twice.
3. `deeper_after`, `chosen_before`: what is met before what.
-/

/-- What a directory holds under a name: a file, a link that may lead to a directory, or a
directory. -/
inductive DirEntry
  | file
  | link (target : Text) (toDir : Bool)
  | dir (names : List Text) (nodup : names.Nodup) (slash : ∀ n ∈ names, n ≠ [] ∧ '/' ∉ n)
      (entry : Text → DirEntry)

/-- The order in which the names of a directory are listed. -/
structure ListingOrder where
  listdir : List Text → List Text → List Text
  perm : ∀ top names, (listdir top names).Perm names

/-- A file that is met, or a link, which has a text. -/
structure Visit where
  path : List Text
  target : Option Text

namespace DirEntry

def isDir : DirEntry → Bool
  | dir _ _ _ _ => true
  | _ => false

/-- A link to a directory is not met. -/
def visit (path : List Text) : DirEntry → Option Visit
  | file => some ⟨path, none⟩
  | link target false => some ⟨path, some target⟩
  | _ => none

/-- What is met below a directory. -/
def walk (skipped : Text) (order : ListingOrder) : List Text → DirEntry → List Visit
  | top, dir names _ _ entry =>
    (order.listdir top names).filterMap (fun n => (entry n).visit (top ++ [n])) ++
      (order.listdir top names).flatMap fun n =>
        if n = skipped then [] else walk skipped order (top ++ [n]) (entry n)
  | _, _ => []

/-- What a path leads to. -/
def find (skipped : Text) : List Text → DirEntry → Option DirEntry
  | [], e => some e
  | n :: path, dir names _ _ entry =>
    if names.contains n ∧ ¬ (n = skipped ∧ (entry n).isDir) then find skipped path (entry n)
    else none
  | _, _ => none

variable {skipped : Text} {order : ListingOrder}

theorem visit_path {path : List Text} {e : DirEntry} {v : Visit} (h : e.visit path = some v) :
    v.path = path := by
  cases e with
  | file => rw [← Option.some.inj h]
  | link target toDir =>
    cases toDir with
    | true => cases h
    | false => rw [← Option.some.inj h]
  | dir names nodup slash entry => cases h

theorem isDir_of_visit {path : List Text} {e : DirEntry} {v : Visit} (h : e.visit path = some v) :
    e.isDir = false := by
  cases e with
  | file => rfl
  | link target toDir => rfl
  | dir names nodup slash entry => cases h

theorem isDir_of_find {n : Text} {path : List Text} {e e' : DirEntry}
    (h : find skipped (n :: path) e = some e') : e.isDir = true := by
  cases e with
  | file => cases h
  | link target toDir => cases h
  | dir names nodup slash entry => rfl

theorem find_append (d path : List Text) (e : DirEntry) :
    find skipped (d ++ path) e = (find skipped d e).bind (find skipped path) := by
  induction d generalizing e with
  | nil => rfl
  | cons n d ih =>
    cases e with
    | file => rfl
    | link target toDir => rfl
    | dir names nodup slash entry =>
      rw [List.cons_append, find, find]
      split
      · exact ih (entry n)
      · rfl

theorem find_slash {path : List Text} {e e' : DirEntry} (h : find skipped path e = some e') :
    ∀ n ∈ path, n ≠ [] ∧ '/' ∉ n := by
  induction path generalizing e with
  | nil => exact fun _ h => absurd h List.not_mem_nil
  | cons n path ih =>
    cases e with
    | file => cases h
    | link target toDir => cases h
    | dir names nodup slash entry =>
      rw [find] at h
      split at h
      · next hn => exact List.forall_mem_cons.mpr ⟨slash n (List.contains_iff_mem.mp hn.1), ih h⟩
      · cases h

/-! ## What is met -/

theorem mem_listdir {top names : List Text} {n : Text} :
    n ∈ order.listdir top names ↔ n ∈ names := (order.perm top names).mem_iff

theorem mem_walk {top : List Text} {e : DirEntry} {v : Visit} :
    v ∈ walk skipped order top e ↔ ∃ path, path ≠ [] ∧ v.path = top ++ path ∧
      ∃ e', find skipped path e = some e' ∧ e'.visit v.path = some v := by
  induction e generalizing top with
  | file =>
    refine iff_of_false List.not_mem_nil ?_
    rintro ⟨path, hne, -, e', hfind, -⟩
    obtain ⟨n, path, rfl⟩ := List.exists_cons_of_ne_nil hne
    cases hfind
  | link target toDir =>
    refine iff_of_false List.not_mem_nil ?_
    rintro ⟨path, hne, -, e', hfind, -⟩
    obtain ⟨n, path, rfl⟩ := List.exists_cons_of_ne_nil hne
    cases hfind
  | dir names nodup slash entry ih =>
    rw [walk, List.mem_append, List.mem_filterMap, List.mem_flatMap]
    constructor
    · rintro (⟨n, hn, hvisit⟩ | ⟨n, hn, hv⟩)
      · have hpath := visit_path hvisit
        have hmem : names.contains n = true := List.contains_iff_mem.mpr (mem_listdir.mp hn)
        refine ⟨[n], List.cons_ne_nil _ _, hpath, entry n, ?_, hpath ▸ hvisit⟩
        rw [find, if_pos ⟨hmem, by rw [isDir_of_visit hvisit]; simp⟩]
        rfl
      · split at hv
        · cases hv
        · next hskip =>
          have hmem : names.contains n = true := List.contains_iff_mem.mpr (mem_listdir.mp hn)
          obtain ⟨path, hne, hpath, e', hfind, hvisit⟩ := (ih n).mp hv
          refine ⟨n :: path, List.cons_ne_nil _ _, ?_, e', ?_, hvisit⟩
          · rw [hpath, List.append_assoc]
            rfl
          · rw [find, if_pos ⟨hmem, fun h => hskip h.1⟩, hfind]
    · rintro ⟨path, hne, hpath, e', hfind, hvisit⟩
      obtain ⟨n, path, rfl⟩ := List.exists_cons_of_ne_nil hne
      rw [find] at hfind
      split at hfind
      · next hn =>
        rcases eq_or_ne path [] with rfl | hpathne
        · obtain rfl := Option.some.inj hfind
          exact .inl ⟨n, mem_listdir.mpr (List.contains_iff_mem.mp hn.1), hpath ▸ hvisit⟩
        · have hdir : (entry n).isDir = true := by
            obtain ⟨b, path, rfl⟩ := List.exists_cons_of_ne_nil hpathne
            exact isDir_of_find hfind
          refine .inr ⟨n, mem_listdir.mpr (List.contains_iff_mem.mp hn.1), ?_⟩
          rw [if_neg fun h => hn.2 ⟨h, hdir⟩]
          refine (ih n).mpr ⟨path, hpathne, ?_, e', hfind, hvisit⟩
          rw [hpath, List.append_assoc]
          rfl
      · cases hfind

/-- Behind a name, the path goes on. -/
theorem path_of_mem_below {top : List Text} {n : Text} {e : DirEntry} {v : Visit}
    (hv : v ∈ if n = skipped then [] else walk skipped order (top ++ [n]) e) :
    ∃ b path, v.path = top ++ n :: b :: path := by
  split at hv
  · cases hv
  · obtain ⟨path, hne, hpath, -⟩ := mem_walk.mp hv
    obtain ⟨b, path, rfl⟩ := List.exists_cons_of_ne_nil hne
    exact ⟨b, path, by rw [hpath, List.append_assoc]; rfl⟩

theorem nodup_walk (top : List Text) (e : DirEntry) : (walk skipped order top e).Nodup := by
  induction e generalizing top with
  | file => exact List.nodup_nil
  | link target toDir => exact List.nodup_nil
  | dir names nodup slash entry ih =>
    have hlisted : (order.listdir top names).Nodup := (order.perm top names).nodup_iff.mpr nodup
    rw [walk]
    refine List.nodup_append.mpr ⟨hlisted.filterMap ?_, List.nodup_flatMap.mpr ⟨?_, ?_⟩, ?_⟩
    · intro n n' v hv hv'
      have hpath := (visit_path hv).symm.trans (visit_path hv')
      exact List.singleton_inj.mp (List.append_cancel_left hpath)
    · intro n _
      split
      · exact List.nodup_nil
      · exact ih n (top ++ [n])
    · refine hlisted.imp fun hne => ?_
      intro v hv hv'
      obtain ⟨b, path, hpath⟩ := path_of_mem_below hv
      obtain ⟨b', path', hpath'⟩ := path_of_mem_below hv'
      exact hne (List.cons.inj (List.append_cancel_left (hpath.symm.trans hpath'))).1
    · intro v hv v' hv' heq
      obtain ⟨n, -, hvisit⟩ := List.mem_filterMap.mp hv
      obtain ⟨n', -, hv'⟩ := List.mem_flatMap.mp hv'
      obtain ⟨b, path, hpath⟩ := path_of_mem_below hv'
      have hone := (visit_path hvisit).symm.trans ((congrArg Visit.path heq).trans hpath)
      cases (List.cons.inj (List.append_cancel_left hone)).2

/-! ## What is met first -/

/-- What is met below a directory is met in that order. -/
theorem walk_sublist {d : List Text} {e e' : DirEntry} (h : find skipped d e = some e')
    (top : List Text) : (walk skipped order (top ++ d) e').Sublist (walk skipped order top e) := by
  induction d generalizing e top with
  | nil =>
    obtain rfl := Option.some.inj h
    rw [List.append_nil]
  | cons n d ih =>
    cases e with
    | file => cases h
    | link target toDir => cases h
    | dir names nodup slash entry =>
      rw [find] at h
      split at h
      · next hn =>
        have hrest := ih h (top ++ [n])
        rw [List.append_assoc] at hrest
        by_cases hskip : n = skipped
        · -- only a file or a link may have that name
          have hnil : walk skipped order (top ++ [n]) (entry n) = [] := by
            cases hentry : entry n with
            | file => rfl
            | link target toDir => rfl
            | dir names' nodup' slash' entry' =>
              rw [hentry] at hn
              exact absurd ⟨hskip, rfl⟩ hn.2
          rw [hnil] at hrest
          have hbelow : walk skipped order (top ++ n :: d) e' = [] :=
            List.eq_nil_of_sublist_nil hrest
          rw [hbelow]
          exact List.nil_sublist _
        · rw [walk]
          refine hrest.trans (List.Sublist.trans ?_ (List.sublist_append_right _ _))
          have hmem : n ∈ order.listdir top names := mem_listdir.mpr (List.contains_iff_mem.mp hn.1)
          obtain ⟨s, t, hst⟩ := List.append_of_mem hmem
          rw [hst, List.flatMap_append, List.flatMap_cons, if_neg hskip]
          exact (List.sublist_append_left _ _).trans (List.sublist_append_right _ _)
      · cases h

theorem mem_walk_below {d path : List Text} {e : DirEntry} {v : Visit}
    (hv : v ∈ walk skipped order [] e) (hpath : v.path = d ++ path) (hne : path ≠ []) :
    ∃ e', find skipped d e = some e' ∧ v ∈ walk skipped order d e' := by
  obtain ⟨p, -, hp, e₁, hfind, hvisit⟩ := mem_walk.mp hv
  rw [List.nil_append] at hp
  rw [← hp, hpath, find_append] at hfind
  obtain ⟨e', hd, hfind⟩ := Option.bind_eq_some_iff.mp hfind
  exact ⟨e', hd, mem_walk.mpr ⟨path, hne, hpath, e₁, hfind, hvisit⟩⟩

/-- Two that are met below one directory. -/
theorem pair_sublist {d path path' : List Text} {e : DirEntry} {v v' : Visit}
    (hv : v ∈ walk skipped order [] e) (hv' : v' ∈ walk skipped order [] e)
    (hpath : v.path = d ++ path) (hpath' : v'.path = d ++ path') (hne : path ≠ [])
    (hne' : path' ≠ [])
    (h : ∀ e', v ∈ walk skipped order d e' → v' ∈ walk skipped order d e' →
      [v, v'].Sublist (walk skipped order d e')) :
    [v, v'].Sublist (walk skipped order [] e) := by
  obtain ⟨e', hfind, hwalk⟩ := mem_walk_below hv hpath hne
  obtain ⟨e₂, hfind', hwalk'⟩ := mem_walk_below hv' hpath' hne'
  obtain rfl := Option.some.inj (hfind.symm.trans hfind')
  exact (h e' hwalk hwalk').trans (walk_sublist hfind [])

theorem pair_append {α : Type} {x y : α} {l l' : List α} (hx : x ∈ l) (hy : y ∈ l') :
    [x, y].Sublist (l ++ l') :=
  List.Sublist.append (List.singleton_sublist.mpr hx) (List.singleton_sublist.mpr hy)

/-- What is met in a directory itself. -/
theorem visit_of_mem_walk {d names : List Text} {nodup : names.Nodup}
    {slash : ∀ n ∈ names, n ≠ [] ∧ '/' ∉ n} {entry : Text → DirEntry} {v : Visit} {n : Text}
    (hv : v ∈ walk skipped order d (dir names nodup slash entry)) (hpath : v.path = d ++ [n]) :
    n ∈ names ∧ (entry n).visit (d ++ [n]) = some v := by
  rw [walk] at hv
  rcases List.mem_append.mp hv with hfile | hbelow
  · obtain ⟨c, hc, hvisit⟩ := List.mem_filterMap.mp hfile
    have hone := hpath.symm.trans (visit_path hvisit)
    obtain rfl := List.singleton_inj.mp (List.append_cancel_left hone)
    exact ⟨mem_listdir.mp hc, hvisit⟩
  · obtain ⟨c, -, hbelow⟩ := List.mem_flatMap.mp hbelow
    obtain ⟨c', rest, hrest⟩ := path_of_mem_below hbelow
    cases (List.cons.inj (List.append_cancel_left (hpath.symm.trans hrest))).2

/-- A file comes before those in the directories next to it. -/
theorem deeper_after {d path : List Text} {n b : Text} {e : DirEntry} {v v' : Visit}
    (hv : v ∈ walk skipped order [] e) (hv' : v' ∈ walk skipped order [] e)
    (hpath : v.path = d ++ [n]) (hpath' : v'.path = d ++ b :: path) (hne : path ≠ []) :
    [v, v'].Sublist (walk skipped order [] e) := by
  refine pair_sublist hv hv' hpath hpath' (List.cons_ne_nil _ _) (List.cons_ne_nil _ _) ?_
  intro e' hwalk hwalk'
  cases e' with
  | file => cases hwalk
  | link target toDir => cases hwalk
  | dir names nodup slash entry =>
    obtain ⟨hn, hvisit⟩ := visit_of_mem_walk hwalk hpath
    rw [walk] at hwalk' ⊢
    refine pair_append (List.mem_filterMap.mpr ⟨n, mem_listdir.mpr hn, hvisit⟩) ?_
    refine (List.mem_append.mp hwalk').resolve_left fun hfile => ?_
    obtain ⟨c, -, hvisit⟩ := List.mem_filterMap.mp hfile
    have hone := hpath'.symm.trans (visit_path hvisit)
    exact hne (List.cons.inj (List.append_cancel_left hone)).2

/-! ## An order -/

/-- The names of which a path is chosen are listed first. -/
def choose (p : List Text → Bool) : ListingOrder where
  listdir top names :=
    names.filter (fun n => p (top ++ [n])) ++ names.filter fun n => !p (top ++ [n])
  perm _ _ := List.filter_append_perm _ _

/-- A file that is chosen comes before one next to it that is not. -/
theorem chosen_before {p : List Text → Bool} {d : List Text} {n b : Text} {e : DirEntry}
    {v v' : Visit} (hv : v ∈ walk skipped (choose p) [] e) (hv' : v' ∈ walk skipped (choose p) [] e)
    (hpath : v.path = d ++ [n]) (hpath' : v'.path = d ++ [b]) (hp : p v.path = true)
    (hp' : p v'.path = false) : [v, v'].Sublist (walk skipped (choose p) [] e) := by
  refine pair_sublist hv hv' hpath hpath' (List.cons_ne_nil _ _) (List.cons_ne_nil _ _) ?_
  intro e' hwalk hwalk'
  cases e' with
  | file => cases hwalk
  | link target toDir => cases hwalk
  | dir names nodup slash entry =>
    obtain ⟨hn, hvisit⟩ := visit_of_mem_walk hwalk hpath
    obtain ⟨hb, hvisit'⟩ := visit_of_mem_walk hwalk' hpath'
    rw [hpath] at hp
    rw [hpath'] at hp'
    rw [walk]
    refine List.Sublist.trans ?_ (List.sublist_append_left _ _)
    rw [choose, List.filterMap_append]
    refine pair_append (List.mem_filterMap.mpr ⟨n, List.mem_filter.mpr ⟨hn, hp⟩, hvisit⟩)
      (List.mem_filterMap.mpr ⟨b, List.mem_filter.mpr ⟨hb, ?_⟩, hvisit'⟩)
    rw [hp']
    rfl

end DirEntry
