import DebianKernel.DiskId.DeviceIds
import Mathlib.Algebra.Group.Nat.Defs
import Mathlib.Data.List.Dedup

/-!
# New labels

The two loops of `assign_new_ids` that make up a label for a file system that can have
nothing else. A label that is too long is cut, so that a numeric suffix still fits.

Results:
1. `findLabel_eq_some`: a label is found, and how many were tried before.
2. `labelFor_length`, `labelFor_ne_nil`: how long a label is, and when it is empty.
3. `newLabel_valid_iff`: the inputs for which the label is valid and free.
-/

namespace DebianKernel.DiskId

open DeviceIdLemmas

/-- The different ids in `%id_map`. -/
def idCount (idMap : List (Text × Text)) : Nat := (idMap.map (·.1)).dedup.length

/-- Some round finds a label: it is not empty, fits, and no device has it. -/
def LabelValid (idMap : List (Text × Text)) (hostname : Text) (len : Nat) (path : Option Text)
    (type : Text) : Prop :=
  ∃ label, newLabel idMap hostname len path type = some label ∧ label ≠ [] ∧
    label.length ≤ len ∧ ∀ bdev, (tagId "LABEL" label, bdev) ∉ idMap

namespace LabelLemmas

/-- The loop stops at the first label that is free. -/
theorem findLabel_eq_some {idMap : List (Text × Text)} {label : Nat → Text} {rounds n : Nat}
    {l : Text} (h : findLabel idMap label rounds n = some l) :
    ∃ k, l = label (n + k) ∧ ∀ j < k, tagId "LABEL" (label (n + j)) ∈ idMap.map (·.1) := by
  induction rounds generalizing n with
  | zero => cases h
  | succ rounds ih =>
    rw [findLabel] at h
    split at h
    · next hany =>
      obtain ⟨k, hk, hbefore⟩ := ih h
      refine ⟨k + 1, by rw [hk, Nat.add_assoc, Nat.add_comm 1], ?_⟩
      intro j hj
      cases j with
      | zero =>
        obtain ⟨p, hp, heq⟩ := List.any_eq_true.mp hany
        rw [Nat.add_zero, ← of_decide_eq_true heq]
        exact List.mem_map_of_mem hp
      | succ j =>
        have hlater := hbefore j (Nat.lt_of_succ_lt_succ hj)
        rwa [Nat.add_assoc, Nat.add_comm 1] at hlater
    · exact ⟨0, (Option.some.inj h).symm, fun j hj => absurd hj (Nat.not_lt_zero j)⟩

theorem tagId_inj {name v w : Text} (h : tagId name v = tagId name w) : v = w :=
  (List.cons.inj (List.append_cancel_left h)).2

/-- Different labels that are all taken are not more than the ids. -/
theorem taken_le_idCount {idMap : List (Text × Text)} {label : Nat → Text} {k : Nat}
    (hinj : ∀ i j, label i = label j → i = j)
    (htaken : ∀ j < k, tagId "LABEL" (label j) ∈ idMap.map (·.1)) : k ≤ idCount idMap := by
  let tried := (List.range k).map fun n => tagId "LABEL" (label n)
  have hnodup : tried.Nodup := by
    refine List.Nodup.map (fun n n' heq => hinj n n' (tagId_inj heq)) List.nodup_range
  have hsub : tried ⊆ (idMap.map (·.1)).dedup := by
    intro id hid
    obtain ⟨n, hn, rfl⟩ := List.mem_map.mp hid
    exact List.mem_dedup.mpr (htaken n (List.mem_range.mp hn))
  have hlen := (List.subperm_of_subset hnodup hsub).length_le
  simp only [tried, List.length_map, List.length_range] at hlen
  exact hlen

theorem labelFor_none_inj {hostname type : Text} {len : Nat} (i j : Nat)
    (h : labelFor hostname len none type i = labelFor hostname len none type j) : i = j :=
  Nat.succ.inj (digits_inj h)

/-- The number in the label that is found. -/
theorem number_le {idMap : List (Text × Text)} {hostname type label : Text} {len : Nat}
    {path : Option Text} (h : newLabel idMap hostname len path type = some label) :
    ∃ k, label = labelFor hostname len path type k ∧
      (if path = none then k + 1 else k) ≤ idCount idMap + 1 := by
  obtain ⟨k, hk, htaken⟩ := findLabel_eq_some h
  simp only [Nat.zero_add] at hk htaken
  refine ⟨k, hk, ?_⟩
  cases path with
  | none =>
    rw [if_pos rfl]
    exact Nat.succ_le_succ (taken_le_idCount labelFor_none_inj htaken)
  | some path =>
    rw [if_neg (Option.some_ne_none path)]
    cases k with
    | zero => exact Nat.zero_le _
    | succ k =>
      have hinj : ∀ i j, labelFor hostname len (some path) type (i + 1) =
          labelFor hostname len (some path) type (j + 1) → i = j := fun i j => labelFor_inj
      exact Nat.succ_le_succ
        (taken_le_idCount hinj fun j hj => htaken (j + 1) (Nat.succ_lt_succ hj))

theorem suffix_length {n : Nat} (h : n ≤ 10 ^ 9) : ('-' :: Nat.toDigits 10 n).length ≤ 11 :=
  Nat.succ_le_succ ((Nat.length_toDigits_le_iff (by decide) (by decide)).mpr
    (lt_of_le_of_lt h (by decide)))

theorem substr_length (t : Text) {len s : Nat} (h : s ≤ len) :
    (substr t ((len : Int) - s)).length ≤ len - s := by
  have hnonneg : 0 ≤ (len : Int) - s := Int.sub_nonneg_of_le (Int.ofNat_le.mpr h)
  rw [substr, if_pos hnonneg, ← Int.ofNat_sub h, Int.toNat_natCast, List.length_take]
  exact Nat.min_le_left _ _

/-- A label with a suffix that fits is cut to the length. -/
theorem cut_length (t : Text) {suffix : Text} {len : Nat} (h : suffix.length ≤ len) :
    (substr t (len - suffix.length) ++ suffix).length ≤ len := by
  rw [List.length_append]
  exact Nat.le_sub_iff_add_le h |>.mp (substr_length t h)

end LabelLemmas

open LabelLemmas

/-- A label fits as long as its number has at most ten digits. -/
theorem labelFor_length {hostname type : Text} {len k : Nat} {path : Option Text}
    (hlen : 11 ≤ len) (hk : (if path = none then k + 1 else k) ≤ 10 ^ 9) :
    (labelFor hostname len path type k).length ≤ len := by
  cases path with
  | none => exact cut_length hostname ((suffix_length hk).trans hlen)
  | some path =>
    rw [if_neg (Option.some_ne_none path)] at hk
    have hsuffix : (if k = 0 then [] else '-' :: Nat.toDigits 10 k).length ≤ len := by
      split
      · exact Nat.zero_le len
      · exact (suffix_length hk).trans hlen
    rw [labelFor]
    generalize (if k = 0 then ([] : Text) else '-' :: Nat.toDigits 10 k) = suffix at hsuffix ⊢
    split
    · exact cut_length _ hsuffix
    · next hle => exact not_lt.mp hle

/-- The only empty label is tried first, for a path of which nothing is left, when the host
name is too long. -/
theorem labelFor_eq_nil {hostname type : Text} {len k : Nat} {path : Option Text}
    (hlen : 0 < len) :
    labelFor hostname len path type k = [] ↔
      k = 0 ∧ len ≤ hostname.length ∧ ∃ p, path = some p ∧ labelBase p type = [] := by
  cases path with
  | none => exact iff_of_false (by simp [labelFor]) (by simp)
  | some path =>
    rw [labelFor]
    cases k with
    | succ k =>
      simp only [Nat.succ_ne_zero, if_false]
      refine iff_of_false ?_ (by simp)
      split <;> simp
    | zero =>
      simp only [if_true, List.append_nil, List.length_append, List.length_singleton,
        List.length_nil, true_and, Option.some.injEq, exists_eq_left']
      split
      · next hlong =>
        have hcut : substr (labelBase path type) ((len : Int) - (0 : Nat)) =
            (labelBase path type).take len := by
          rw [substr, if_pos (by simp)]
          simp
        rw [hcut, List.take_eq_nil_iff, or_iff_right hlen.ne']
        refine ⟨fun hnil => ⟨?_, hnil⟩, And.right⟩
        rw [hnil, List.length_nil, Nat.add_zero] at hlong
        exact Nat.le_of_lt_succ hlong
      · next hshort =>
        refine iff_of_false (by simp) ?_
        rintro ⟨hle, hnil⟩
        rw [hnil, List.length_nil, Nat.add_zero] at hshort
        exact hshort (Nat.lt_succ_of_le hle)

/-- Every type has room for a suffix. -/
theorem labelLen_ge {fsType : Text} {fs : FsType} (hfs : filesystemType fsType = some fs) :
    11 ≤ labelLen fsType := by
  have hfound := List.find?_some (p := fun x : FsType => decide (x.name = fsType)) hfs
  have hmem := List.mem_of_find?_eq_some hfs
  rw [← of_decide_eq_true hfound]
  simp only [fsTypes, List.mem_cons, List.not_mem_nil, or_false] at hmem
  rcases hmem with rfl | rfl | rfl | rfl | rfl | rfl | rfl | rfl | rfl | rfl | rfl
  all_goals decide

/-- The label that is made up is valid and free, if and only if something is left of the path,
or there is none, or the host name leaves room for a dash, or the empty label is taken. -/
theorem newLabel_valid_iff {idMap : List (Text × Text)} (hcount : idCount idMap < 10 ^ 9)
    {fsType : Text} {fs : FsType} (hfs : filesystemType fsType = some fs)
    (hostname : Text) (path : Option Text) (type : Text) :
    LabelValid idMap hostname (labelLen fsType) path type ↔
      ∀ p, path = some p → labelBase p type = [] →
        hostname.length < labelLen fsType ∨ ∃ bdev, (tagId "LABEL" [], bdev) ∈ idMap := by
  have hlen := labelLen_ge hfs
  obtain ⟨label, hlabel⟩ := Option.isSome_iff_exists.mp
    (findLabel_isSome idMap hostname (labelLen fsType) path type)
  obtain ⟨k, hk, hnumber⟩ := number_le hlabel
  have hfree := findLabel_spec hlabel
  have hfits : label.length ≤ labelLen fsType := by
    rw [hk]
    exact labelFor_length hlen (hnumber.trans hcount)
  have hvalid : LabelValid idMap hostname (labelLen fsType) path type ↔ label ≠ [] := by
    constructor
    · rintro ⟨label', hlabel', hne, -⟩
      rwa [Option.some.inj (hlabel.symm.trans hlabel')]
    · exact fun hne => ⟨label, hlabel, hne, hfits, hfree⟩
  rw [hvalid]
  constructor
  · intro hne p hp hbase
    by_contra hboth
    obtain ⟨hlong, hunused⟩ := not_or.mp hboth
    -- the first label is empty, and it is free
    have hfirst : labelFor hostname (labelLen fsType) path type 0 = [] :=
      (labelFor_eq_nil (Nat.lt_of_lt_of_le (by decide) hlen)).mpr
        ⟨rfl, not_lt.mp hlong, p, hp, hbase⟩
    refine hne ?_
    rw [findLabel, hfirst, if_neg] at hlabel
    · exact (Option.some.inj hlabel).symm
    · intro hany
      obtain ⟨⟨id, bdev⟩, hmem, heq⟩ := List.any_eq_true.mp hany
      obtain rfl : id = tagId "LABEL" [] := of_decide_eq_true heq
      exact hunused ⟨bdev, hmem⟩
  · intro hcond hnil
    rw [hk, labelFor_eq_nil (Nat.lt_of_lt_of_le (by decide) hlen)] at hnil
    obtain ⟨rfl, hlong, p, hp, hbase⟩ := hnil
    rcases hcond p hp hbase with hshort | ⟨bdev, hmem⟩
    · exact absurd hlong (not_le.mpr hshort)
    · refine hfree bdev ?_
      rwa [hk, (labelFor_eq_nil (Nat.lt_of_lt_of_le (by decide) hlen)).mpr
        ⟨rfl, hlong, p, hp, hbase⟩]

theorem newLabel_valid_boot :
    LabelValid [] "debian" (labelLen "vfat") (some "/boot/efi") "vfat" := by
  have hfs : filesystemType "vfat" = some ⟨"vfat", fatSetLabel, none⟩ := rfl
  refine (newLabel_valid_iff (by decide) hfs "debian" (some "/boot/efi") "vfat").mpr ?_
  intro p hp hbase
  obtain rfl := Option.some.inj hp
  exact absurd hbase (by decide)

/-- The root of a host with a long name gets the empty label. -/
theorem root_label_empty :
    ¬ LabelValid [] "debian-server" (labelLen "vfat") (some "/") "vfat" := by
  rintro ⟨label, hlabel, hne, -⟩
  have hempty : newLabel [] "debian-server" (labelLen "vfat") (some "/") "vfat" = some [] := by
    decide
  exact hne (Option.some.inj (hlabel.symm.trans hempty))

end DebianKernel.DiskId
