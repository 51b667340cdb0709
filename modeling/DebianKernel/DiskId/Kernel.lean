import DebianKernel.DiskId.ShellVars

/-!
# Kernel parameters and device ids

`kernel_list` and `kernel_update` of the `linux-base` postinst read and replace the
device of the first `root=` parameter, and `id_to_path` gives the path of an id.

Results:
1. `kernelList_kernelUpdate`: after an update, the id is listed for the device.
2. `kernelList_of_not_updated`: without an update, no listed device is in the map.
-/

namespace DebianKernel.DiskId

open Text

/-- The map from device names to ids. -/
abbrev DeviceMap := Text → Option Text

namespace DeviceMap

/-- The name that stands for a device after the update. -/
def replace (map : DeviceMap) (bdev : Text) : Text := (map bdev).getD bdev

end DeviceMap

/-! ## `root=` -/

/-- A character of the class `\w`. -/
def isWordChar (c : Char) : Bool := isNameChar c

/-- The device at the start of the text, for `root=(\S+)`, and the text behind it. -/
def rootHere (t : Text) : Option (Text × Text) :=
  match t with
  | 'r' :: 'o' :: 'o' :: 't' :: '=' :: rest =>
    if rest.takeWhile (!isSpace ·) = [] then none
    else some (rest.takeWhile (!isSpace ·), rest.dropWhile (!isSpace ·))
  | _ => none

/-- The first match of `\broot=(\S+)`: the text before it, the device and the text
behind it. The flag tells that the character before the text is of the class `\w`. -/
def findRoot : Bool → Text → Option (Text × Text × Text)
  | _, [] => none
  | word, c :: t =>
    match if word then none else rootHere (c :: t) with
    | some (bdev, rest) => some ([], bdev, rest)
    | none => (findRoot (isWordChar c) t).map fun m => (c :: m.1, m.2)

/-- `kernel_list`. -/
def kernelList (cmdLine : Text) : List Text :=
  match findRoot false cmdLine with
  | some (_, bdev, _) => [bdev]
  | none => []

/-- `kernel_update`. -/
def kernelUpdate (cmdLine : Text) (map : DeviceMap) : Option Text :=
  match findRoot false cmdLine with
  | some (pre, bdev, rest) => (map bdev).map fun id => pre ++ "root=" ++ id ++ rest
  | none => none

/-! ## `id_to_path` -/

/-- `id_to_path`. `none` when it dies. -/
def idToPath (id : Text) : Option Text :=
  match id with
  | '/' :: _ => some id
  | 'L' :: 'A' :: 'B' :: 'E' :: 'L' :: '=' :: rest => some ("/dev/disk/by-label/" ++ rest)
  | 'U' :: 'U' :: 'I' :: 'D' :: '=' :: rest => some ("/dev/disk/by-uuid/" ++ rest)
  | _ => none

namespace KernelLemmas

theorem rootHere_eq_some {t bdev rest : Text} (h : rootHere t = some (bdev, rest)) :
    t = "root=" ++ bdev ++ rest ∧ bdev ≠ [] ∧ (∀ c ∈ bdev, isSpace c = false) ∧
      ∀ c ∈ rest.head?, isSpace c = true := by
  unfold rootHere at h
  split at h
  · next r =>
    split at h
    · cases h
    · next hne =>
      cases h
      refine ⟨?_, hne, ?_, ?_⟩
      · rw [List.append_assoc, List.takeWhile_append_dropWhile]
        rfl
      · intro c hc
        have := List.mem_takeWhile_imp hc
        simpa using this
      · intro c hc
        have := List.head?_dropWhile_not (!isSpace ·) r
        rw [Option.mem_def] at hc
        rw [hc] at this
        simpa using this
  · cases h

theorem rootHere_root {bdev rest : Text} (hne : bdev ≠ []) (hb : ∀ c ∈ bdev, isSpace c = false)
    (hrest : ∀ c ∈ rest.head?, isSpace c = true) :
    rootHere ("root=" ++ bdev ++ rest) = some (bdev, rest) := by
  have hall : ∀ c ∈ bdev, (!isSpace c) = true := fun c hc => by rw [hb c hc]; rfl
  have htake : (bdev ++ rest).takeWhile (!isSpace ·) = bdev := by
    rw [List.takeWhile_append_of_pos hall]
    cases rest with
    | nil => simp
    | cons d rest => rw [List.takeWhile_cons_of_neg (by simp [hrest d rfl]), List.append_nil]
  have hdrop : (bdev ++ rest).dropWhile (!isSpace ·) = rest := by
    rw [List.dropWhile_append_of_pos hall]
    cases rest with
    | nil => rfl
    | cons d rest => rw [List.dropWhile_cons_of_neg (by simp [hrest d rfl])]
  show (if (bdev ++ rest).takeWhile (!isSpace ·) = [] then none
    else some ((bdev ++ rest).takeWhile (!isSpace ·), (bdev ++ rest).dropWhile (!isSpace ·))) = _
  rw [htake, hdrop, if_neg hne]

theorem rootHere_isSome {t : Text} :
    (rootHere t).isSome = true ↔
      ∃ (d : Char) (r : Text), t = ("root=" : Text) ++ [d] ++ r ∧ isSpace d = false := by
  constructor
  · intro h
    obtain ⟨⟨bdev, rest⟩, h⟩ := Option.isSome_iff_exists.mp h
    obtain ⟨rfl, hne, hb, -⟩ := rootHere_eq_some h
    cases bdev with
    | nil => exact absurd rfl hne
    | cons d bdev => exact ⟨d, bdev ++ rest, by simp, hb d List.mem_cons_self⟩
  · rintro ⟨d, r, rfl, hd⟩
    show (if (d :: r).takeWhile (!isSpace ·) = [] then none else some (_, _)).isSome = true
    rw [List.takeWhile_cons_of_pos (by rw [hd]; rfl), if_neg (List.cons_ne_nil _ _)]
    rfl

/-- A match that is looked for in the first characters does not depend on the others. -/
theorem rootHere_prefix {p s : Text} (hp : 6 ≤ p.length) (h : rootHere (p ++ s) = none)
    (s' : Text) : rootHere (p ++ s') = none := by
  by_contra hsome
  obtain ⟨d, r, heq, hd⟩ := rootHere_isSome.mp (Option.isSome_iff_ne_none.mpr hsome)
  have hpre : ("root=" : Text) ++ [d] <+: p ++ s' := ⟨r, heq.symm⟩
  obtain ⟨q, hq⟩ := List.prefix_of_prefix_length_le hpre (List.prefix_append p s') hp
  have hold : (rootHere (p ++ s)).isSome = true :=
    rootHere_isSome.mpr ⟨d, q ++ s, by rw [← hq, List.append_assoc], hd⟩
  rw [h] at hold
  cases hold

theorem findRoot_cons_none {word : Bool} {c : Char} {t : Text}
    (h : (if word then none else rootHere (c :: t)) = none) :
    findRoot word (c :: t) = (findRoot (isWordChar c) t).map fun m => (c :: m.1, m.2) := by
  rw [findRoot, h]

theorem findRoot_cons_some {word : Bool} {c : Char} {t bdev rest : Text}
    (h : (if word then none else rootHere (c :: t)) = some (bdev, rest)) :
    findRoot word (c :: t) = some ([], bdev, rest) := by
  rw [findRoot, h]

/-- The match, and the same match with another device in it. -/
theorem findRoot_eq_some {word : Bool} {t pre bdev rest : Text}
    (h : findRoot word t = some (pre, bdev, rest)) :
    t = pre ++ "root=" ++ bdev ++ rest ∧
      ∀ id : Text, id ≠ [] → (∀ c ∈ id, isSpace c = false) →
        findRoot word (pre ++ "root=" ++ id ++ rest) = some (pre, id, rest) := by
  induction t generalizing word pre with
  | nil => cases h
  | cons c t ih =>
    cases hhere : if word then none else rootHere (c :: t) with
    | some m =>
      rw [findRoot_cons_some hhere] at h
      cases h
      cases word with
      | true => cases hhere
      | false =>
        obtain ⟨htext, -, -, hrest⟩ := rootHere_eq_some hhere
        exact ⟨htext, fun id hne hid => findRoot_cons_some (rootHere_root hne hid hrest)⟩
    | none =>
      rw [findRoot_cons_none hhere, Option.map_eq_some_iff] at h
      obtain ⟨⟨pre', m⟩, hm, heq⟩ := h
      cases heq
      obtain ⟨rfl, hother⟩ := ih hm
      refine ⟨rfl, ?_⟩
      intro id hne hid
      have hnew : (if word then none
          else rootHere (c :: (pre' ++ "root=" ++ id ++ rest))) = none := by
        cases word with
        | true => rfl
        | false =>
          have hold : rootHere ((c :: pre' ++ "root=") ++ (bdev ++ rest)) = none := by
            rw [← List.append_assoc]
            exact hhere
          have hlen : 6 ≤ (c :: pre' ++ "root=").length := by simp
          have hprefix := rootHere_prefix hlen hold (id ++ rest)
          rw [← List.append_assoc] at hprefix
          exact hprefix
      show findRoot word (c :: (pre' ++ "root=" ++ id ++ rest)) = _
      rw [findRoot_cons_none hnew, hother id hne hid]
      rfl

end KernelLemmas

open KernelLemmas

/-! ## Reading back an update -/

theorem kernelUpdate_eq_some {cmdLine new : Text} {map : DeviceMap}
    (h : kernelUpdate cmdLine map = some new) :
    ∃ pre bdev rest id, findRoot false cmdLine = some (pre, bdev, rest) ∧ map bdev = some id ∧
      new = pre ++ "root=" ++ id ++ rest := by
  unfold kernelUpdate at h
  split at h
  · next pre bdev rest hf =>
    obtain ⟨id, hid, rfl⟩ := Option.map_eq_some_iff.mp h
    exact ⟨pre, bdev, rest, id, hf, hid, rfl⟩
  · cases h

/-- The updated parameters list the id for the device. -/
theorem kernelList_kernelUpdate {cmdLine new : Text} {map : DeviceMap}
    (hid : ∀ bdev id, map bdev = some id → id ≠ [] ∧ ∀ c ∈ id, isSpace c = false)
    (h : kernelUpdate cmdLine map = some new) :
    kernelList new = (kernelList cmdLine).map map.replace := by
  obtain ⟨pre, bdev, rest, id, hf, hmap, rfl⟩ := kernelUpdate_eq_some h
  obtain ⟨hne, hspace⟩ := hid bdev id hmap
  have hnew := (findRoot_eq_some hf).2 id hne hspace
  unfold kernelList
  rw [hf, hnew]
  simp [DeviceMap.replace, hmap]

/-- Parameters that are not updated list no device that is in the map. -/
theorem kernelList_of_not_updated {cmdLine : Text} {map : DeviceMap}
    (h : kernelUpdate cmdLine map = none) :
    kernelList cmdLine = (kernelList cmdLine).map map.replace := by
  unfold kernelUpdate at h
  unfold kernelList
  split at h
  · next hf =>
    rw [Option.map_eq_none_iff] at h
    simp [DeviceMap.replace, h]
  · rfl

/-- The characters of updated parameters are from the old ones and from the id. -/
theorem kernelUpdate_chars {cmdLine new : Text} {map : DeviceMap}
    (h : kernelUpdate cmdLine map = some new) {c : Char} (hc : c ∈ new) :
    c ∈ cmdLine ∨ ∃ bdev id, map bdev = some id ∧ c ∈ id := by
  obtain ⟨pre, bdev, rest, id, hf, hmap, rfl⟩ := kernelUpdate_eq_some h
  obtain ⟨rfl, -⟩ := findRoot_eq_some hf
  simp only [List.mem_append] at hc ⊢
  rcases hc with ((hc | hc) | hc) | hc
  · exact .inl (.inl (.inl (.inl hc)))
  · exact .inl (.inl (.inl (.inr hc)))
  · exact .inr ⟨bdev, id, hmap, hc⟩
  · exact .inl (.inr hc)

end DebianKernel.DiskId
