import DebianKernel.DebianLinux.NewlineOrder
import DebianKernel.Lib.Lines
import DebianKernel.Lib.SortedPerm

/-!
# `linux-version sort`

The versions come from the arguments, or from the lines of the standard input, where a suffix
may follow a space. They are compared by `version_cmp`, where a run of digits is an integer of
any size. What stands before the first space is compared, and without a space this includes the
newline.

Results:
1. `lines_of_printed`: when the output has the lines that were sorted.
2. `key_order`: where the keys of two lines are in the order of their versions.
3. `sort_faithful_iff`: the inputs that are printed in version order.
-/

namespace DebianKernel.DebianLinux

open Text

/-! ## The program -/

/-- An element of `@versions`. -/
structure VersionLine where
  version : Text
  suffix : Text

namespace VersionLine

/-- `print @$_`. -/
def text (line : VersionLine) : Text := line.version ++ line.suffix

/-- `[$_, "\n"]`. -/
def ofArg (arg : Text) : VersionLine := ⟨arg, "\n"⟩

/-- `/^([^ ]*)(.*\n?)$/`: the rest of a line always matches. -/
def ofLine (line : Text) : VersionLine := ⟨line.takeWhile (· ≠ ' '), line.dropWhile (· ≠ ' ')⟩

end VersionLine

/-- `--reverse`, and the arguments behind it. -/
def sortOptions : List Text → Bool × List Text
  | [] => (false, [])
  | first :: rest => if first = "--reverse" then (true, rest) else (false, first :: rest)

/-- `@versions`. -/
def collectVersions (args : List Text) (stdin : Text) : List VersionLine :=
  if args = [] then (lines stdin).map .ofLine else args.map .ofArg

def sign (reverse : Bool) : Int := if reverse then -1 else 1

/-- `version_cmp($a, $b) * $sign` does not put the second one first. -/
def Before (reverse : Bool) (a b : Text) : Prop := versionCmp a b * sign reverse ≤ 0

instance (reverse : Bool) : DecidableRel (Before reverse) := fun a b =>
  inferInstanceAs (Decidable (versionCmp a b * sign reverse ≤ 0))

/-- What is printed for some correct sort. -/
def Printed (reverse : Bool) (versions : List VersionLine) (out : Text) : Prop :=
  ∃ sorted, SortedPerm (fun a b => Before reverse a.version b.version) versions sorted ∧
    out = sorted.flatMap VersionLine.text

/-- `sort_versions`. -/
def SortVersions (argv : List Text) (stdin out : Text) : Prop :=
  Printed (sortOptions argv).1 (collectVersions (sortOptions argv).2 stdin) out

/-! ## What is expected -/

/-- A line without its newline. -/
def chomp (line : Text) : Text := if line.getLast? = some '\n' then line.dropLast else line

/-- The lines of a text, without newlines. -/
def itemLines (t : Text) : List Text := (lines t).map chomp

/-- The input items. -/
def sortItems (args : List Text) (stdin : Text) : List Text :=
  if args = [] then itemLines stdin else args

/-- The version of an item: an argument, or what precedes the first space of a line. -/
def itemVersion (args : List Text) (item : Text) : Text :=
  if args = [] then item.takeWhile (· ≠ ' ') else item

/-- The output is the input in version order. -/
structure SortFaithful (argv : List Text) (stdin out : Text) : Prop where
  perm : (itemLines out).Perm (sortItems (sortOptions argv).2 stdin)
  ordered : (itemLines out).Pairwise fun a b => Before (sortOptions argv).1
    (itemVersion (sortOptions argv).2 a) (itemVersion (sortOptions argv).2 b)
  /-- As arguments, the versions of the lines are printed in the same order. -/
  agree : (sortOptions argv).2 = [] → ∀ out', Printed (sortOptions argv).1
    ((sortItems [] stdin).map fun item => .ofArg (itemVersion [] item)) out' →
      (itemLines out).Forall₂ (fun item version => versionCmp (itemVersion [] item) version = 0)
        (itemLines out')

/-- The version of a line of the standard input. -/
def lineVersion (line : Text) : Text := itemVersion [] (chomp line)

/-- No newline moves a version, and a line that is not finished is the last one. -/
structure LinesSafe (reverse : Bool) (stdin : Text) : Prop where
  newline : ∀ l ∈ lines stdin, ' ' ∉ l → '\n' ∈ l → ∀ l' ∈ lines stdin,
    ¬ NewlineMoves (lineVersion l) (lineVersion l')
  unfinished : ∀ l ∈ lines stdin, '\n' ∉ l → ∀ l' ∈ lines stdin, l' ≠ l →
    ¬ Before reverse (VersionLine.ofLine l).version (VersionLine.ofLine l').version

/-- The inputs that are sorted. -/
def SortSafe (argv : List Text) (stdin : Text) : Prop :=
  if (sortOptions argv).2 = [] then LinesSafe (sortOptions argv).1 stdin
  else ∀ arg ∈ (sortOptions argv).2, '\n' ∉ arg

namespace SortLemmas

/-! ## The order -/

theorem before_false {a b : Text} : Before false a b ↔ versionCmp a b ≤ 0 := by
  rw [Before, sign, if_neg Bool.false_ne_true, Int.mul_one]

theorem before_true {a b : Text} : Before true a b ↔ versionCmp b a ≤ 0 := by
  have hswap := versionCmp_total_preorder.2.1 b a
  rw [Before, sign, if_pos rfl, hswap, Int.mul_neg, Int.mul_one]

theorem before_trans (reverse : Bool) (a b c : Text) (hab : Before reverse a b)
    (hbc : Before reverse b c) : Before reverse a c := by
  have htrans := versionCmp_total_preorder.2.2.1
  cases reverse with
  | false =>
    rw [before_false] at *
    exact htrans a b c hab hbc
  | true =>
    rw [before_true] at *
    exact htrans c b a hbc hab

theorem versionCmp_total (a b : Text) : versionCmp a b ≤ 0 ∨ versionCmp b a ≤ 0 := by
  rw [versionCmp_nonpos, versionCmp_nonpos]
  exact le_total _ _

theorem before_total (reverse : Bool) (a b : Text) : Before reverse a b ∨ Before reverse b a := by
  cases reverse with
  | false =>
    rw [before_false, before_false]
    exact versionCmp_total a b
  | true =>
    rw [before_true, before_true]
    exact versionCmp_total b a

/-! ## The lines -/

theorem text_ofLine (line : Text) : (VersionLine.ofLine line).text = line :=
  List.takeWhile_append_dropWhile

theorem chomp_newline (body : Text) : chomp (body ++ ['\n']) = body := by
  rw [chomp, List.getLast?_concat, if_pos rfl, List.dropLast_concat]

theorem chomp_of_not_mem {line : Text} (h : '\n' ∉ line) : chomp line = line :=
  if_neg fun hlast => h (List.mem_of_getLast? hlast)

/-- A line is compared by its version, with the newline behind it if there is no space. -/
theorem version_ofLine {l : Text} (h : IsLineOrEnd l) :
    '\n' ∉ lineVersion l ∧ (VersionLine.ofLine l).version =
      if ' ' ∉ l ∧ '\n' ∈ l then lineVersion l ++ ['\n'] else lineVersion l := by
  have hsub : ∀ body : Text, '\n' ∉ body → '\n' ∉ body.takeWhile (· ≠ ' ') := fun body hbody hmem =>
    hbody ((List.takeWhile_prefix _).subset hmem)
  rcases h with ⟨body, hbody, rfl⟩ | ⟨hno, -⟩
  · rw [lineVersion, chomp_newline, itemVersion, if_pos rfl, VersionLine.ofLine]
    refine ⟨hsub body hbody, ?_⟩
    split
    · next h =>
      have hall : ∀ c ∈ body, decide (c ≠ ' ') = true := fun c hc => decide_eq_true fun heq =>
        h.1 (heq ▸ List.mem_append_left _ hc)
      rw [List.takeWhile_append_of_pos hall, List.takeWhile_eq_self_iff.mpr hall]
      rfl
    · next h =>
      have hspace : ' ' ∈ body := by
        by_contra hno
        refine h ⟨fun hmem => ?_, by simp⟩
        rcases List.mem_append.mp hmem with hmem | hmem
        · exact hno hmem
        · exact absurd (List.mem_singleton.mp hmem) (by decide)
      refine VersionLemmas.takeWhile_append_of_stop fun hall => ?_
      exact absurd (of_decide_eq_true (List.takeWhile_eq_self_iff.mp hall _ hspace))
        (not_not.mpr rfl)
  · rw [lineVersion, chomp_of_not_mem hno, itemVersion, if_pos rfl, if_neg fun h => hno h.2]
    exact ⟨hsub l hno, rfl⟩

/-- Two keys are in the order of their versions, unless a newline moves the second one. -/
theorem key_order {l l' : Text} (hl : IsLineOrEnd l) (hl' : IsLineOrEnd l')
    (hmoves : ' ' ∉ l' → '\n' ∈ l' → ¬ NewlineMoves (lineVersion l') (lineVersion l))
    (hle : versionCmp (VersionLine.ofLine l).version (VersionLine.ofLine l').version ≤ 0) :
    versionCmp (lineVersion l) (lineVersion l') ≤ 0 := by
  obtain ⟨hno, hkey⟩ := version_ofLine hl
  obtain ⟨hno', hkey'⟩ := version_ofLine hl'
  have hk : (VersionLine.ofLine l).version = lineVersion l ∨
      (VersionLine.ofLine l).version = lineVersion l ++ ['\n'] := by
    rw [hkey]
    split
    · exact .inr rfl
    · exact .inl rfl
  by_contra hnot
  have hlt : versionCmp (lineVersion l') (lineVersion l) < 0 := by
    rw [versionCmp_nonpos, not_le] at hnot
    exact versionCmp_neg.mpr hnot
  rw [hkey'] at hle
  split at hle
  · next h => exact hmoves h.1 h.2 ((newline_order_iff hno' hno hk).mp ⟨hlt, hle⟩)
  · -- the key of the first line is not before its version
    rw [versionCmp_nonpos] at hle
    rw [versionCmp_neg] at hlt
    rcases hk with heq | heq
    · rw [heq] at hle
      exact absurd hle (not_le_of_gt hlt)
    · rw [heq] at hle
      exact absurd hle (not_le_of_gt (lt_trans hlt (versionCmp_neg.mp (lt_newline hno))))

/-- A version that is moved is put in front by some sort. -/
theorem moved_order {l l' : Text} (hl : IsLineOrEnd l) (hl' : IsLineOrEnd l')
    (hspace : ' ' ∉ l) (hnewline : '\n' ∈ l)
    (hmoves : NewlineMoves (lineVersion l) (lineVersion l')) :
    versionCmp (lineVersion l) (lineVersion l') < 0 ∧
      versionCmp (VersionLine.ofLine l').version (VersionLine.ofLine l).version ≤ 0 := by
  obtain ⟨hno, hkey⟩ := version_ofLine hl
  obtain ⟨hno', hkey'⟩ := version_ofLine hl'
  rw [if_pos ⟨hspace, hnewline⟩] at hkey
  rw [hkey]
  refine (newline_order_iff hno hno' ?_).mpr hmoves
  rw [hkey']
  split
  · exact .inr rfl
  · exact .inl rfl

/-! ## The standard input -/

/-- The lines of an output are those that were sorted, if they are as many. -/
theorem lines_of_printed {versions : List VersionLine} {ls : List Text}
    (hls : ∀ l ∈ ls, IsLineOrEnd l) (hperm : (versions.map VersionLine.text).Perm ls)
    (hlength : (lines (versions.flatMap VersionLine.text)).length = ls.length) :
    lines (versions.flatMap VersionLine.text) = versions.map VersionLine.text := by
  rw [List.flatMap_def] at hlength ⊢
  refine lines_flatten_of_length (fun l hl => hls l (hperm.mem_iff.mp hl)) ?_
  rw [hlength, hperm.length_eq]

theorem map_text_ofLine (ls : List Text) :
    (ls.map VersionLine.ofLine).map VersionLine.text = ls := by
  rw [List.map_map]
  exact (List.map_congr_left fun l _ => text_ofLine l).trans (List.map_id ls)

/-- A line that comes strictly last is the last one that is printed. -/
theorem lines_of_safe {reverse : Bool} {stdin : Text} (hsafe : LinesSafe reverse stdin)
    {sorted : List VersionLine} (hperm : sorted.Perm ((lines stdin).map .ofLine))
    (hsorted : sorted.Pairwise fun a b => Before reverse a.version b.version) :
    lines (sorted.flatMap VersionLine.text) = sorted.map VersionLine.text := by
  have hmem : ∀ a ∈ sorted, ∃ l ∈ lines stdin, a = .ofLine l := by
    intro a ha
    obtain ⟨l, hl, rfl⟩ := List.mem_map.mp (hperm.mem_iff.mp ha)
    exact ⟨l, hl, rfl⟩
  have hone : sorted.Pairwise fun a b => IsLine a.text ∨ IsLine b.text := by
    refine (hperm.pairwise_iff fun h => h.symm).mpr (List.pairwise_map.mpr ?_)
    refine (lines_pairwise stdin).imp fun {l l'} h => .inl ?_
    rwa [text_ofLine]
  rw [List.flatMap_def]
  refine lines_flatten_of_pairwise (fun l hl => ?_) (List.pairwise_map.mpr ?_)
  · obtain ⟨a, ha, rfl⟩ := List.mem_map.mp hl
    obtain ⟨l₀, hl₀, rfl⟩ := hmem a ha
    rw [text_ofLine]
    exact lineOrEnd_of_mem_lines hl₀
  · refine (hsorted.and hone).imp_of_mem ?_
    rintro a b ha hb ⟨hbefore, hline⟩
    obtain ⟨l, hl, rfl⟩ := hmem a ha
    obtain ⟨l', hl', rfl⟩ := hmem b hb
    rw [text_ofLine, text_ofLine] at hline
    rw [text_ofLine]
    rcases lineOrEnd_of_mem_lines hl with hdone | ⟨hno, -⟩
    · exact hdone
    · rcases hline with hdone | ⟨body, -, rfl⟩
      · exact hdone
      · refine absurd hbefore (hsafe.unfinished l hl hno _ hl' fun heq => hno ?_)
        rw [← heq]
        simp

/-- The versions of the lines of an output. -/
theorem ordered_of_safe {reverse : Bool} {stdin : Text} (hsafe : LinesSafe reverse stdin)
    {sorted : List VersionLine} (hperm : sorted.Perm ((lines stdin).map .ofLine))
    (hsorted : sorted.Pairwise fun a b => Before reverse a.version b.version) :
    (sorted.map VersionLine.text).Pairwise fun l l' =>
      Before reverse (lineVersion l) (lineVersion l') := by
  refine List.pairwise_map.mpr (hsorted.imp_of_mem ?_)
  intro a b ha hb hbefore
  obtain ⟨l, hl, rfl⟩ := List.mem_map.mp (hperm.mem_iff.mp ha)
  obtain ⟨l', hl', rfl⟩ := List.mem_map.mp (hperm.mem_iff.mp hb)
  rw [text_ofLine, text_ofLine]
  have hline := lineOrEnd_of_mem_lines hl
  have hline' := lineOrEnd_of_mem_lines hl'
  cases reverse with
  | false =>
    rw [before_false] at hbefore ⊢
    exact key_order hline hline' (fun hs hn => hsafe.newline l' hl' hs hn l hl) hbefore
  | true =>
    rw [before_true] at hbefore ⊢
    exact key_order hline' hline (fun hs hn => hsafe.newline l hl hs hn l' hl') hbefore

theorem sorted_versionLine (reverse : Bool) {versions : List VersionLine} {a b : VersionLine}
    (ha : a ∈ versions) (hb : b ∈ versions) (hne : a ≠ b)
    (hbefore : Before reverse a.version b.version) :
    ∃ sorted, SortedPerm (fun a b => Before reverse a.version b.version) versions sorted ∧
      List.Sublist [a, b] sorted :=
  exists_sortedPerm_pair (fun a b c => before_trans reverse a.version b.version c.version)
    (fun a b => before_total reverse a.version b.version) ha hb hne hbefore

/-- What the lines must be if all outputs are complete and in order. -/
theorem linesSafe_of_faithful {reverse : Bool} {stdin : Text}
    (h : ∀ sorted, SortedPerm (fun a b => Before reverse a.version b.version)
      ((lines stdin).map .ofLine) sorted →
      (lines (sorted.flatMap VersionLine.text)).length = (lines stdin).length ∧
        (lines (sorted.flatMap VersionLine.text)).Pairwise fun l l' =>
          Before reverse (lineVersion l) (lineVersion l')) : LinesSafe reverse stdin := by
  -- two lines whose keys can come in this order come so in some output
  have hpair : ∀ l ∈ lines stdin, ∀ l' ∈ lines stdin, l ≠ l' →
      Before reverse (VersionLine.ofLine l).version (VersionLine.ofLine l').version →
      Before reverse (lineVersion l) (lineVersion l') ∧ IsLine l := by
    intro l hl l' hl' hne hbefore
    have hne' : VersionLine.ofLine l ≠ VersionLine.ofLine l' := fun heq => hne (by
      rw [← text_ofLine l, heq, text_ofLine])
    obtain ⟨sorted, hsorted, hsub⟩ := sorted_versionLine reverse
      (List.mem_map_of_mem hl) (List.mem_map_of_mem hl') hne' hbefore
    obtain ⟨hlength, hordered⟩ := h sorted hsorted
    have htexts : (sorted.map VersionLine.text).Perm (lines stdin) := by
      have hperm := hsorted.1.map VersionLine.text
      rwa [map_text_ofLine] at hperm
    have hlines := lines_of_printed (fun _ => lineOrEnd_of_mem_lines) htexts hlength
    have hsub' : List.Sublist [l, l'] (lines (sorted.flatMap VersionLine.text)) := by
      have hmap := hsub.map VersionLine.text
      rwa [List.map_cons, List.map_cons, List.map_nil, text_ofLine, text_ofLine, ← hlines] at hmap
    refine ⟨?_, ?_⟩
    · exact List.rel_of_pairwise_cons (hordered.sublist hsub') List.mem_cons_self
    · exact List.rel_of_pairwise_cons ((lines_pairwise _).sublist hsub') List.mem_cons_self
  constructor
  · intro l hl hspace hnewline l' hl' hmoves
    obtain ⟨hlt, hle⟩ := moved_order (lineOrEnd_of_mem_lines hl) (lineOrEnd_of_mem_lines hl')
      hspace hnewline hmoves
    have hne : l ≠ l' := by
      rintro rfl
      rw [versionCmp_neg] at hlt
      exact lt_irrefl _ hlt
    have hnot : ¬ versionCmp (lineVersion l') (lineVersion l) ≤ 0 := by
      rw [versionCmp_nonpos, not_le]
      exact versionCmp_neg.mp hlt
    cases reverse with
    | false => exact hnot (before_false.mp (hpair l' hl' l hl hne.symm (before_false.mpr hle)).1)
    | true => exact hnot (before_true.mp (hpair l hl l' hl' hne (before_true.mpr hle)).1)
  · intro l hl hno l' hl' hne hbefore
    obtain ⟨-, body, -, rfl⟩ := hpair l hl l' hl' hne.symm hbefore
    exact hno (by simp)

/-! ## The arguments -/

/-- The elements are arguments. -/
theorem eq_map_ofArg {versions : List VersionLine} {args : List Text}
    (h : versions.Perm (args.map .ofArg)) :
    versions = (versions.map VersionLine.version).map .ofArg ∧
      (versions.map VersionLine.version).Perm args := by
  constructor
  · rw [List.map_map]
    refine (List.map_id versions).symm.trans (List.map_congr_left fun a ha => ?_)
    obtain ⟨arg, -, rfl⟩ := List.mem_map.mp (h.mem_iff.mp ha)
    rfl
  · have hmap := h.map VersionLine.version
    rw [List.map_map] at hmap
    have hid : args.map (VersionLine.version ∘ .ofArg) = args :=
      (List.map_congr_left fun _ _ => rfl).trans (List.map_id args)
    rwa [hid] at hmap

theorem flatMap_ofArg (args : List Text) :
    (args.map VersionLine.ofArg).flatMap VersionLine.text = args.flatMap (· ++ ['\n']) := by
  rw [List.flatMap_map]
  rfl

theorem itemLines_args {args : List Text} (h : ∀ arg ∈ args, '\n' ∉ arg) :
    itemLines (args.flatMap (· ++ ['\n'])) = args := by
  induction args with
  | nil => rfl
  | cons arg args ih =>
    have hrest := ih fun a ha => h a (List.mem_cons_of_mem _ ha)
    rw [itemLines] at hrest ⊢
    rw [List.flatMap_cons, lines_cons_isLine ⟨arg, h arg List.mem_cons_self, rfl⟩, List.map_cons,
      chomp_newline, hrest]

/-- The output for arguments that have one line each. -/
theorem itemLines_printed {reverse : Bool} {args : List Text} {out : Text}
    (h : ∀ arg ∈ args, '\n' ∉ arg) (hout : Printed reverse (args.map .ofArg) out) :
    (itemLines out).Perm args ∧ (itemLines out).Pairwise (Before reverse) := by
  obtain ⟨sorted, ⟨hperm, hsorted⟩, rfl⟩ := hout
  obtain ⟨heq, hargs⟩ := eq_map_ofArg hperm
  have hitems : itemLines (sorted.flatMap VersionLine.text) = sorted.map VersionLine.version := by
    rw [heq, flatMap_ofArg, itemLines_args fun arg harg => h arg (hargs.mem_iff.mp harg), ← heq]
  rw [hitems]
  exact ⟨hargs, List.pairwise_map.mpr hsorted⟩

/-! ## Both paths -/

/-- The order of two versions is the one of their keys. -/
def KeyBefore (reverse : Bool) (a b : List Key) : Prop := if reverse then b ≤ a else a ≤ b

theorem before_iff_keys {reverse : Bool} {a b : Text} : Before reverse a b ↔
    KeyBefore reverse (keys (versionSplit a)) (keys (versionSplit b)) := by
  cases reverse with
  | false => rw [before_false, versionCmp_nonpos]; rfl
  | true => rw [before_true, versionCmp_nonpos]; rfl

theorem keyBefore_antisymm (reverse : Bool) (a b : List Key) (hab : KeyBefore reverse a b)
    (hba : KeyBefore reverse b a) : a = b := by
  cases reverse with
  | false => exact le_antisymm hab hba
  | true => exact le_antisymm hba hab

/-- Two lists in version order with the same versions agree place by place. -/
theorem forall₂_of_ordered {reverse : Bool} {version : Text → Text} {items versions : List Text}
    (hperm : (items.map version).Perm versions)
    (hitems : items.Pairwise fun a b => Before reverse (version a) (version b))
    (hversions : versions.Pairwise (Before reverse)) :
    items.Forall₂ (fun item v => versionCmp (version item) v = 0) versions := by
  have hkeys := hperm.map fun v => keys (versionSplit v)
  rw [List.map_map] at hkeys
  have heq := map_eq_of_sortedPerm (keyBefore_antisymm reverse) hkeys
    (hitems.imp before_iff_keys.mp) (hversions.imp before_iff_keys.mp)
  have hforall : List.Forall₂ (· = ·)
      (items.map ((fun v => keys (versionSplit v)) ∘ version))
      (versions.map fun v => keys (versionSplit v)) := by
    rw [heq]
    exact List.forall₂_refl _
  rw [List.forall₂_map_left_iff, List.forall₂_map_right_iff] at hforall
  exact hforall.imp fun _ _ h => NewlineLemmas.versionCmp_eq_zero_keys.mpr h

theorem linesSafe_of_sort {argv : List Text} {stdin : Text} {reverse : Bool}
    (hopt : sortOptions argv = (reverse, []))
    (h : ∀ out, SortVersions argv stdin out → SortFaithful argv stdin out) :
    LinesSafe reverse stdin := by
  refine linesSafe_of_faithful fun sorted hsorted => ?_
  have hprinted : SortVersions argv stdin (sorted.flatMap VersionLine.text) := by
    rw [SortVersions, hopt]
    exact ⟨sorted, hsorted, rfl⟩
  obtain ⟨hperm, hordered, -⟩ := h _ hprinted
  rw [hopt] at hperm hordered
  rw [itemLines, List.pairwise_map] at hordered
  refine ⟨?_, hordered⟩
  simpa [sortItems, itemLines] using hperm.length_eq

end SortLemmas

open SortLemmas

/-- What is printed is in version order exactly for these inputs. -/
theorem sort_faithful_iff (argv : List Text) (stdin : Text) :
    (∀ out, SortVersions argv stdin out → SortFaithful argv stdin out) ↔ SortSafe argv stdin := by
  rw [SortSafe]
  generalize hopt : sortOptions argv = opt
  obtain ⟨reverse, args⟩ := opt
  dsimp only
  split
  · next hargs =>
    subst hargs
    constructor
    · exact linesSafe_of_sort hopt
    · intro hsafe out hout
      rw [SortVersions, hopt] at hout
      obtain ⟨sorted, ⟨hcollect, hsorted⟩, rfl⟩ := hout
      have hperm : sorted.Perm ((lines stdin).map .ofLine) := hcollect
      have hlines := lines_of_safe hsafe hperm hsorted
      have hitems : (itemLines (sorted.flatMap VersionLine.text)).Perm (itemLines stdin) := by
        have htexts := (hperm.map VersionLine.text).map chomp
        rwa [map_text_ofLine, ← hlines] at htexts
      have hordered : (itemLines (sorted.flatMap VersionLine.text)).Pairwise fun a b =>
          Before reverse (itemVersion [] a) (itemVersion [] b) := by
        rw [itemLines, hlines]
        exact List.pairwise_map.mpr (ordered_of_safe hsafe hperm hsorted)
      refine ⟨?_, ?_, ?_⟩
      · rw [hopt]
        exact hitems
      · rw [hopt]
        exact hordered
      · rw [hopt]
        intro _ out' hout'
        have hno : ∀ v ∈ (sortItems [] stdin).map (itemVersion []), '\n' ∉ v := by
          intro v hv
          obtain ⟨item, hitem, rfl⟩ := List.mem_map.mp hv
          obtain ⟨l, hl, rfl⟩ := List.mem_map.mp hitem
          exact (version_ofLine (lineOrEnd_of_mem_lines hl)).1
        obtain ⟨hperm', hordered'⟩ := itemLines_printed hno (by
          rw [List.map_map]
          exact hout')
        exact forall₂_of_ordered ((hitems.map (itemVersion [])).trans hperm'.symm) hordered
          hordered'
  · next hargs =>
    have hcollect : collectVersions args stdin = args.map .ofArg := if_neg hargs
    constructor
    · intro hfaithful
      obtain ⟨sorted, hsorted⟩ := exists_sortedPerm
        (fun a b c => before_trans reverse a.version b.version c.version)
        (fun a b => before_total reverse a.version b.version) (args.map VersionLine.ofArg)
      obtain ⟨heq, hperm⟩ := eq_map_ofArg hsorted.1
      have hprinted : SortVersions argv stdin (sorted.flatMap VersionLine.text) := by
        rw [SortVersions, hopt, hcollect]
        exact ⟨sorted, hsorted, rfl⟩
      have hlength := (hfaithful _ hprinted).perm.length_eq
      rw [hopt, sortItems, if_neg hargs, itemLines, List.length_map, heq, flatMap_ofArg,
        ← hperm.length_eq] at hlength
      exact fun arg harg => newline_not_mem_of_length hlength arg (hperm.mem_iff.mpr harg)
    · intro hsafe out hout
      rw [SortVersions, hopt, hcollect] at hout
      obtain ⟨hperm, hordered⟩ := itemLines_printed hsafe hout
      refine ⟨?_, ?_, ?_⟩
      · rw [hopt, sortItems, if_neg hargs]
        exact hperm
      · rw [hopt]
        refine hordered.imp fun h => ?_
        rwa [itemVersion, itemVersion, if_neg hargs, if_neg hargs]
      · rw [hopt]
        exact fun hnil => absurd hnil hargs

/-- A flavour is printed behind another one whose name continues its own. -/
theorem powerpc_misplaced :
    ¬ ∀ argv stdin out, SortVersions argv stdin out → SortFaithful argv stdin out := by
  intro hclaim
  have hsafe := linesSafe_of_sort rfl
    (hclaim [] "3.16.0-4-powerpc\n3.16.0-4-powerpc64\n")
  refine hsafe.newline "3.16.0-4-powerpc\n" (by decide) (by decide) (by decide)
    "3.16.0-4-powerpc64\n" (by decide) ?_
  have hlast : lastComponent "3.16.0-4-powerpc" = some ("-powerpc" : Text) := by decide +kernel
  refine ⟨"3.16.0-4-powerpc", '6', "4", rfl, NewlineLemmas.versionCmp_eq_zero_keys.mpr rfl,
    .inr ⟨.inl rfl, by decide, "-powerpc", hlast, by decide⟩⟩

end DebianKernel.DebianLinux
