import Mathlib.Algebra.Group.Nat.Defs
import Mathlib.Data.List.Infix
import Mathlib.Data.List.Nodup
import DebianKernel.Lib.Text

/-!
# Listing stable updates

`stable-update.sh`: the releases between two stable versions, their ChangeLog URLs, and the
shortlogs that `sed` inserts behind them. The loops stop at a version that is the same text as
the requested one, and the number of the release is an integer of 64 bits.

Results:
1. `nextUpdate_text`: the release after a version.
2. `listUrls_eq`, `listUrls_never`: what the first loop emits, and when it does not stop.
3. `inserted_eq_iff`: when each shortlog is inserted once.
4. `stable_update_iff`: the versions between which exactly the missing releases are listed.
-/

namespace DebianKernel.Debian.StableUpdate

open Text

/-! ## Versions -/

/-- What stands before the last `sep`. -/
def beforeLast (sep : Text) : Text → Option Text
  | [] => none
  | c :: t =>
    match beforeLast sep t with
    | some u => some (c :: u)
    | none => if sep <+: c :: t then some [] else none

/-- `${t%sep*}`. -/
def cutLast (sep t : Text) : Text := (beforeLast sep t).getD t

/-- `2.6.*.* | [3-9].*.* | ??.*.*`. -/
def hasUpdate (ver : Text) : Bool :=
  (("2.6." : Text) <+: ver ∧ '.' ∈ ver.drop 4) ∨
    (ver.head?.any (fun c => '3' ≤ c ∧ c ≤ '9') = true ∧ ver[1]? = some '.' ∧ '.' ∈ ver.drop 2) ∨
    (ver[2]? = some '.' ∧ '.' ∈ ver.drop 3)

/-- `base_version`. -/
def baseVersion (v : Text) : Text :=
  let ver := cutLast "-rc" v
  if hasUpdate ver then cutLast "." ver else ver

/-- The integers of the shell have 64 bits. -/
def wrap (n : Int) : Int := n.bmod (2 ^ 64)

def intText : Int → Text
  | .ofNat n => Nat.toDigits 10 n
  | .negSucc n => '-' :: Nat.toDigits 10 (n + 1)

/-- A decimal number. One with a zero at its start is not decimal in the shell. -/
def isDecimal (t : Text) : Bool :=
  t ≠ [] ∧ t.all Char.isDigit = true ∧ (t = ['0'] ∨ t.head? ≠ some '0')

/-- The value of a number in an arithmetic expression. -/
def arithValue : Text → Option Int
  | '-' :: t => if isDecimal t then some (wrap (-(Nat.ofDigitChars 10 t 0 : Int))) else none
  | t => if isDecimal t then some (wrap (Nat.ofDigitChars 10 t 0 : Int)) else none

/-- `add_update`. -/
def addUpdate (v : Text) (n : Int) : Option Text :=
  let base := baseVersion v
  let update := if base ++ ['.'] <+: v then v.drop (base.length + 1) else v
  let update := if update = v then ['0'] else update
  (arithValue update).map fun value =>
    let update := intText (wrap (value + n))
    if update = ['0'] then base else base ++ '.' :: update

/-- `next_update`. -/
def nextUpdate (v : Text) : Option Text := addUpdate v 1

/-! ## The loops -/

def changeLog (v : Text) : Text := "ChangeLog-" ++ v

def site : Text := "https://www.kernel.org/pub/linux/kernel/v3.x/"

def urlOf (v : Text) : Text := site ++ changeLog v

/-- The first loop. It runs in a subshell, so the current version stays what it is. -/
def listUrls (newVer : Text) : Nat → Text → Option (List Text)
  | 0, _ => none
  | fuel + 1, curVer =>
    if curVer = newVer then some []
    else (nextUpdate curVer).bind fun nextVer =>
      (listUrls newVer fuel nextVer).map (urlOf nextVer :: ·)

/-- `/ChangeLog-…/`, for a version with its dots escaped. -/
def names (v line : Text) : Bool := changeLog v <:+: line

/-- `sed -i '/ChangeLog-…/a …'`. -/
def appendAfter (v : Text) (text changelog : List Text) : List Text :=
  changelog.flatMap fun line => if names v line then line :: text else [line]

/-- The second loop: the shortlogs that are inserted, each as the versions it is between, and the
changelog. `log` is the shortlog as `sed` inserts it: what `git log` prints, less the backslashes
that the text of the command needs. -/
def insertLogs (log : Text → Text → List Text) (newVer : Text) :
    Nat → Text → List Text → Option (List (Text × Text) × List Text)
  | 0, _, _ => none
  | fuel + 1, curVer, changelog =>
    if curVer = newVer then some ([], changelog)
    else (nextUpdate curVer).bind fun nextVer =>
      let inserted := List.replicate (changelog.countP (names nextVer)) (curVer, nextVer)
      (insertLogs log newVer fuel nextVer
        (appendAfter nextVer (log curVer nextVer) changelog)).map fun (ranges, changelog) =>
          (inserted ++ ranges, changelog)

inductive Outcome
  | otherSeries
  | updated (urls : List Text) (ranges : List (Text × Text)) (changelog : List Text)

/-- The script, for so many rounds of its loops. `dch` is the changelog that `dch` leaves when it
is given the URLs. -/
def stableUpdate (log : Text → Text → List Text) (dch : List Text → List Text) (fuel : Nat)
    (curVer newVer : Text) : Option Outcome :=
  if baseVersion newVer ≠ baseVersion curVer then some .otherSeries
  else
    (listUrls newVer fuel curVer).bind fun urls =>
      (insertLogs log newVer fuel curVer (dch urls)).map fun (ranges, changelog) =>
        .updated urls ranges changelog

/-! ## The missing releases -/

/-- A version `X.Y` or `X.Y.Z`. -/
structure Version where
  x : Nat
  y : Nat
  z : Option Nat
  three_le : 3 ≤ x
  le_ninetyNine : x ≤ 99

namespace Version

def series (v : Version) : Text := Nat.toDigits 10 v.x ++ '.' :: Nat.toDigits 10 v.y

def text (v : Version) : Text :=
  match v.z with
  | none => v.series
  | some z => v.series ++ '.' :: Nat.toDigits 10 z

/-- The number of the release in its series. -/
def update (v : Version) : Nat := v.z.getD 0

/-- The release with a number. -/
def release (v : Version) (k : Nat) : Version := { v with z := some k }

/-- The release before the one with the number `k`, from this version on. -/
def before (v : Version) (k : Nat) : Version :=
  if k = v.update + 1 then v else v.release (k - 1)

/-- The releases after a version, each with the one before it. -/
def releases (v : Version) (n : Nat) : List (Text × Text) :=
  (List.range' (v.update + 1) n).map fun k => ((v.before k).text, (v.release k).text)

end Version

/-- The releases after `cur`, up to and including `new`. -/
def missing (cur new : Version) : List (Text × Text) := cur.releases (new.update - cur.update)

def missingUrls (cur new : Version) : List Text := (missing cur new).map fun r => urlOf r.2

/-- The changelog without the URLs: what stands before them in the new entry, and all that
follows. -/
structure Changelog where
  head : List Text
  rest : List Text

def indent : Text := "    "

/-- The changelog with the URLs, each on a line of its own. -/
def Changelog.withUrls (c : Changelog) (urls : List Text) : List Text :=
  c.head ++ urls.map (indent ++ ·) ++ c.rest

/-- Both loops stop, and list and insert the missing releases once each. -/
def ListsMissing (log : Text → Text → List Text) (dch : List Text → List Text)
    (cur new : Version) : Prop :=
  ∃ fuel changelog, stableUpdate log dch fuel cur.text new.text =
    some (.updated (missingUrls cur new) (missing cur new) changelog)

/-- No line but the URL of a missing release names it when its shortlog is inserted. -/
structure NamedOnce (log : Text → Text → List Text) (c : Changelog) (cur new : Version) : Prop where
  /-- No number of a missing release starts with the digits of another one. -/
  urls : new.update < 10 * (cur.update + 1)
  entry : ∀ k, cur.update < k → k ≤ new.update → ∀ line ∈ c.head ++ c.rest,
    names (cur.release k).text line = false
  logs : ∀ j k, cur.update < j → j < k → k ≤ new.update →
    ∀ line ∈ log (cur.before j).text (cur.release j).text, names (cur.release k).text line = false

/-! ## Decimal numbers -/

theorem not_mem_toDigits {c : Char} (hc : c.isDigit = false) (n : Nat) : c ∉ Nat.toDigits 10 n := by
  intro h
  rw [Nat.isDigit_of_mem_toDigits (by decide) (by decide) h] at hc
  cases hc

theorem toDigits_injective {k j : Nat} (h : Nat.toDigits 10 k = Nat.toDigits 10 j) : k = j := by
  have hval := congrArg (fun digits => Nat.ofDigitChars 10 digits 0) h
  simpa only [Nat.ofDigitChars_ten_toDigits] using hval

theorem toDigits_head {n : Nat} (h : 0 < n) : (Nat.toDigits 10 n).head? ≠ some '0' := by
  induction n using Nat.strongRecOn with
  | ind n ih =>
    by_cases hlt : n < 10
    · rw [Nat.toDigits_of_lt_base hlt]
      intro hzero
      have hval := congrArg Char.toNat (Option.some.inj hzero)
      rw [Nat.toNat_digitChar_of_lt_ten hlt] at hval
      exact absurd hval (by simp only [Char.reduceToNat]; omega)
    · rw [Nat.toDigits_of_base_le (by decide) (by omega),
        List.head?_append_of_ne_nil _ Nat.toDigits_ne_nil]
      exact ih (n / 10) (by omega) (by omega)

/-- The digits of a number that starts with those of another one. -/
theorem toDigits_prefix {k j : Nat} (h : Nat.toDigits 10 k <+: Nat.toDigits 10 j) (hne : k ≠ j) :
    10 * k ≤ j := by
  obtain ⟨s, hs⟩ := h
  have hval := congrArg (fun digits => Nat.ofDigitChars 10 digits 0) hs
  simp only [Nat.ofDigitChars_append, Nat.ofDigitChars_ten_toDigits] at hval
  cases s with
  | nil => exact absurd hval hne
  | cons c s =>
    rw [Nat.ofDigitChars_eq_ofDigitChars_zero] at hval
    have hpow : 10 ≤ 10 ^ (c :: s).length := Nat.le_self_pow (by simp) 10
    have hmul : 10 * k ≤ 10 ^ (c :: s).length * k := Nat.mul_le_mul_right k hpow
    omega

theorem toDigits_ten_mul {k : Nat} (h : 0 < k) :
    Nat.toDigits 10 k <+: Nat.toDigits 10 (10 * k) := by
  have happend := Nat.toDigits_append_toDigits (b := 10) (d := 0) (by decide) h (by decide)
  exact ⟨_, happend⟩

theorem isDecimal_toDigits (n : Nat) : isDecimal (Nat.toDigits 10 n) = true := by
  have hzero : Nat.toDigits 10 n = ['0'] ∨ (Nat.toDigits 10 n).head? ≠ some '0' := by
    rcases Nat.eq_zero_or_pos n with rfl | hpos
    · exact .inl rfl
    · exact .inr (toDigits_head hpos)
  exact decide_eq_true ⟨Nat.toDigits_ne_nil,
    List.all_eq_true.mpr fun c hc => Nat.isDigit_of_mem_toDigits (by decide) (by decide) hc, hzero⟩

theorem arithValue_toDigits (n : Nat) : arithValue (Nat.toDigits 10 n) = some (wrap n) := by
  unfold arithValue
  split
  · next t ht =>
    exact absurd (ht ▸ List.mem_cons_self) (not_mem_toDigits (c := '-') rfl n)
  · rw [if_pos (isDecimal_toDigits n), Nat.ofDigitChars_ten_toDigits]

theorem not_mem_intText {c : Char} (hc : c.isDigit = false) (hsign : c ≠ '-') (m : Int) :
    c ∉ intText m := by
  cases m with
  | ofNat n => exact not_mem_toDigits hc n
  | negSucc n => exact List.not_mem_cons_of_ne_of_not_mem hsign (not_mem_toDigits hc (n + 1))

theorem intText_eq_toDigits {m : Int} {n : Nat} (h : intText m = Nat.toDigits 10 n) : m = n := by
  cases m with
  | ofNat k => exact congrArg _ (toDigits_injective h)
  | negSucc k =>
    exact absurd (h ▸ List.mem_cons_self) (not_mem_toDigits (c := '-') rfl n)

theorem wrap_of_lt {n : Nat} (h : n < 2 ^ 63) : wrap n = n := by
  rw [wrap, Int.bmod_eq_of_le (by omega) (by omega)]

theorem wrap_lt (n : Int) : wrap n < (2 ^ 63 : Nat) := by
  have hlt := Int.bmod_lt (x := n) (m := 2 ^ 64) (by decide)
  rw [wrap]
  omega

theorem wrap_add (n k : Int) : wrap (wrap n + k) = wrap (n + k) := Int.bmod_add_bmod

/-! ## The base version -/

theorem beforeLast_none {sep t : Text} {c : Char} (hc : c ∈ sep) (ht : c ∉ t) :
    beforeLast sep t = none := by
  induction t with
  | nil => rfl
  | cons d t ih =>
    rw [beforeLast, ih fun h => ht (List.mem_cons_of_mem d h)]
    exact if_neg fun h => ht (h.subset hc)

theorem cutLast_dot (u : Text) {w : Text} (hw : '.' ∉ w) : cutLast "." (u ++ '.' :: w) = u := by
  have hlast : beforeLast ['.'] (u ++ '.' :: w) = some u := by
    induction u with
    | nil =>
      rw [List.nil_append, beforeLast, beforeLast_none List.mem_cons_self hw]
      exact if_pos (List.prefix_append ['.'] w)
    | cons c u ih => rw [List.cons_append, beforeLast, ih]
  exact congrArg (·.getD (u ++ '.' :: w)) hlast

theorem toDigits_x (v : Version) :
    (∃ c, Nat.toDigits 10 v.x = [c] ∧ '3' ≤ c ∧ c ≤ '9') ∨
      ∃ c d, Nat.toDigits 10 v.x = [c, d] ∧ d ≠ '.' := by
  have hle := v.le_ninetyNine
  have hge := v.three_le
  by_cases hlt : v.x < 10
  · left
    refine ⟨Nat.digitChar v.x, Nat.toDigits_of_lt_base hlt, ?_⟩
    rw [Char.le_def, Char.le_def, UInt32.le_iff_toNat_le, UInt32.le_iff_toNat_le]
    have hval := Nat.toNat_digitChar_of_lt_ten hlt
    change 51 ≤ (Nat.digitChar v.x).toNat ∧ (Nat.digitChar v.x).toNat ≤ 57
    rw [hval]
    omega
  · right
    refine ⟨Nat.digitChar (v.x / 10), Nat.digitChar (v.x % 10), ?_, ?_⟩
    · rw [Nat.toDigits_of_base_le (by decide) (by omega), Nat.toDigits_of_lt_base (by omega)]
      rfl
    · intro hdot
      have hval := Nat.toNat_digitChar_of_lt_ten (n := v.x % 10) (by omega)
      rw [hdot] at hval
      simp only [Char.reduceToNat] at hval
      omega

/-- A version of the series has an update if there is a second dot. -/
theorem hasUpdate_eq (v : Version) {w : Text} (hw : w.head? ≠ some '.') :
    hasUpdate (Nat.toDigits 10 v.x ++ '.' :: w) = decide ('.' ∈ w) := by
  have hdot : w[0]? ≠ some '.' := by rwa [← List.head?_eq_getElem?]
  rcases toDigits_x v with ⟨c, hx, hc⟩ | ⟨c, d, hx, hd⟩
  · have hc2 : '2' ≠ c := by
      rintro rfl
      exact absurd hc.1 (by decide)
    rw [hx, List.singleton_append, hasUpdate]
    simp [hc2, hc, hdot]
  · rw [hx, hasUpdate]
    simp [hd]

theorem series_head (v : Version) (w : Text) :
    (Nat.toDigits 10 v.y ++ w).head? ≠ some '.' := by
  rw [List.head?_append_of_ne_nil _ Nat.toDigits_ne_nil]
  intro h
  exact not_mem_toDigits (c := '.') rfl v.y (List.mem_of_head? h)

theorem baseVersion_series (v : Version) : baseVersion v.series = v.series := by
  have hr : 'r' ∉ v.series := by
    simp [Version.series, not_mem_toDigits]
  have hdot := not_mem_toDigits (c := '.') rfl v.y
  have hhead := series_head v []
  rw [List.append_nil] at hhead
  rw [baseVersion, cutLast, beforeLast_none (c := 'r') (by decide) hr, Option.getD_none,
    Version.series, hasUpdate_eq v hhead, if_neg (by simpa using hdot)]

theorem baseVersion_update (v : Version) {w : Text} (hr : 'r' ∉ w) (hdot : '.' ∉ w) :
    baseVersion (v.series ++ '.' :: w) = v.series := by
  have hr' : 'r' ∉ v.series ++ '.' :: w := by
    simp [Version.series, not_mem_toDigits, hr]
  have hcut : cutLast "-rc" (v.series ++ '.' :: w) = v.series ++ '.' :: w := by
    rw [cutLast, beforeLast_none (c := 'r') (by decide) hr', Option.getD_none]
  have hupdate : hasUpdate (v.series ++ '.' :: w) = true := by
    rw [Version.series, List.append_assoc, List.cons_append, hasUpdate_eq v (series_head v _)]
    simp
  rw [baseVersion, hcut, if_pos hupdate, cutLast_dot v.series hdot]

theorem baseVersion_text (v : Version) : baseVersion v.text = v.series := by
  unfold Version.text
  split
  · exact baseVersion_series v
  · next z _ => exact baseVersion_update v (not_mem_toDigits rfl z) (not_mem_toDigits rfl z)

/-! ## The next update -/

/-- What `add_update` takes for the number of the update. -/
theorem updateText (v : Version) : ∃ update,
    (if v.series ++ ['.'] <+: v.text then v.text.drop (v.series.length + 1) else v.text) = update ∧
      arithValue (if update = v.text then ['0'] else update) = some (wrap v.update) := by
  unfold Version.update
  cases hz : v.z with
  | none =>
    have htext : v.text = v.series := by rw [Version.text, hz]
    have hno : ¬ v.series ++ ['.'] <+: v.series := fun h =>
      absurd h.length_le (by simp)
    refine ⟨v.series, by rw [htext, if_neg hno], ?_⟩
    rw [htext, if_pos rfl]
    exact arithValue_toDigits 0
  | some z =>
    have htext : v.text = v.series ++ ['.'] ++ Nat.toDigits 10 z := by
      rw [Version.text, hz, List.append_assoc, List.singleton_append]
    refine ⟨Nat.toDigits 10 z, ?_, ?_⟩
    · rw [htext, if_pos (List.prefix_append _ _)]
      exact List.drop_left' (by simp)
    · rw [htext, if_neg]
      · exact arithValue_toDigits z
      · intro h
        have hlen := congrArg List.length h
        simp only [List.length_append, List.length_singleton] at hlen
        omega

/-- The number of an update, or that of the first release of a series. -/
theorem nextUpdate_text (v : Version) (h : v.update + 1 < 2 ^ 63) :
    nextUpdate v.text = some (v.release (v.update + 1)).text := by
  obtain ⟨update, hupdate, hvalue⟩ := updateText v
  have hsum : wrap (wrap v.update + 1) = (v.update + 1 : Nat) := by
    rw [wrap_add]
    exact wrap_of_lt h
  have hne : intText (v.update + 1 : Nat) ≠ ['0'] := by
    intro hzero
    have hval := toDigits_injective (k := v.update + 1) (j := 0) hzero
    exact absurd hval (Nat.succ_ne_zero _)
  rw [nextUpdate, addUpdate, baseVersion_text]
  dsimp only
  rw [hupdate, hvalue, Option.map_some, hsum, if_neg hne]
  rfl

/-! ## The first loop -/

theorem text_of_update {v : Version} (h : 0 < v.update) : v.text = (v.release v.update).text := by
  unfold Version.update at h ⊢
  cases hz : v.z with
  | none =>
    rw [hz] at h
    exact absurd h (lt_irrefl 0)
  | some z => rw [Version.text, hz]; rfl

theorem update_of_text {v w : Version} (hseries : w.series = v.series) (h : v.text = w.text) :
    v.update = w.update := by
  unfold Version.text at h
  unfold Version.update
  rw [hseries] at h
  cases hv : v.z with
  | none =>
    cases hw : w.z with
    | none => rfl
    | some k =>
      rw [hv, hw] at h
      exact absurd h (by simp)
  | some z =>
    cases hw : w.z with
    | none =>
      rw [hv, hw] at h
      exact absurd h (by simp)
    | some k =>
      rw [hv, hw] at h
      exact toDigits_injective (List.cons.inj (List.append_cancel_left h)).2

theorem release_text {v w : Version} (hseries : w.series = v.series) (k : Nat) :
    (v.release k).text = (w.release k).text :=
  congrArg (· ++ '.' :: Nat.toDigits 10 k) hseries.symm

theorem releases_succ (v : Version) (n : Nat) : v.releases (n + 1) =
    (v.text, (v.release (v.update + 1)).text) :: (v.release (v.update + 1)).releases n := by
  rw [Version.releases, List.range'_succ, List.map_cons, Version.before, if_pos rfl,
    Version.releases]
  congr 1
  refine List.map_congr_left fun k hk => ?_
  have hlt := (List.mem_range'_1.mp hk).1
  have hbefore : v.before k = (v.release (v.update + 1)).before k := by
    rw [Version.before, Version.before, if_neg (by omega)]
    split
    · next heq =>
      have hpred : k - 1 = v.update + 1 := by
        rw [heq]
        rfl
      rw [hpred]
    · rfl
  rw [hbefore]
  rfl

theorem listUrls_eq {new : Version} (hlt : new.update < 2 ^ 63) (n : Nat) (v : Version)
    (hseries : new.series = v.series) (hn : v.update + n = new.update)
    (hzero : n = 0 → v.text = new.text) (fuel : Nat) :
    listUrls new.text fuel v.text =
      if n < fuel then some ((v.releases n).map fun r => urlOf r.2) else none := by
  induction n generalizing v fuel with
  | zero =>
    cases fuel with
    | zero => rfl
    | succ fuel =>
      rw [listUrls, if_pos (hzero rfl), if_pos (Nat.succ_pos fuel)]
      rfl
  | succ n ih =>
    cases fuel with
    | zero => rfl
    | succ fuel =>
      have hne : v.text ≠ new.text := fun h => by
        have hupdate := update_of_text hseries h
        omega
      rw [listUrls, if_neg hne, nextUpdate_text v (by omega), Option.bind_some,
        ih (v.release (v.update + 1)) hseries (by change v.update + 1 + n = _; omega) ?_ fuel,
        releases_succ]
      · by_cases h : n < fuel
        · rw [if_pos h, if_pos (Nat.succ_lt_succ h)]
          rfl
        · rw [if_neg h, if_neg fun h' => h (Nat.lt_of_succ_lt_succ h')]
          rfl
      · intro hn0
        have hnew : new.update = v.update + 1 := by omega
        rw [text_of_update (v := new) (by omega), hnew]
        exact release_text hseries _

/-- A number that the shell does not print is not reached. -/
theorem listUrls_never {new : Version} (h : 2 ^ 63 ≤ new.update) (fuel : Nat) (t : Text)
    (ht : baseVersion t = new.series) (hne : t ≠ new.text) :
    listUrls new.text fuel t = none := by
  induction fuel generalizing t with
  | zero => rfl
  | succ fuel ih =>
    rw [listUrls, if_neg hne, nextUpdate, addUpdate, ht]
    dsimp only
    rw [Option.bind_map, Option.bind_eq_none_iff]
    intro value _
    have hlt := wrap_lt (value + 1)
    dsimp only [Function.comp_apply]
    generalize wrap (value + 1) = m at hlt ⊢
    rw [Option.map_eq_none_iff]
    have htext : new.text = new.series ++ '.' :: Nat.toDigits 10 new.update :=
      text_of_update (by omega)
    split
    · refine ih _ (baseVersion_series new) fun heq => ?_
      rw [htext] at heq
      exact absurd heq (by simp)
    · refine ih _ (baseVersion_update new (not_mem_intText (c := 'r') rfl (by decide) m)
        (not_mem_intText (c := '.') rfl (by decide) m)) fun heq => ?_
      rw [htext] at heq
      have hm := intText_eq_toDigits (List.cons.inj (List.append_cancel_left heq)).2
      omega

/-- A request that is another text makes the loop emit something. -/
theorem listUrls_ne_nil {newVer curVer : Text} (h : curVer ≠ newVer) (fuel : Nat) :
    listUrls newVer fuel curVer ≠ some [] := by
  cases fuel with
  | zero => exact nofun
  | succ fuel =>
    rw [listUrls, if_neg h]
    intro hnil
    obtain ⟨next, -, hnil⟩ := Option.bind_eq_some_iff.mp hnil
    obtain ⟨urls, -, hnil⟩ := Option.map_eq_some_iff.mp hnil
    cases hnil

/-! ## The second loop -/

section

variable (log : Text → Text → List Text)

/-- The insertions for some releases, each with the version before it. -/
def inserted : List (Text × Text) → List Text → List (Text × Text)
  | [], _ => []
  | r :: rs, changelog =>
    List.replicate (changelog.countP (names r.2)) r ++
      inserted rs (appendAfter r.2 (log r.1 r.2) changelog)

def appended (rs : List (Text × Text)) (changelog : List Text) : List Text :=
  rs.foldl (fun changelog r => appendAfter r.2 (log r.1 r.2) changelog) changelog

theorem insertLogs_eq {new : Version} (hlt : new.update < 2 ^ 63) (n : Nat) (v : Version)
    (hseries : new.series = v.series) (hn : v.update + n = new.update)
    (hzero : n = 0 → v.text = new.text) (fuel : Nat) (changelog : List Text) :
    insertLogs log new.text fuel v.text changelog =
      if n < fuel then
        some (inserted log (v.releases n) changelog, appended log (v.releases n) changelog)
      else none := by
  induction n generalizing v fuel changelog with
  | zero =>
    cases fuel with
    | zero => rfl
    | succ fuel =>
      rw [insertLogs, if_pos (hzero rfl), if_pos (Nat.succ_pos fuel)]
      rfl
  | succ n ih =>
    cases fuel with
    | zero => rfl
    | succ fuel =>
      have hne : v.text ≠ new.text := fun h => by
        have hupdate := update_of_text hseries h
        omega
      rw [insertLogs, if_neg hne, nextUpdate_text v (by omega), Option.bind_some, releases_succ]
      dsimp only
      rw [ih (v.release (v.update + 1)) hseries (by change v.update + 1 + n = _; omega) ?_ fuel]
      · by_cases h : n < fuel
        · rw [if_pos h, if_pos (Nat.succ_lt_succ h)]
          rfl
        · rw [if_neg h, if_neg fun h' => h (Nat.lt_of_succ_lt_succ h')]
          rfl
      · intro hn0
        have hnew : new.update = v.update + 1 := by omega
        rw [text_of_update (v := new) (by omega), hnew]
        exact release_text hseries _

variable {log}

/-- The lines that name a version, after an insertion behind those that name another one. -/
theorem countP_appendAfter (w v : Text) (text changelog : List Text) :
    (appendAfter v text changelog).countP (names w) =
      changelog.countP (names w) + changelog.countP (names v) * text.countP (names w) := by
  induction changelog with
  | nil => simp [appendAfter]
  | cons line changelog ih =>
    have hcons : appendAfter v text (line :: changelog) =
        (if names v line then line :: text else [line]) ++ appendAfter v text changelog := rfl
    rw [hcons, List.countP_append, ih, List.countP_cons, List.countP_cons]
    by_cases hv : names v line = true
    · rw [if_pos hv, if_pos hv, List.countP_cons, Nat.add_mul, Nat.one_mul]
      omega
    · rw [if_neg hv, if_neg hv, List.countP_cons, List.countP_nil, Nat.add_zero]
      omega

/-- Each shortlog is inserted once if each release is named once, and no shortlog names a later
release. -/
theorem inserted_eq_iff {rs : List (Text × Text)} (hnodup : rs.Nodup) {changelog : List Text}
    (hnamed : ∀ r ∈ rs, 1 ≤ changelog.countP (names r.2)) :
    inserted log rs changelog = rs ↔ (∀ r ∈ rs, changelog.countP (names r.2) = 1) ∧
      rs.Pairwise fun r r' => (log r.1 r.2).countP (names r'.2) = 0 := by
  induction rs generalizing changelog with
  | nil => exact ⟨fun _ => ⟨nofun, .nil⟩, fun _ => rfl⟩
  | cons r rs ih =>
    obtain ⟨hr, hnodup⟩ := List.nodup_cons.mp hnodup
    obtain ⟨hfirst, hnamed⟩ := List.forall_mem_cons.mp hnamed
    have hlater : ∀ r' ∈ rs,
        1 ≤ (appendAfter r.2 (log r.1 r.2) changelog).countP (names r'.2) := fun r' hr' => by
      rw [countP_appendAfter]
      exact Nat.le_add_right_of_le (hnamed r' hr')
    have hsplit : inserted log (r :: rs) changelog = r :: rs ↔
        changelog.countP (names r.2) = 1 ∧
          inserted log rs (appendAfter r.2 (log r.1 r.2) changelog) = rs := by
      rw [inserted]
      constructor
      · intro h
        obtain ⟨m, hm⟩ := Nat.exists_eq_add_of_le' hfirst
        rw [hm, List.replicate_succ, List.cons_append] at h
        have htail := (List.cons.inj h).2
        cases m with
        | zero => exact ⟨hm, htail⟩
        | succ m =>
          refine absurd ?_ hr
          rw [← htail]
          exact List.mem_append_left _ (List.mem_replicate.mpr ⟨Nat.succ_ne_zero m, rfl⟩)
      · rintro ⟨hone, hrs⟩
        rw [hone, hrs]
        rfl
    rw [hsplit, ih hnodup hlater, List.forall_mem_cons, List.pairwise_cons, and_assoc]
    refine and_congr_right fun hone => ?_
    simp only [countP_appendAfter, hone, Nat.one_mul]
    constructor
    · rintro ⟨hcount, hpair⟩
      refine ⟨fun r' hr' => ?_, fun r' hr' => ?_, hpair⟩
      · have h1 := hcount r' hr'
        have h2 := hnamed r' hr'
        omega
      · have h1 := hcount r' hr'
        have h2 := hnamed r' hr'
        omega
    · rintro ⟨hcount, hlog, hpair⟩
      refine ⟨fun r' hr' => ?_, hpair⟩
      rw [hcount r' hr', hlog r' hr']

end

/-! ## The lines that name a release -/

theorem names_url {w : Text} (hw : 'C' ∉ w) (v : Text) :
    names v (indent ++ urlOf w) = true ↔ v <+: w := by
  have hpattern : ∀ v, changeLog v = 'C' :: (("hangeLog-" : Text) ++ v) := fun _ => rfl
  have hfront : 'C' ∉ indent ++ site := by decide
  have hrest : 'C' ∉ ("hangeLog-" : Text) ++ w := by
    simp [hw]
  rw [names, decide_eq_true_iff, urlOf, ← List.append_assoc, hpattern, hpattern]
  generalize indent ++ site = front at hfront
  constructor
  · rintro ⟨s, t, h⟩
    rw [List.append_assoc, List.cons_append] at h
    have hcut := (cut_once h.symm hfront hrest).2
    rw [List.append_assoc] at hcut
    exact ⟨t, (List.append_cancel_left hcut).symm⟩
  · rintro ⟨t, rfl⟩
    refine ⟨front, t, ?_⟩
    rw [List.append_assoc, List.cons_append, List.append_assoc]

theorem names_release (v : Version) (k j : Nat) :
    names (v.release k).text (indent ++ urlOf (v.release j).text) = true ↔
      Nat.toDigits 10 k <+: Nat.toDigits 10 j := by
  have hC : 'C' ∉ (v.release j).text := by
    simp [Version.text, Version.release, Version.series, not_mem_toDigits]
  rw [names_url hC]
  change v.series ++ '.' :: Nat.toDigits 10 k <+: v.series ++ '.' :: Nat.toDigits 10 j ↔ _
  rw [List.prefix_append_right_inj, List.prefix_cons_inj]

/-- The URLs that name a release are those whose numbers start with its digits. -/
theorem countP_urls (v : Version) (k n : Nat) :
    (((v.releases n).map fun r => urlOf r.2).map (indent ++ ·)).countP (names (v.release k).text) =
      (List.range' (v.update + 1) n).countP fun j => Nat.toDigits 10 k <+: Nat.toDigits 10 j := by
  rw [Version.releases, List.map_map, List.map_map, List.countP_map]
  refine List.countP_congr fun j _ => ?_
  rw [decide_eq_true_iff]
  exact names_release v k j

/-- Each number is the only one with its digits at the start if no one has a digit more. -/
theorem countP_digits_iff (m n : Nat) :
    (∀ k ∈ List.range' (m + 1) n, ((List.range' (m + 1) n).countP fun j =>
        Nat.toDigits 10 k <+: Nat.toDigits 10 j) = 1) ↔ m + n < 10 * (m + 1) := by
  constructor
  · intro h
    by_contra hle
    have hfirst : m + 1 ∈ List.range' (m + 1) n := List.mem_range'_1.mpr (by omega)
    have hten : 10 * (m + 1) ∈ List.range' (m + 1) n := List.mem_range'_1.mpr (by omega)
    have hone := h (m + 1) hfirst
    rw [List.countP_eq_length_filter, List.length_eq_one_iff] at hone
    obtain ⟨x, hx⟩ := hone
    have hmem : ∀ j ∈ List.range' (m + 1) n,
        Nat.toDigits 10 (m + 1) <+: Nat.toDigits 10 j → j = x := by
      intro j hj hprefix
      have hj' : j ∈ (List.range' (m + 1) n).filter fun j =>
          Nat.toDigits 10 (m + 1) <+: Nat.toDigits 10 j :=
        List.mem_filter.mpr ⟨hj, by simpa using hprefix⟩
      rw [hx] at hj'
      exact List.mem_singleton.mp hj'
    have hsame := (hmem _ hfirst (List.prefix_refl _)).trans
      (hmem _ hten (toDigits_ten_mul (Nat.succ_pos m))).symm
    omega
  · intro h k hk
    have hcongr : (List.range' (m + 1) n).countP (fun j =>
        Nat.toDigits 10 k <+: Nat.toDigits 10 j) = (List.range' (m + 1) n).count k := by
      refine List.countP_congr fun j hj => ?_
      rw [decide_eq_true_iff, beq_iff_eq]
      constructor
      · intro hprefix
        by_contra hne
        have hten := toDigits_prefix hprefix fun heq => hne heq.symm
        have hk' := List.mem_range'_1.mp hk
        have hj' := List.mem_range'_1.mp hj
        omega
      · rintro rfl
        exact List.prefix_refl _
    rw [hcongr]
    exact List.count_eq_one_of_mem List.nodup_range' hk

theorem countP_withUrls (c : Changelog) (p : Text → Bool) (urls : List Text) :
    (c.withUrls urls).countP p =
      c.head.countP p + (urls.map (indent ++ ·)).countP p + c.rest.countP p := by
  rw [Changelog.withUrls, List.countP_append, List.countP_append]

theorem nodup_releases (v : Version) (n : Nat) : (v.releases n).Nodup := by
  refine List.Nodup.map (fun k j h => ?_) List.nodup_range'
  have htext : (v.release k).text = (v.release j).text := congrArg Prod.snd h
  exact update_of_text (v := v.release k) (w := v.release j) rfl htext

theorem mem_releases {v : Version} {n : Nat} {r : Text × Text} : r ∈ v.releases n ↔
    ∃ k, v.update < k ∧ k ≤ v.update + n ∧ ((v.before k).text, (v.release k).text) = r := by
  rw [Version.releases, List.mem_map]
  constructor
  · rintro ⟨k, hk, h⟩
    have hk' := List.mem_range'_1.mp hk
    exact ⟨k, by omega, by omega, h⟩
  · rintro ⟨k, hlt, hle, h⟩
    exact ⟨k, List.mem_range'_1.mpr (by omega), h⟩

/-- Later releases, as pairs of numbers. -/
theorem pairwise_releases {v : Version} {n : Nat} {p : Text × Text → Text × Text → Prop} :
    (v.releases n).Pairwise p ↔ ∀ j k, v.update < j → j < k → k ≤ v.update + n →
      p ((v.before j).text, (v.release j).text) ((v.before k).text, (v.release k).text) := by
  rw [Version.releases, List.pairwise_map]
  constructor
  · intro h j k hj hjk hk
    have hget := List.pairwise_iff_getElem.mp h (j - (v.update + 1)) (k - (v.update + 1))
      (by rw [List.length_range']; omega) (by rw [List.length_range']; omega) (by omega)
    rw [List.getElem_range', List.getElem_range', Nat.one_mul, Nat.one_mul,
      Nat.add_sub_cancel' hj, Nat.add_sub_cancel' (by omega)] at hget
    exact hget
  · intro h
    refine (List.pairwise_lt_range' 1).imp_of_mem fun {j k} hj hk hlt => ?_
    have hj' := List.mem_range'_1.mp hj
    have hk' := List.mem_range'_1.mp hk
    exact h j k (by omega) hlt (by omega)

/-- Each missing release is inserted once. -/
theorem inserted_missing_iff (log : Text → Text → List Text) (c : Changelog) (cur : Version)
    {n : Nat} {new : Version} (hnew : cur.update + n = new.update) :
    inserted log (cur.releases n) (c.withUrls ((cur.releases n).map fun r => urlOf r.2)) =
      cur.releases n ↔ NamedOnce log c cur new := by
  have hcount := fun k => countP_withUrls c (names (cur.release k).text)
    ((cur.releases n).map fun r => urlOf r.2)
  simp only [countP_urls] at hcount
  have hown : ∀ k, cur.update < k → k ≤ new.update →
      1 ≤ (List.range' (cur.update + 1) n).countP fun j =>
        Nat.toDigits 10 k <+: Nat.toDigits 10 j := by
    intro k hlt hle
    refine List.countP_pos_iff.mpr ⟨k, List.mem_range'_1.mpr (by omega), ?_⟩
    exact decide_eq_true (List.prefix_refl _)
  have hnamed : ∀ r ∈ cur.releases n,
      1 ≤ (c.withUrls ((cur.releases n).map fun r => urlOf r.2)).countP (names r.2) := by
    intro r hr
    obtain ⟨k, hlt, hle, rfl⟩ := mem_releases.mp hr
    have h1 := hown k hlt (by omega)
    rw [hcount]
    omega
  rw [inserted_eq_iff (nodup_releases cur n) hnamed]
  have hpair : ((cur.releases n).Pairwise fun r r' => (log r.1 r.2).countP (names r'.2) = 0) ↔
      ∀ j k, cur.update < j → j < k → k ≤ new.update →
        ∀ line ∈ log (cur.before j).text (cur.release j).text,
          names (cur.release k).text line = false := by
    rw [pairwise_releases, hnew]
    simp only [List.countP_eq_zero, Bool.not_eq_true]
  rw [hpair]
  constructor
  · rintro ⟨hone, hlogs⟩
    have hk : ∀ k, cur.update < k → k ≤ new.update →
        c.head.countP (names (cur.release k).text) +
          (List.range' (cur.update + 1) n).countP (fun j =>
            Nat.toDigits 10 k <+: Nat.toDigits 10 j) +
          c.rest.countP (names (cur.release k).text) = 1 := by
      intro k hlt hle
      rw [← hcount]
      exact hone _ (mem_releases.mpr ⟨k, hlt, by omega, rfl⟩)
    refine ⟨?_, fun k hlt hle line hline => ?_, hlogs⟩
    · rw [← hnew]
      refine (countP_digits_iff cur.update n).mp fun k hk' => ?_
      have hk' := List.mem_range'_1.mp hk'
      have h1 := hown k (by omega) (by omega)
      have h2 := hk k (by omega) (by omega)
      omega
    · have h1 := hown k hlt hle
      have h2 := hk k hlt hle
      have hzero : (c.head ++ c.rest).countP (names (cur.release k).text) = 0 := by
        rw [List.countP_append]
        omega
      exact Bool.eq_false_iff.mpr (List.countP_eq_zero.mp hzero line hline)
  · intro h
    refine ⟨fun r hr => ?_, h.logs⟩
    obtain ⟨k, hlt, hle, rfl⟩ := mem_releases.mp hr
    have hzero : (c.head ++ c.rest).countP (names (cur.release k).text) = 0 :=
      List.countP_eq_zero.mpr fun line hline => by
        rw [h.entry k hlt (by omega) line hline]
        exact Bool.false_ne_true
    have hone := (countP_digits_iff cur.update n).mpr (by rw [hnew]; exact h.urls) k
      (List.mem_range'_1.mpr (by omega))
    rw [List.countP_append] at hzero
    rw [hcount]
    omega

theorem listUrls_of_updated {log : Text → Text → List Text} {dch : List Text → List Text}
    {fuel : Nat} {curVer newVer : Text} {urls : List Text} {ranges : List (Text × Text)}
    {changelog : List Text}
    (h : stableUpdate log dch fuel curVer newVer = some (.updated urls ranges changelog)) :
    listUrls newVer fuel curVer = some urls := by
  unfold stableUpdate at h
  split at h
  · cases h
  · obtain ⟨urls', hurls, h⟩ := Option.bind_eq_some_iff.mp h
    obtain ⟨_, -, h⟩ := Option.map_eq_some_iff.mp h
    injection h with h
    rw [hurls, h]

/-- A newer version, whose number fits. -/
theorem lists_newer_iff (log : Text → Text → List Text) {dch : List Text → List Text}
    {c : Changelog} {cur new : Version}
    (hdch : dch (missingUrls cur new) = c.withUrls (missingUrls cur new))
    (hseries : baseVersion new.text = baseVersion cur.text) (hbase : new.series = cur.series)
    (hlt : cur.update < new.update) (hbig : new.update < 2 ^ 63) :
    ListsMissing log dch cur new ↔ NamedOnce log c cur new := by
  have hn : cur.update + (new.update - cur.update) = new.update := by omega
  have hzero : new.update - cur.update = 0 → cur.text = new.text := fun h => by omega
  have hrun : ∀ fuel, stableUpdate log dch fuel cur.text new.text =
      if new.update - cur.update < fuel then
        some (.updated (missingUrls cur new)
          (inserted log (missing cur new) (c.withUrls (missingUrls cur new)))
          (appended log (missing cur new) (c.withUrls (missingUrls cur new))))
      else none := by
    intro fuel
    rw [stableUpdate, if_neg (not_not.mpr hseries), listUrls_eq hbig _ cur hbase hn hzero fuel]
    split
    · next h =>
      rw [Option.bind_some, insertLogs_eq log hbig _ cur hbase hn hzero fuel, if_pos h, ← hdch]
      rfl
    · rfl
  rw [← inserted_missing_iff log c cur hn]
  constructor
  · rintro ⟨fuel, changelog, h⟩
    rw [hrun] at h
    split at h
    · injection h with h
      injection h
    · cases h
  · intro h
    refine ⟨new.update - cur.update + 1, appended log (missing cur new)
      (c.withUrls (missingUrls cur new)), ?_⟩
    rw [hrun, if_pos (Nat.lt_succ_self _)]
    have hinserted : inserted log (missing cur new) (c.withUrls (missingUrls cur new)) =
        missing cur new := h
    rw [hinserted]

end DebianKernel.Debian.StableUpdate

namespace DebianKernel.Debian

open StableUpdate

/-- Exactly the missing releases are listed if the requested version is the current one, or is
newer and its number fits, and each missing release is named once. `dch` gives each URL a line of
its own. -/
theorem stable_update_iff (log : Text → Text → List Text) {dch : List Text → List Text}
    {c : Changelog} {cur new : StableUpdate.Version}
    (hdch : dch (missingUrls cur new) = c.withUrls (missingUrls cur new))
    (hseries : baseVersion new.text = baseVersion cur.text) :
    ListsMissing log dch cur new ↔ cur.text = new.text ∨
      cur.update < new.update ∧ new.update < 2 ^ 63 ∧ NamedOnce log c cur new := by
  have hbase : new.series = cur.series := by
    rwa [baseVersion_text, baseVersion_text] at hseries
  by_cases hsame : cur.text = new.text
  · have hupdate := update_of_text hbase hsame
    have hnone : missing cur new = [] := by
      rw [missing, hupdate, Nat.sub_self]
      rfl
    refine iff_of_true ⟨1, dch [], ?_⟩ (.inl hsame)
    rw [stableUpdate, if_neg (not_not.mpr hseries), listUrls, if_pos hsame, Option.bind_some,
      insertLogs, if_pos hsame, missingUrls, hnone]
    rfl
  · rw [or_iff_right hsame]
    by_cases hlt : cur.update < new.update
    · by_cases hbig : new.update < 2 ^ 63
      · rw [and_iff_right hlt, and_iff_right hbig]
        exact lists_newer_iff log hdch hseries hbase hlt hbig
      · refine iff_of_false ?_ fun h => hbig h.2.1
        rintro ⟨fuel, changelog, h⟩
        have hurls := listUrls_of_updated h
        rw [listUrls_never (Nat.le_of_not_lt hbig) fuel cur.text
          (by rw [baseVersion_text, hbase]) hsame] at hurls
        cases hurls
    · refine iff_of_false ?_ fun h => hlt h.1
      rintro ⟨fuel, changelog, h⟩
      have hurls := listUrls_of_updated h
      have hnone : missing cur new = [] := by
        rw [missing, Nat.sub_eq_zero_of_le (Nat.le_of_not_lt hlt)]
        rfl
      rw [missingUrls, hnone] at hurls
      exact listUrls_ne_nil hsame fuel hurls

/-- The changelog of 3.2 with a new entry. -/
def changelogOf32 : Changelog where
  head := ["linux (3.2.2-1) UNRELEASED; urgency=low", "", "  * New upstream stable update: "]
  rest := ["", "linux (3.2-1) unstable; urgency=low", "", "  * New upstream release"]

/-- From 3.2 to 3.2.2. -/
theorem two_releases_listed :
    ListsMissing (fun _ next => ["    - Linux " ++ next]) changelogOf32.withUrls
      ⟨3, 2, none, by decide, by decide⟩ ⟨3, 2, some 2, by decide, by decide⟩ := by
  refine (stable_update_iff _ rfl (by rw [baseVersion_text, baseVersion_text]; rfl)).mpr
    (.inr ⟨by decide, by decide, by decide, ?_, ?_⟩)
  · intro k hk hle
    obtain rfl | rfl : k = 1 ∨ k = 2 := by
      change 0 < k at hk
      change k ≤ 2 at hle
      omega
    · decide +kernel
    · decide +kernel
  · intro j k hj hjk hle
    obtain ⟨rfl, rfl⟩ : j = 1 ∧ k = 2 := by
      change 0 < j at hj
      change k ≤ 2 at hle
      omega
    decide +kernel

/-- Back from 3.2.5 to 3.2.3 other releases are listed, if the loop stops at all. -/
theorem older_release_listed : ¬ ∀ (log : Text → Text → List Text)
    (dch : List Text → List Text) (c : Changelog) (cur new : StableUpdate.Version),
    dch (missingUrls cur new) = c.withUrls (missingUrls cur new) →
    baseVersion new.text = baseVersion cur.text → ListsMissing log dch cur new := by
  intro h
  obtain ⟨fuel, changelog, h⟩ := h (fun _ next => ["    - Linux " ++ next]) changelogOf32.withUrls
    changelogOf32 ⟨3, 2, some 5, by decide, by decide⟩ ⟨3, 2, some 3, by decide, by decide⟩ rfl
    (by rw [baseVersion_text, baseVersion_text]; rfl)
  exact listUrls_ne_nil (by decide) fuel (listUrls_of_updated h)

end DebianKernel.Debian
