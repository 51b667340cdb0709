import DebianKernel.Lib.Text
import DebianKernel.Lib.ThreeWay
import Mathlib.Data.Char
import Mathlib.Data.Prod.Lex

/-!
# Comparison of kernel versions

`version_split` and `version_cmp` of the Perl module `DebianLinux` of `linux-base`.
A version is a string of bytes, and numbers of any length are compared exactly.

Results:
1. `versionSplit_append`: where a version can be cut without cutting a component.
2. `versionCmp_eq_threeWay`: the comparison is the one of two lists of keys.
3. `versionCmp_total_preorder`: what follows for the order of all versions, and where
   the pre-releases stand in it.
-/

namespace DebianKernel.DebianLinux

open Text

/-! ## Components -/

/-- A character of the class `[^-\d]`. -/
def isPlain (c : Char) : Bool := c ≠ '-' ∧ c.isDigit = false

/-- What `(?:\d+|-?[^-\d]*)` matches at the start of the text. A first character that is
no digit is the hyphen or a plain character. -/
def component : Text → Text
  | [] => []
  | c :: t => if c.isDigit then c :: t.takeWhile Char.isDigit else c :: t.takeWhile isPlain

theorem component_length_pos (c : Char) (t : Text) : 0 < (component (c :: t)).length := by
  rw [component]
  split <;> exact Nat.succ_pos _

/-- `version_split`. The match at the end of the text is empty, and there is one. -/
def versionSplit (version : Text) : List Text :=
  match version with
  | [] => [[]]
  | c :: t => component (c :: t) :: versionSplit ((c :: t).drop (component (c :: t)).length)
termination_by version.length
decreasing_by
  rw [List.length_drop]
  exact Nat.sub_lt (Nat.succ_pos _) (component_length_pos c t)

/-! ## Comparison -/

/-- `/^-(?:rc|trunk)$/`: the end `$` is also found before a newline. -/
def isPre (comp : Text) : Bool :=
  comp = "-rc" ∨ comp = "-trunk" ∨ comp = "-rc\n" ∨ comp = "-trunk\n"

/-- `/^\d+/`. -/
def isNum (comp : Text) : Bool := comp.head?.any Char.isDigit

/-- The number that a string stands for in a numeric comparison. -/
def numValue (comp : Text) : Nat := Nat.ofDigitChars 10 (comp.takeWhile Char.isDigit) 0

/-- The loop of `version_cmp`, with the components that are left on both sides. -/
def compareFrom : List Text → List Text → Int
  | left :: leftComp, right :: rightComp =>
    if isPre left ∧ ¬ isPre right then -1
    else if isPre right ∧ ¬ isPre left then 1
    else if isNum left ∧ isNum right then
      if numValue left < numValue right then -1
      else if numValue right < numValue left then 1
      else compareFrom leftComp rightComp
    else if left < right then -1
    else if right < left then 1
    else compareFrom leftComp rightComp
  | [], right :: _ => if isPre right then 1 else -1
  | left :: _, [] => if isPre left then -1 else 1
  | [], [] => 0

/-- `version_cmp`. -/
def versionCmp (leftVer rightVer : Text) : Int :=
  compareFrom (versionSplit leftVer) (versionSplit rightVer)

/-! ## Where a version can be cut -/

/-- A component ends between the two texts. -/
def Boundary (a u : Text) : Prop :=
  ∀ c ∈ a.getLast?, ∀ d ∈ u.head?, d = '-' ∨ c.isDigit ≠ d.isDigit

namespace VersionLemmas

theorem component_of_digit {c : Char} (hc : c.isDigit = true) (t : Text) :
    component (c :: t) = c :: t.takeWhile Char.isDigit := by
  rw [component, if_pos hc]

theorem component_of_not_digit {c : Char} (hc : c.isDigit = false) (t : Text) :
    component (c :: t) = c :: t.takeWhile isPlain := by
  rw [component, if_neg (by rw [hc]; exact Bool.false_ne_true)]

theorem isPlain_of_not {d : Char} (h : isPlain d = false) (hd : d ≠ '-') : d.isDigit = true := by
  cases hdig : d.isDigit with
  | true => rfl
  | false => simp [isPlain, hd, hdig] at h

theorem takeWhile_append_of_stop {p : Char → Bool} {t u : Text}
    (h : t.takeWhile p = t → ∀ d ∈ u.head?, p d = false) :
    (t ++ u).takeWhile p = t.takeWhile p := by
  induction t with
  | nil =>
    cases u with
    | nil => rfl
    | cons d u => exact List.takeWhile_cons_of_neg (by rw [h rfl d rfl]; exact Bool.false_ne_true)
  | cons c t ih =>
    rw [List.cons_append]
    cases hc : p c with
    | false => simp [hc]
    | true =>
      rw [List.takeWhile_cons_of_pos hc, List.takeWhile_cons_of_pos hc]
      rw [List.takeWhile_cons_of_pos hc] at h
      rw [ih fun heq => h (by rw [heq])]

/-- The last character of a component that is the whole text is of the component's class. -/
theorem exists_getLast? {p q : Char → Bool} {c : Char} {t : Text} (hc : q c = true)
    (hp : ∀ d, p d = true → q d = true) (hall : t.takeWhile p = t) :
    ∃ e, (c :: t).getLast? = some e ∧ q e = true := by
  refine ⟨_, List.getLast?_eq_some_getLast (List.cons_ne_nil c t), ?_⟩
  rcases List.mem_cons.mp (List.getLast_mem (List.cons_ne_nil c t)) with heq | hmem
  · rw [heq]
    exact hc
  · exact hp _ (List.takeWhile_eq_self_iff.mp hall _ hmem)

/-- A component that reaches the boundary ends there. -/
theorem component_append {c : Char} {t u : Text} (h : Boundary (c :: t) u) :
    component (c :: t ++ u) = component (c :: t) := by
  cases hc : c.isDigit with
  | true =>
    rw [List.cons_append, component_of_digit hc, component_of_digit hc, takeWhile_append_of_stop]
    intro hall d hd
    obtain ⟨e, he, hdigit⟩ := exists_getLast? hc (fun _ h => h) hall
    rcases h e he d hd with rfl | hne
    · rfl
    · rw [hdigit] at hne
      exact Bool.eq_false_iff.mpr hne.symm
  | false =>
    rw [List.cons_append, component_of_not_digit hc, component_of_not_digit hc,
      takeWhile_append_of_stop]
    intro hall d hd
    have hplain : ∀ e, isPlain e = true → (!e.isDigit) = true := by
      intro e he
      have hand : e ≠ '-' ∧ e.isDigit = false := by simpa [isPlain] using he
      rw [hand.2]
      rfl
    obtain ⟨e, he, hdigit⟩ := exists_getLast? (q := (!Char.isDigit ·)) (by rw [hc]; rfl) hplain hall
    rcases h e he d hd with rfl | hne
    · rfl
    · rw [Bool.not_eq_true'] at hdigit
      rw [hdigit] at hne
      have hdd : d.isDigit = true := Bool.ne_false_iff.mp hne.symm
      simp [isPlain, hdd]

theorem component_prefix (t : Text) : component t <+: t := by
  cases t with
  | nil => exact List.prefix_rfl
  | cons c t =>
    rw [component]
    split <;> exact List.cons_prefix_cons.mpr ⟨rfl, List.takeWhile_prefix _⟩

theorem component_drop (t : Text) : component t ++ t.drop (component t).length = t :=
  (List.prefix_iff_eq_append.mp ( component_prefix t))

end VersionLemmas

open VersionLemmas

theorem versionSplit_nil : versionSplit [] = [[]] := by
  rw [versionSplit]

theorem versionSplit_cons (c : Char) (t : Text) :
    versionSplit (c :: t) =
      component (c :: t) :: versionSplit ((c :: t).drop (component (c :: t)).length) := by
  rw [versionSplit]

/-- A version is split at a boundary. -/
theorem versionSplit_append {a u : Text} (h : Boundary a u) :
    ∃ comps, versionSplit a = comps ++ [[]] ∧ versionSplit (a ++ u) = comps ++ versionSplit u := by
  match a, h with
  | [], _ => exact ⟨[], versionSplit_nil, rfl⟩
  | c :: t, h =>
    have hdrop := component_drop (c :: t)
    have hpos := component_length_pos c t
    have hrest : Boundary ((c :: t).drop (component (c :: t)).length) u := by
      intro e he
      refine h e ?_
      rw [← hdrop, List.getLast?_append]
      rw [Option.mem_def] at he ⊢
      rw [he]
      rfl
    obtain ⟨comps, hsplit, happend⟩ := versionSplit_append hrest
    refine ⟨component (c :: t) :: comps, ?_, ?_⟩
    · rw [versionSplit_cons, hsplit]
      rfl
    · have hlen : (component (c :: t)).length ≤ (c :: t).length :=
        ( component_prefix (c :: t)).length_le
      rw [List.cons_append, versionSplit_cons, ← List.cons_append, component_append h,
        List.drop_append_of_le_length hlen, happend]
      rfl
termination_by a.length
decreasing_by
  rw [List.length_drop]
  exact Nat.sub_lt (Nat.succ_pos _) hpos

/-! ## Keys -/

/-- The place of a component: its class, then its number or its text. -/
abbrev Key := Nat ×ₗ Nat ×ₗ Text

namespace Key

def mk (cls value : Nat) (text : Text) : Key := toLex (cls, toLex (value, text))

/-- The end of the version, behind the pre-releases and before all other components. -/
def ofEnd : Key := mk 1 0 []

/-- A component that is no pre-release. Texts are below or above all numbers, by their
first character. -/
def ofPlain (comp : Text) : Key :=
  if isNum comp then mk 3 (numValue comp) []
  else mk (if comp < ['0'] then 2 else 4) 0 comp

def ofComponent (comp : Text) : Key := if isPre comp then mk 0 0 comp else ofPlain comp

end Key

/-- The keys of a list of components and of its end. -/
def keys (comps : List Text) : List Key := comps.map Key.ofComponent ++ [Key.ofEnd]

namespace VersionLemmas

theorem mk_lt_iff {m n v w : Nat} {s t : Text} :
    Key.mk m v s < Key.mk n w t ↔ m < n ∨ m = n ∧ (v < w ∨ v = w ∧ s < t) := by
  rw [Key.mk, Key.mk, Prod.Lex.toLex_lt_toLex, Prod.Lex.toLex_lt_toLex]

theorem mk_inj {m n v w : Nat} {s t : Text} :
    Key.mk m v s = Key.mk n w t ↔ m = n ∧ v = w ∧ s = t := by
  simp [Key.mk]

theorem head?_digit {comp : Text} :
    isNum comp = true ↔ ∃ c t, comp = c :: t ∧ c.isDigit = true := by
  cases comp with
  | nil => simp [isNum]
  | cons c t => simp [isNum]

theorem digit_iff {c : Char} : c.isDigit = true ↔ '0' ≤ c ∧ c ≤ '9' := by
  rw [Char.isDigit, Bool.and_eq_true, decide_eq_true_iff, decide_eq_true_iff]
  rfl

/-- A component without a leading digit is below all digits, or above all of them. -/
theorem lt_zero_or_gt {comp : Text} (h : isNum comp = false) :
    (∀ c t, c.isDigit = true → comp < c :: t) ∧ comp < ['0'] ∨
      (∀ c t, c.isDigit = true → c :: t < comp) ∧ ¬ comp < ['0'] := by
  cases comp with
  | nil => exact .inl ⟨fun c t _ => List.nil_lt_cons c t, List.nil_lt_cons _ _⟩
  | cons d comp =>
    have hd : ¬ ('0' ≤ d ∧ d ≤ '9') := by
      rw [← digit_iff]
      simpa [isNum] using h
    rcases lt_or_ge d '0' with hlow | hhigh
    · refine .inl ⟨?_, List.cons_lt_cons_iff.mpr (.inl hlow)⟩
      intro c t hc
      exact List.cons_lt_cons_iff.mpr (.inl (lt_of_lt_of_le hlow (digit_iff.mp hc).1))
    · have habove : '9' < d := lt_of_not_ge fun hle => hd ⟨hhigh, hle⟩
      refine .inr ⟨?_, ?_⟩
      · intro c t hc
        exact List.cons_lt_cons_iff.mpr (.inl (lt_of_le_of_lt (digit_iff.mp hc).2 habove))
      · exact lt_asymm (List.cons_lt_cons_iff.mpr (.inl (lt_trans (by decide) habove)))

/-- Two numbers are compared by their values. -/
theorem ofPlain_lt_of_num {x y : Text} (hx : isNum x = true) (hy : isNum y = true) :
    Key.ofPlain x < Key.ofPlain y ↔ numValue x < numValue y := by
  rw [Key.ofPlain, Key.ofPlain, if_pos hx, if_pos hy, mk_lt_iff]
  simp

/-- All other components are compared as strings. -/
theorem ofPlain_lt_of_text {x y : Text} (h : ¬ (isNum x = true ∧ isNum y = true)) :
    Key.ofPlain x < Key.ofPlain y ↔ x < y := by
  have hnum : ∀ {z : Text}, isNum z ≠ true → isNum z = false := Bool.eq_false_iff.mpr
  by_cases hx : isNum x = true
  · obtain ⟨c, t, rfl, hc⟩ := head?_digit.mp hx
    have hy := hnum fun hy => h ⟨hx, hy⟩
    rw [Key.ofPlain, Key.ofPlain, if_pos hx, if_neg (by rw [hy]; exact Bool.false_ne_true),
      mk_lt_iff]
    rcases lt_zero_or_gt hy with ⟨hlt, hlow⟩ | ⟨hgt, hlow⟩
    · simp [hlow, lt_asymm (hlt c t hc)]
    · simp [hlow, hgt c t hc]
  · rw [Key.ofPlain, if_neg hx]
    by_cases hy : isNum y = true
    · obtain ⟨c, t, rfl, hc⟩ := head?_digit.mp hy
      rw [Key.ofPlain, if_pos hy, mk_lt_iff]
      rcases lt_zero_or_gt (hnum hx) with ⟨hlt, hlow⟩ | ⟨hgt, hlow⟩
      · simp [hlow, hlt c t hc]
      · simp [hlow, lt_asymm (hgt c t hc)]
    · rw [Key.ofPlain, if_neg hy, mk_lt_iff]
      rcases lt_zero_or_gt (hnum hx) with ⟨-, hlowx⟩ | ⟨-, hlowx⟩ <;>
        rcases lt_zero_or_gt (hnum hy) with ⟨-, hlowy⟩ | ⟨-, hlowy⟩
      · simp [hlowx, hlowy]
      · simp [hlowx, hlowy, lt_of_lt_of_le hlowx (not_lt.mp hlowy)]
      · simp [hlowx, hlowy, lt_asymm (lt_of_lt_of_le hlowy (not_lt.mp hlowx))]
      · simp [hlowx, hlowy]

theorem end_lt_ofPlain (x : Text) : Key.ofEnd < Key.ofPlain x := by
  rw [Key.ofEnd, Key.ofPlain]
  split
  · exact mk_lt_iff.mpr (.inl (by decide))
  · split <;> exact mk_lt_iff.mpr (.inl (by decide))

theorem pre_lt_end (x : Text) : Key.mk 0 0 x < Key.ofEnd := mk_lt_iff.mpr (.inl (by decide))

theorem isNum_of_isPre {x : Text} (h : isPre x = true) : isNum x = false := by
  rcases of_decide_eq_true h with rfl | rfl | rfl | rfl <;> rfl

theorem keys_cons (x : Text) (xs : List Text) :
    keys (x :: xs) = Key.ofComponent x :: keys xs := rfl

theorem threeWay_keys {x y : Text} {p q : Prop} [Decidable p] [Decidable q] {xs ys : List Text}
    (hp : Key.ofComponent x < Key.ofComponent y ↔ p)
    (hq : Key.ofComponent y < Key.ofComponent x ↔ q) :
    threeWay (keys (x :: xs)) (keys (y :: ys)) =
      if p then -1 else if q then 1 else threeWay (keys xs) (keys ys) := by
  rw [keys_cons, keys_cons, threeWay_cons]
  simp only [hp, hq]

/-- Two components, neither or both of a pre-release. -/
theorem threeWay_keys_cons {x y : Text} (h : isPre x = isPre y) (xs ys : List Text) :
    threeWay (keys (x :: xs)) (keys (y :: ys)) =
      if isNum x ∧ isNum y then
        if numValue x < numValue y then -1
        else if numValue y < numValue x then 1
        else threeWay (keys xs) (keys ys)
      else if x < y then -1
      else if y < x then 1
      else threeWay (keys xs) (keys ys) := by
  cases hx : isPre x with
  | true =>
    have hkey : ∀ z, isPre z = true → Key.ofComponent z = Key.mk 0 0 z := fun z hz => if_pos hz
    have hy : isPre y = true := h ▸ hx
    rw [if_neg (by rw [isNum_of_isPre hx]; exact fun h => Bool.false_ne_true h.1)]
    apply threeWay_keys <;> rw [hkey x hx, hkey y hy, mk_lt_iff] <;> simp
  | false =>
    have hkey : ∀ z, isPre z = false → Key.ofComponent z = Key.ofPlain z :=
      fun z hz => if_neg (by rw [hz]; exact Bool.false_ne_true)
    have hy : isPre y = false := h ▸ hx
    split
    · next hnum =>
      apply threeWay_keys
      · rw [hkey x hx, hkey y hy, ofPlain_lt_of_num hnum.1 hnum.2]
      · rw [hkey x hx, hkey y hy, ofPlain_lt_of_num hnum.2 hnum.1]
    · next htext =>
      apply threeWay_keys
      · rw [hkey x hx, hkey y hy, ofPlain_lt_of_text htext]
      · rw [hkey x hx, hkey y hy, ofPlain_lt_of_text fun h => htext h.symm]

theorem ofComponent_lt_end {x : Text} (h : isPre x = true) : Key.ofComponent x < Key.ofEnd := by
  rw [Key.ofComponent, if_pos h]
  exact pre_lt_end x

theorem end_lt_ofComponent {x : Text} (h : isPre x = false) : Key.ofEnd < Key.ofComponent x := by
  rw [Key.ofComponent, if_neg (by rw [h]; exact Bool.false_ne_true)]
  exact end_lt_ofPlain x

theorem ofComponent_pre_lt {x y : Text} (hx : isPre x = true) (hy : isPre y = false) :
    Key.ofComponent x < Key.ofComponent y :=
  lt_trans (ofComponent_lt_end hx) (end_lt_ofComponent hy)

theorem threeWay_of_head_lt {k k' : Key} (h : k < k') (ks ks' : List Key) :
    threeWay (k :: ks) (k' :: ks') = -1 := by
  rw [threeWay_cons, if_pos h]

theorem threeWay_of_head_gt {k k' : Key} (h : k' < k) (ks ks' : List Key) :
    threeWay (k :: ks) (k' :: ks') = 1 := by
  rw [threeWay_cons, if_neg (lt_asymm h), if_pos h]

end VersionLemmas

/-- The loop compares the keys of the components. -/
theorem compareFrom_eq_threeWay (left right : List Text) :
    compareFrom left right = threeWay (keys left) (keys right) := by
  induction left generalizing right with
  | nil =>
    cases right with
    | nil => rw [compareFrom, threeWay_self]
    | cons y ys =>
      rw [compareFrom, keys_cons]
      cases hy : isPre y with
      | true => exact (threeWay_of_head_gt (ofComponent_lt_end hy) _ _).symm
      | false => exact (threeWay_of_head_lt (end_lt_ofComponent hy) _ _).symm
  | cons x xs ih =>
    cases right with
    | nil =>
      rw [compareFrom, keys_cons]
      cases hx : isPre x with
      | true => exact (threeWay_of_head_lt (ofComponent_lt_end hx) _ _).symm
      | false => exact (threeWay_of_head_gt (end_lt_ofComponent hx) _ _).symm
    | cons y ys =>
      rw [compareFrom, ih ys]
      cases hx : isPre x <;> cases hy : isPre y
      · rw [threeWay_keys_cons (hx.trans hy.symm)]
        rfl
      · exact (threeWay_of_head_gt (ofComponent_pre_lt hy hx) _ _).symm
      · exact (threeWay_of_head_lt (ofComponent_pre_lt hx hy) _ _).symm
      · rw [threeWay_keys_cons (hx.trans hy.symm)]
        rfl

theorem versionCmp_eq_threeWay (a b : Text) :
    versionCmp a b = threeWay (keys (versionSplit a)) (keys (versionSplit b)) :=
  compareFrom_eq_threeWay _ _

/-! ## Equality -/

/-- The same component, up to leading zeros of a number. -/
def SameComponent (x y : Text) : Prop :=
  x = y ∨ (∀ c ∈ x, c.isDigit = true) ∧ (∀ c ∈ y, c.isDigit = true) ∧ x ≠ [] ∧ y ≠ [] ∧
    x.dropWhile (· = '0') = y.dropWhile (· = '0')

namespace VersionLemmas

theorem numValue_of_digits {x : Text} (h : ∀ c ∈ x, c.isDigit = true) :
    numValue x = Nat.ofDigitChars 10 (x.dropWhile (· = '0')) 0 := by
  rw [numValue, List.takeWhile_eq_self_iff.mpr h]
  induction x with
  | nil => rfl
  | cons c x ih =>
    by_cases hc : c = '0'
    · subst hc
      have hx := ih fun d hd => h d (List.mem_cons_of_mem _ hd)
      rw [Nat.ofDigitChars_cons, List.dropWhile_cons_of_pos (by rfl), ← hx]
      rfl
    · rw [List.dropWhile_cons_of_neg (by simpa using hc)]

theorem digitChar_of_digit {c : Char} (h : c.isDigit = true) :
    c.toNat - '0'.toNat < 10 ∧ Nat.digitChar (c.toNat - '0'.toNat) = c := by
  obtain ⟨hlow, hhigh⟩ := digit_iff.mp h
  have h0 : 48 ≤ c.toNat := hlow
  have h9 : c.toNat ≤ 57 := hhigh
  have hlt : c.toNat - '0'.toNat < 10 := by
    show c.toNat - 48 < 10
    omega
  refine ⟨hlt, Char.toNat_inj.mp ?_⟩
  rw [Nat.toNat_digitChar_of_lt_ten hlt]
  show 48 + (c.toNat - 48) = c.toNat
  omega

/-- Digits without a leading zero are the ones of their value. -/
theorem toDigits_ofDigitChars {x : Text} (h : ∀ c ∈ x, c.isDigit = true) (hne : x ≠ [])
    (hzero : x.head? ≠ some '0') :
    0 < Nat.ofDigitChars 10 x 0 ∧ Nat.toDigits 10 (Nat.ofDigitChars 10 x 0) = x := by
  induction x using List.reverseRecOn with
  | nil => exact absurd rfl hne
  | append_singleton x c ih =>
    obtain ⟨hlt, hchar⟩ := digitChar_of_digit (h c (by simp))
    rw [Nat.ofDigitChars_append, Nat.ofDigitChars_cons, Nat.ofDigitChars_nil]
    cases x with
    | nil =>
      have hc : c ≠ '0' := fun heq => hzero (by rw [heq]; rfl)
      have hpos : 0 < c.toNat - '0'.toNat := by
        refine Nat.pos_of_ne_zero fun hval => hc ?_
        rw [← hchar, hval]
        rfl
      rw [Nat.ofDigitChars_nil, Nat.mul_zero, Nat.zero_add, Nat.toDigits_of_lt_base hlt, hchar]
      exact ⟨hpos, rfl⟩
    | cons d x =>
      have hzero' : (d :: x).head? ≠ some '0' := hzero
      obtain ⟨hpos, hdigits⟩ :=
        ih (fun e he => h e (List.mem_append_left _ he)) (List.cons_ne_nil _ _) hzero'
      refine ⟨Nat.add_pos_left (Nat.mul_pos (by decide) hpos) _, ?_⟩
      rw [← Nat.toDigits_append_toDigits (by decide) hpos hlt, hdigits,
        Nat.toDigits_of_lt_base hlt, hchar]

theorem isNum_of_digits {x : Text} (h : ∀ c ∈ x, c.isDigit = true) (hne : x ≠ []) :
    isNum x = true := by
  cases x with
  | nil => exact absurd rfl hne
  | cons c x => simp [isNum, h c List.mem_cons_self]

theorem ofComponent_of_num {x : Text} (h : isNum x = true) :
    Key.ofComponent x = Key.mk 3 (numValue x) [] := by
  have hpre : ¬ isPre x = true := by
    intro hpre
    rw [isNum_of_isPre hpre] at h
    cases h
  rw [Key.ofComponent, if_neg hpre, Key.ofPlain, if_pos h]

theorem ofComponent_of_text {x : Text} (h : isNum x = false) :
    ∃ cls, cls ≠ 3 ∧ Key.ofComponent x = Key.mk cls 0 x := by
  rw [Key.ofComponent]
  split
  · exact ⟨0, by decide, rfl⟩
  · rw [Key.ofPlain, if_neg (by rw [h]; exact Bool.false_ne_true)]
    refine ⟨_, ?_, rfl⟩
    split <;> decide

theorem head?_dropWhile_zero (x : Text) : (x.dropWhile (· = '0')).head? ≠ some '0' := by
  intro h
  have := List.head?_dropWhile_not (· = '0') x
  rw [h] at this
  simp at this

/-- Two numbers have one value only if they are the same up to leading zeros. -/
theorem dropWhile_eq_of_numValue {x y : Text} (hx : ∀ c ∈ x, c.isDigit = true)
    (hy : ∀ c ∈ y, c.isDigit = true) (h : numValue x = numValue y) :
    x.dropWhile (· = '0') = y.dropWhile (· = '0') := by
  rw [numValue_of_digits hx, numValue_of_digits hy] at h
  have hsub : ∀ {z : Text}, (∀ c ∈ z, c.isDigit = true) →
      ∀ c ∈ z.dropWhile (· = '0'), c.isDigit = true :=
    fun hz c hc => hz c (List.dropWhile_suffix _ |>.subset hc)
  have hread : ∀ {z : Text}, (∀ c ∈ z, c.isDigit = true) → z.dropWhile (· = '0') ≠ [] → _ :=
    fun {z} hz hne => toDigits_ofDigitChars (hsub hz) hne (head?_dropWhile_zero z)
  by_cases hx0 : x.dropWhile (· = '0') = []
  · by_cases hy0 : y.dropWhile (· = '0') = []
    · rw [hx0, hy0]
    · have hpos := (hread hy hy0).1
      rw [← h, hx0, Nat.ofDigitChars_nil] at hpos
      exact absurd hpos (lt_irrefl 0)
  · by_cases hy0 : y.dropWhile (· = '0') = []
    · have hpos := (hread hx hx0).1
      rw [h, hy0, Nat.ofDigitChars_nil] at hpos
      exact absurd hpos (lt_irrefl 0)
    · rw [← (hread hx hx0).2, ← (hread hy hy0).2, h]

/-- A component that starts with a digit has only digits. -/
def Whole (x : Text) : Prop := isNum x = true → ∀ c ∈ x, c.isDigit = true

theorem whole_component (t : Text) : Whole (component t) := by
  cases t with
  | nil => intro _ c hc; cases hc
  | cons d t =>
    intro hnum c hc
    cases hd : d.isDigit with
    | true =>
      rw [component_of_digit hd] at hc
      rcases List.mem_cons.mp hc with rfl | hc
      · exact hd
      · exact List.mem_takeWhile_imp hc
    | false =>
      rw [component_of_not_digit hd] at hnum
      simp [isNum, hd] at hnum

theorem whole_of_mem {a x : Text} (h : x ∈ versionSplit a) : Whole x := by
  match a with
  | [] =>
    rw [versionSplit_nil, List.mem_singleton] at h
    rw [h]
    intro _ c hc
    cases hc
  | c :: t =>
    rw [versionSplit_cons, List.mem_cons] at h
    rcases h with rfl | h
    · exact whole_component _
    · exact whole_of_mem h
termination_by a.length
decreasing_by
  rw [List.length_drop]
  exact Nat.sub_lt (Nat.succ_pos _) (component_length_pos c t)

theorem ofComponent_eq_iff {x y : Text} (hx : Whole x) (hy : Whole y) :
    Key.ofComponent x = Key.ofComponent y ↔ SameComponent x y := by
  constructor
  · intro h
    cases hxn : isNum x <;> cases hyn : isNum y
    · obtain ⟨cls, -, hxk⟩ := ofComponent_of_text hxn
      obtain ⟨cls', -, hyk⟩ := ofComponent_of_text hyn
      rw [hxk, hyk, mk_inj] at h
      exact .inl h.2.2
    · obtain ⟨cls, hcls, hxk⟩ := ofComponent_of_text hxn
      rw [hxk, ofComponent_of_num hyn, mk_inj] at h
      exact absurd h.1 hcls
    · obtain ⟨cls, hcls, hyk⟩ := ofComponent_of_text hyn
      rw [hyk, ofComponent_of_num hxn, mk_inj] at h
      exact absurd h.1.symm hcls
    · rw [ofComponent_of_num hxn, ofComponent_of_num hyn, mk_inj] at h
      refine .inr ⟨hx hxn, hy hyn, ?_, ?_, dropWhile_eq_of_numValue (hx hxn) (hy hyn) h.2.1⟩
      · rintro rfl
        cases hxn
      · rintro rfl
        cases hyn
  · rintro (rfl | ⟨hxd, hyd, hxne, hyne, hdrop⟩)
    · rfl
    · rw [ofComponent_of_num (isNum_of_digits hxd hxne),
        ofComponent_of_num (isNum_of_digits hyd hyne), numValue_of_digits hxd,
        numValue_of_digits hyd, hdrop]

theorem keys_eq_iff {xs ys : List Text} (hx : ∀ x ∈ xs, Whole x) (hy : ∀ y ∈ ys, Whole y) :
    keys xs = keys ys ↔ List.Forall₂ SameComponent xs ys := by
  rw [keys, keys, List.append_left_inj]
  induction xs generalizing ys with
  | nil =>
    cases ys with
    | nil => simp
    | cons y ys => exact iff_of_false (by simp) nofun
  | cons x xs ih =>
    cases ys with
    | nil => exact iff_of_false (by simp) nofun
    | cons y ys =>
      rw [List.map_cons, List.map_cons, List.cons.injEq, List.forall₂_cons,
        ofComponent_eq_iff (hx x List.mem_cons_self) (hy y List.mem_cons_self),
        ih (fun z hz => hx z (List.mem_cons_of_mem _ hz))
          fun z hz => hy z (List.mem_cons_of_mem _ hz)]

end VersionLemmas

/-- Two versions are equal in the order if they have the same components. -/
theorem versionCmp_eq_zero_iff (a b : Text) :
    versionCmp a b = 0 ↔ List.Forall₂ SameComponent (versionSplit a) (versionSplit b) := by
  rw [versionCmp_eq_threeWay, threeWay_eq_zero,
    keys_eq_iff (fun _ => whole_of_mem) fun _ => whole_of_mem]

/-! ## Pre-releases -/

namespace VersionLemmas

theorem boundary_hyphen (a : Text) {u : Text} (hu : ∀ d ∈ u.head?, d = '-') : Boundary a u :=
  fun _ _ d hd => .inl (hu d hd)

theorem keys_append (comps xs : List Text) :
    keys (comps ++ xs) = comps.map Key.ofComponent ++ keys xs := by
  rw [keys, List.map_append, List.append_assoc]
  rfl

theorem versionCmp_of_common {a b : Text} {comps xs ys : List Text}
    (ha : versionSplit a = comps ++ xs) (hb : versionSplit b = comps ++ ys) :
    versionCmp a b = threeWay (keys xs) (keys ys) := by
  rw [versionCmp_eq_threeWay, ha, hb, keys_append, keys_append, threeWay_append]

/-- The components of a pre-release: those of the version, the marker, and the rest. -/
theorem versionSplit_pre {a pre t : Text} (hpre : pre = "-rc" ∨ pre = "-trunk")
    (ht : ∀ d ∈ t.head?, d = '-' ∨ d.isDigit = true) :
    ∃ comps, versionSplit a = comps ++ [[]] ∧
      versionSplit (a ++ pre ++ t) = comps ++ pre :: versionSplit t := by
  have hmarker : versionSplit pre = [pre, []] ∧ (∀ d ∈ (pre ++ t).head?, d = '-') ∧
      ∀ c ∈ pre.getLast?, c.isDigit = false := by
    rcases hpre with rfl | rfl
    · refine ⟨?_, by simp, forall_mem_of_option (by decide)⟩
      rw [show (("-rc" : String) : Text) = ['-', 'r', 'c'] from rfl, versionSplit_cons]
      exact congrArg _ versionSplit_nil
    · refine ⟨?_, by simp, forall_mem_of_option (by decide)⟩
      rw [show (("-trunk" : String) : Text) = ['-', 't', 'r', 'u', 'n', 'k'] from rfl,
        versionSplit_cons]
      exact congrArg _ versionSplit_nil
  obtain ⟨hself, hhead, hlast⟩ := hmarker
  obtain ⟨comps, ha, hau⟩ := versionSplit_append (boundary_hyphen a hhead)
  have hbound : Boundary pre t := by
    intro c hc d hd
    rw [hlast c hc]
    exact (ht d hd).imp_right fun h => by rw [h]; exact Bool.false_ne_true
  obtain ⟨comps', hp, hpt⟩ := versionSplit_append hbound
  rw [hself] at hp
  have hcomps : [pre] = comps' := List.append_inj_left' (hp : [pre] ++ [[]] = comps' ++ [[]]) rfl
  refine ⟨comps, ha, ?_⟩
  rw [List.append_assoc, hau, hpt, ← hcomps]
  rfl

theorem isPre_of_marker {pre : Text} (hpre : pre = "-rc" ∨ pre = "-trunk") : isPre pre = true := by
  rcases hpre with rfl | rfl <;> rfl

theorem isPre_component {s : Text} (hs : '\n' ∉ s) (hrc : component s ≠ "-rc")
    (htrunk : component s ≠ "-trunk") : isPre (component s) = false := by
  have hno : '\n' ∉ component s := fun h => hs (( component_prefix s).subset h)
  refine decide_eq_false ?_
  rintro (h | h | h | h)
  · exact hrc h
  · exact htrunk h
  · exact hno (by rw [h]; decide)
  · exact hno (by rw [h]; decide)

end VersionLemmas

/-- A pre-release comes before the version itself, and before every version that goes on
with something else than a pre-release. -/
theorem versionCmp_pre {a t pre : Text} (hpre : pre = "-rc" ∨ pre = "-trunk")
    (ht : ∀ d ∈ t.head?, d = '-' ∨ d.isDigit = true) :
    versionCmp (a ++ pre ++ t) a = -1 ∧
      ∀ s : Text, s ≠ [] → Boundary a s → isPre (component s) = false →
        versionCmp (a ++ pre ++ t) (a ++ s) = -1 := by
  obtain ⟨comps, ha, hat⟩ := versionSplit_pre (a := a) hpre ht
  have hlow := isPre_of_marker hpre
  constructor
  · rw [versionCmp_of_common hat ha]
    exact threeWay_of_head_lt (ofComponent_pre_lt hlow rfl) _ _
  · intro s hne hbound hs
    obtain ⟨comps', ha', has⟩ := versionSplit_append hbound
    have hcomps : comps' = comps := List.append_inj_left' (ha'.symm.trans ha) rfl
    rw [hcomps] at has
    rw [versionCmp_of_common hat has]
    cases s with
    | nil => exact absurd rfl hne
    | cons c s =>
      rw [versionSplit_cons]
      exact threeWay_of_head_lt (ofComponent_pre_lt hlow hs) _ _

/-! ## The order of all versions -/

/-- The comparison of versions is a total preorder in which the pre-releases of a version
come before it. -/
theorem versionCmp_total_preorder :
    (∀ a b, versionCmp a b = -1 ∨ versionCmp a b = 0 ∨ versionCmp a b = 1) ∧
    (∀ a b, versionCmp a b = -versionCmp b a) ∧
    (∀ a b c, versionCmp a b ≤ 0 → versionCmp b c ≤ 0 → versionCmp a c ≤ 0) ∧
    (∀ a b, versionCmp a b = 0 ↔ List.Forall₂ SameComponent (versionSplit a) (versionSplit b)) ∧
    ∀ a t pre : Text, pre = "-rc" ∨ pre = "-trunk" →
      (∀ d ∈ t.head?, d = '-' ∨ d.isDigit = true) →
      versionCmp (a ++ pre ++ t) a = -1 ∧
        ∀ s : Text, '\n' ∉ s → s ≠ [] →
          (∀ d ∈ s.head?, d = '-' ∨
            (∃ c ∈ a.getLast?, c.isDigit = true) ∧ d.isDigit = false) →
          (versionSplit s).head? ≠ some "-rc" → (versionSplit s).head? ≠ some "-trunk" →
          versionCmp (a ++ pre ++ t) (a ++ s) = -1 := by
  refine ⟨?_, ?_, ?_, versionCmp_eq_zero_iff, ?_⟩
  · intro a b
    rw [versionCmp_eq_threeWay]
    exact threeWay_cases _ _
  · intro a b
    rw [versionCmp_eq_threeWay, versionCmp_eq_threeWay]
    exact threeWay_swap _ _
  · intro a b c hab hbc
    rw [versionCmp_eq_threeWay, threeWay_nonpos] at *
    exact le_trans hab hbc
  · intro a t pre hpre ht
    obtain ⟨hself, hother⟩ := versionCmp_pre (a := a) hpre ht
    refine ⟨hself, ?_⟩
    intro s hs hne hstart hrc htrunk
    refine hother s hne ?_ ?_
    · intro c hc d hd
      refine (hstart d hd).imp_right ?_
      rintro ⟨⟨c', hc', hdigit⟩, hd'⟩
      obtain rfl : c = c' := Option.some.inj (hc.symm.trans hc')
      rw [hdigit, hd']
      decide
    · cases s with
      | nil => exact absurd rfl hne
      | cons c s =>
        rw [versionSplit_cons, List.head?_cons] at hrc htrunk
        exact isPre_component hs (fun h => hrc (congrArg some h)) fun h => htrunk (congrArg some h)

theorem versionCmp_total_preorder_example :
    versionCmp "3.16-rc4" "3.16" = -1 ∧ versionCmp "3.16-rc4" "3.16-4-amd64" = -1 := by
  have hpre := versionCmp_total_preorder.2.2.2.2 "3.16" "4" "-rc" (.inl rfl)
    (forall_mem_of_option (by decide))
  refine ⟨hpre.1, hpre.2 "-4-amd64" (by decide) (by decide) (fun d hd => .inl ?_) ?_ ?_⟩
  · exact (Option.some.inj hd).symm
  all_goals
    rw [show (("-4-amd64" : String) : Text) = '-' :: ("4-amd64" : Text) from rfl,
      versionSplit_cons]
    decide

end DebianKernel.DebianLinux
