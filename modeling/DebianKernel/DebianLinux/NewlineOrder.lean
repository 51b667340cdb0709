import DebianKernel.DebianLinux.VersionCmp

/-!
# Versions with a newline

A newline at the end of a version is a part of its last component, or a component of its
own. It can move the version behind others that it comes before.

Results:
1. `versionSplit_newline`: the components of a version with a newline.
2. `lt_newline`: the newline makes a version greater.
3. `Passed`: how a version can be passed by its newline; `newlineMoves_iff_passed`.
4. `newline_order_iff`: the versions that a newline moves.
-/

namespace DebianKernel.DebianLinux

open Text VersionLemmas

/-- The component at the end of a version. -/
def lastComponent (version : Text) : Option Text := (versionSplit version).dropLast.getLast?

/-- `w` goes on behind `v`, in a way that a newline behind `v` is greater than: with a
character that is smaller than the newline, or with a new component where `v` ends in a text. -/
def NewlineMoves (v w : Text) : Prop :=
  ∃ v' c t, w = v' ++ c :: t ∧ versionCmp v v' = 0 ∧
    (c < '\n' ∧ (∀ b ∈ lastComponent v, isPre b = false) ∨
      (c.isDigit = true ∨ c = '-') ∧ isPre (component (c :: t)) = false ∧
        ∃ b ∈ lastComponent v, isNum b = false)

namespace NewlineLemmas

/-! ## The components -/

/-- A component ends at a boundary. -/
theorem boundary_component (v : Text) : Boundary (component v) (v.drop (component v).length) := by
  intro e he d hd
  cases v with
  | nil => cases he
  | cons c t =>
    have hdrop : ∀ p : Char → Bool, t.drop (t.takeWhile p).length = t.dropWhile p := by
      intro p
      conv_lhs => rw [← List.takeWhile_append_dropWhile (p := p) (l := t)]
      rw [List.drop_left']
      rw [List.takeWhile_append_dropWhile]
    have hnot : ∀ {p : Char → Bool}, d ∈ (t.dropWhile p).head? → p d = false := by
      intro p hmem
      have hhead := List.head?_dropWhile_not p t
      rw [hmem] at hhead
      simpa using hhead
    cases hc : c.isDigit with
    | true =>
      rw [component_of_digit hc] at he hd
      rw [List.length_cons, List.drop_succ_cons, hdrop] at hd
      have hdigit : e.isDigit = true := by
        rcases List.mem_cons.mp (List.mem_of_getLast? he) with rfl | hmem
        · exact hc
        · exact List.mem_takeWhile_imp hmem
      refine .inr ?_
      rw [hdigit, hnot hd]
      decide
    | false =>
      rw [component_of_not_digit hc] at he hd
      rw [List.length_cons, List.drop_succ_cons, hdrop] at hd
      have hdigit : e.isDigit = false := by
        rcases List.mem_cons.mp (List.mem_of_getLast? he) with rfl | hmem
        · exact hc
        · have hplain : e ≠ '-' ∧ e.isDigit = false := by
            simpa [isPlain] using List.mem_takeWhile_imp hmem
          exact hplain.2
      have hplain := hnot hd
      rcases eq_or_ne d '-' with rfl | hne
      · exact .inl rfl
      · rw [hdigit, isPlain_of_not hplain hne]
        exact .inr (by decide)

/-- The first component, and a beginning of what follows it. -/
theorem versionSplit_component {y s : Text} (hy : y ≠ []) (hself : component y = y)
    (h : Boundary y s) : versionSplit (y ++ s) = y :: versionSplit s := by
  cases y with
  | nil => exact absurd rfl hy
  | cons c t =>
    rw [List.cons_append, versionSplit_cons, ← List.cons_append, component_append h, hself,
      List.drop_left]

theorem component_component (v : Text) : component (component v) = component v := by
  cases v with
  | nil => rfl
  | cons c t =>
    cases hc : c.isDigit with
    | true => rw [component_of_digit hc, component_of_digit hc, List.takeWhile_idem]
    | false => rw [component_of_not_digit hc, component_of_not_digit hc, List.takeWhile_idem]

/-- A version is empty, or a component and a version behind it. -/
@[elab_as_elim]
theorem version_induction {P : Text → Prop} (nil : P [])
    (cons : ∀ y s : Text, y ≠ [] → component y = y → Boundary y s →
      versionSplit (y ++ s) = y :: versionSplit s → P s → P (y ++ s)) (v : Text) : P v := by
  match v with
  | [] => exact nil
  | c :: t =>
    have hpos := component_length_pos c t
    have hrest : P ((c :: t).drop (component (c :: t)).length) := version_induction nil cons _
    have hdrop := component_drop (c :: t)
    have hsplit := cons _ _ (List.ne_nil_of_length_pos hpos) (component_component _)
      (boundary_component (c :: t)) (by rw [hdrop, versionSplit_cons]) hrest
    rwa [hdrop] at hsplit
termination_by v.length
decreasing_by
  rw [List.length_drop]
  exact Nat.sub_lt (Nat.succ_pos _) hpos

theorem flatten_versionSplit (v : Text) : (versionSplit v).flatten = v := by
  induction v using version_induction with
  | nil => rw [versionSplit_nil]; rfl
  | cons y s _ _ _ hsplit ih => rw [hsplit, List.flatten_cons, ih]

theorem versionSplit_eq_nil_iff {v : Text} : versionSplit v = [[]] ↔ v = [] := by
  constructor
  · intro h
    rw [← flatten_versionSplit v, h]
    rfl
  · rintro rfl
    exact versionSplit_nil

/-- The components of a version without newlines. -/
inductive Comps : List Text → Prop
  | ended : Comps [[]]
  | cons {x : Text} {xs : List Text} : x ≠ [] → '\n' ∉ x → Comps xs → Comps (x :: xs)

theorem comps_versionSplit {v : Text} (hv : '\n' ∉ v) : Comps (versionSplit v) := by
  induction v using version_induction with
  | nil =>
    rw [versionSplit_nil]
    exact .ended
  | cons y s hy _ _ hsplit ih =>
    rw [List.mem_append, not_or] at hv
    rw [hsplit]
    exact .cons hy hv.1 (ih hv.2)

/-- The components of a version when a newline is put behind it. -/
def withNewline : List Text → List Text
  | [] => []
  | x :: xs =>
    if x = [] then [['\n'], []]
    else if xs = [[]] ∧ isNum x = false then [x ++ ['\n'], []]
    else x :: withNewline xs

@[simp] theorem withNewline_nil : withNewline [[]] = [['\n'], []] := rfl

theorem withNewline_text {b : Text} (hb : b ≠ []) (hnum : isNum b = false) :
    withNewline [b, []] = [b ++ ['\n'], []] := by
  rw [withNewline, if_neg hb, if_pos ⟨rfl, hnum⟩]

theorem withNewline_cons {x : Text} {xs : List Text} (hx : x ≠ [])
    (h : xs = [[]] → isNum x = true) : withNewline (x :: xs) = x :: withNewline xs := by
  rw [withNewline, if_neg hx, if_neg]
  rintro ⟨hxs, hnum⟩
  exact Bool.false_ne_true (hnum.symm.trans (h hxs))

theorem withNewline_head {x : Text} (hx : x ≠ []) (xs : List Text) :
    ∃ s rest, withNewline (x :: xs) = (x ++ s) :: rest := by
  rw [withNewline, if_neg hx]
  split
  · exact ⟨_, _, rfl⟩
  · exact ⟨[], _, by rw [List.append_nil]⟩

theorem isNum_getLast {y : Text} (hself : component y = y) (hy : y ≠ []) :
    ∃ e, y.getLast? = some e ∧ e.isDigit = isNum y := by
  cases y with
  | nil => exact absurd rfl hy
  | cons c t =>
    have hnum : isNum (c :: t) = c.isDigit := by simp [isNum]
    refine ⟨_, List.getLast?_eq_some_getLast hy, ?_⟩
    have hmem := List.getLast_mem hy
    generalize (c :: t).getLast hy = e at hmem ⊢
    rw [hnum]
    cases hc : c.isDigit with
    | true =>
      rw [component_of_digit hc] at hself
      rcases List.mem_cons.mp hmem with rfl | hmem
      · exact hc
      · rw [← (List.cons.inj hself).2] at hmem
        exact List.mem_takeWhile_imp hmem
    | false =>
      rw [component_of_not_digit hc] at hself
      rcases List.mem_cons.mp hmem with rfl | hmem
      · exact hc
      · rw [← (List.cons.inj hself).2] at hmem
        have hplain : e ≠ '-' ∧ e.isDigit = false := by
          simpa [isPlain] using List.mem_takeWhile_imp hmem
        exact hplain.2

/-- A component of the class goes on with a plain character. -/
theorem component_append_plain {y : Text} (hself : component y = y) (hy : y ≠ [])
    (hnum : isNum y = false) {c : Char} (hc : isPlain c = true) (t : Text) :
    component (y ++ c :: t) = y ++ c :: t.takeWhile isPlain := by
  cases y with
  | nil => exact absurd rfl hy
  | cons d s =>
    have hd : d.isDigit = false := by simpa [isNum] using hnum
    rw [component_of_not_digit hd] at hself
    rw [List.cons_append, component_of_not_digit hd, List.cons_append,
      List.takeWhile_append_of_pos, List.takeWhile_cons_of_pos hc]
    intro e he
    rw [← (List.cons.inj hself).2] at he
    exact List.mem_takeWhile_imp he

theorem versionSplit_newline (v : Text) :
    versionSplit (v ++ ['\n']) = withNewline (versionSplit v) := by
  induction v using version_induction with
  | nil =>
    rw [List.nil_append, versionSplit_cons, versionSplit_nil, withNewline, if_pos rfl]
    exact congrArg _ versionSplit_nil
  | cons y s hy hself hbound hsplit ih =>
    obtain ⟨e, he, hdigit⟩ := isNum_getLast hself hy
    rw [hsplit, withNewline, if_neg hy]
    split
    · next h =>
      -- the newline is one more character of the last component
      obtain ⟨hs, hnum⟩ := h
      obtain rfl := versionSplit_eq_nil_iff.mp hs
      have hcomp : component (y ++ ['\n']) = y ++ ['\n'] :=
        component_append_plain hself hy hnum (by decide) []
      have hnil := @versionSplit_component (y ++ ['\n']) [] (by simp) hcomp (by simp [Boundary])
      rw [List.append_nil, versionSplit_nil] at hnil
      rw [List.append_nil, hnil]
    · next h =>
      rw [List.append_assoc, versionSplit_component hy hself, ih]
      intro e' he' d hd
      obtain rfl := Option.some.inj (he.symm.trans he')
      rcases eq_or_ne s [] with rfl | hs
      · obtain rfl := Option.some.inj hd
        have hnum : isNum y = true := by
          rw [versionSplit_nil] at h
          simpa using h
        rw [hdigit, hnum]
        exact .inr (by decide)
      · refine hbound e he d ?_
        rwa [List.head?_append_of_ne_nil s hs] at hd

/-! ## The keys -/

theorem ofComponent_of_pre {x : Text} (h : isPre x = true) : Key.ofComponent x = Key.mk 0 0 x :=
  if_pos h

theorem ofComponent_of_not_pre {x : Text} (h : isPre x = false) :
    Key.ofComponent x = Key.ofPlain x :=
  if_neg (by rw [h]; exact Bool.false_ne_true)

/-- Components that are no two numbers are compared as strings, behind the pre-releases. -/
theorem ofComponent_lt_iff {x y : Text} (h : isNum x = false ∨ isNum y = false) :
    Key.ofComponent x < Key.ofComponent y ↔
      (isPre x = true ∧ isPre y = false) ∨ isPre x = isPre y ∧ x < y := by
  cases hx : isPre x <;> cases hy : isPre y
  · have hnum : ¬ (isNum x = true ∧ isNum y = true) := by
      rintro ⟨hxn, hyn⟩
      rcases h with h | h
      · exact Bool.false_ne_true (h.symm.trans hxn)
      · exact Bool.false_ne_true (h.symm.trans hyn)
    rw [ofComponent_of_not_pre hx, ofComponent_of_not_pre hy, ofPlain_lt_of_text hnum]
    simp
  · simp [lt_asymm (ofComponent_pre_lt hy hx)]
  · simp [ofComponent_pre_lt hx hy]
  · rw [ofComponent_of_pre hx, ofComponent_of_pre hy, mk_lt_iff]
    simp

/-- A component that is no number has a key of its own. -/
theorem eq_of_ofComponent_eq {x y : Text} (hx : isNum x = false)
    (h : Key.ofComponent x = Key.ofComponent y) : y = x := by
  obtain ⟨cls, hcls, hkey⟩ := ofComponent_of_text hx
  cases hy : isNum y with
  | true =>
    rw [hkey, ofComponent_of_num hy, mk_inj] at h
    exact absurd h.1 hcls
  | false =>
    obtain ⟨cls', -, hkey'⟩ := ofComponent_of_text hy
    rw [hkey, hkey', mk_inj] at h
    exact h.2.2.symm

theorem isNum_of_ofComponent_eq {x y : Text} (h : Key.ofComponent x = Key.ofComponent y) :
    isNum x = isNum y := by
  cases hx : isNum x with
  | false => rw [eq_of_ofComponent_eq hx h, hx]
  | true =>
    cases hy : isNum y with
    | true => rfl
    | false =>
      rw [eq_of_ofComponent_eq hy h.symm, hy] at hx
      exact absurd hx Bool.false_ne_true

theorem not_isPre_of_mem {y : Text} {c : Char} (hc : c ∈ y) (hlt : c < '\n') :
    isPre y = false := by
  refine Bool.eq_false_iff.mpr fun h => ?_
  have hall : ∀ z ∈ [("-rc" : Text), "-trunk", "-rc\n", "-trunk\n"],
      z.all (fun d => ¬ d < '\n') = true := by
    decide
  rcases of_decide_eq_true h with rfl | rfl | rfl | rfl
  · exact forall_mem_of_all (hall _ (by decide)) c hc hlt
  · exact forall_mem_of_all (hall _ (by decide)) c hc hlt
  · exact forall_mem_of_all (hall _ (by decide)) c hc hlt
  · exact forall_mem_of_all (hall _ (by decide)) c hc hlt

/-- The newline does not make or unmake a pre-release. -/
theorem isPre_newline {y : Text} (hy : '\n' ∉ y) : isPre (y ++ ['\n']) = isPre y := by
  have hcancel : ∀ z : Text, y ++ ['\n'] = z ++ ['\n'] ↔ y = z := fun z =>
    List.append_left_inj _
  have hno : ∀ z : Text, '\n' ∈ z → y ≠ z := fun z hz heq => hy (heq ▸ hz)
  have hno' : ∀ z : Text, z.getLast? ≠ some '\n' → y ++ ['\n'] ≠ z := by
    rintro z hz rfl
    exact hz List.getLast?_concat
  have hrc := hcancel "-rc"
  have htrunk := hcancel "-trunk"
  refine decide_eq_decide.mpr ?_
  constructor
  · rintro (h | h | h | h)
    · exact absurd h (hno' _ (by decide))
    · exact absurd h (hno' _ (by decide))
    · exact .inl (hrc.mp h)
    · exact .inr (.inl (htrunk.mp h))
  · rintro (h | h | h | h)
    · exact .inr (.inr (.inl (hrc.mpr h)))
    · exact .inr (.inr (.inr (htrunk.mpr h)))
    · exact absurd h (hno _ (by decide))
    · exact absurd h (hno _ (by decide))

theorem lt_append_cons (y : Text) (c : Char) (t : Text) : y < y ++ c :: t := by
  induction y with
  | nil => exact List.nil_lt_cons _ _
  | cons d y ih => exact List.cons_lt_cons_iff.mpr (.inr ⟨rfl, ih⟩)

/-- What is between a text and the text with a newline. -/
theorem between_newline {x y : Text} (hlow : x < y) (hhigh : y < x ++ ['\n']) :
    ∃ c t, y = x ++ c :: t ∧ c < '\n' := by
  induction x generalizing y with
  | nil =>
    cases y with
    | nil => exact absurd hlow (lt_irrefl _)
    | cons c t =>
      rcases List.cons_lt_cons_iff.mp hhigh with hc | ⟨-, ht⟩
      · exact ⟨c, t, rfl, hc⟩
      · exact absurd ht (List.not_lt_nil _)
  | cons a x ih =>
    cases y with
    | nil => exact absurd hlow (List.not_lt_nil _)
    | cons b y =>
      rw [List.cons_append] at hhigh
      rcases List.cons_lt_cons_iff.mp hlow with hab | ⟨rfl, hlow'⟩ <;>
        rcases List.cons_lt_cons_iff.mp hhigh with hba | ⟨heq, hhigh'⟩
      · exact absurd hab (lt_asymm hba)
      · exact absurd (heq ▸ hab) (lt_irrefl _)
      · exact absurd hba (lt_irrefl _)
      · obtain ⟨c, t, rfl, hc⟩ := ih hlow' hhigh'
        exact ⟨c, t, rfl, hc⟩

theorem append_lt_newline {x : Text} {c : Char} (hc : c < '\n') (t : Text) :
    x ++ c :: t < x ++ ['\n'] := by
  induction x with
  | nil => exact List.cons_lt_cons_iff.mpr (.inl hc)
  | cons a x ih => exact List.cons_lt_cons_iff.mpr (.inr ⟨rfl, ih⟩)

theorem isNum_append {x : Text} (hx : x ≠ []) (s : Text) : isNum (x ++ s) = isNum x := by
  obtain ⟨d, x, rfl⟩ := List.exists_cons_of_ne_nil hx
  rfl

theorem ofComponent_lt_newline {x : Text} (hx : '\n' ∉ x) (hnum : isNum x = false) :
    Key.ofComponent x < Key.ofComponent (x ++ ['\n']) :=
  (ofComponent_lt_iff (.inl hnum)).mpr (.inr ⟨(isPre_newline hx).symm, lt_append_cons x _ _⟩)

/-- The end of a version is between the pre-releases and all other components. -/
theorem ofComponent_nil_lt {y : Text} (hy : y ≠ []) (hpre : isPre y = false) :
    Key.ofComponent [] < Key.ofComponent y := by
  refine (ofComponent_lt_iff (.inl rfl)).mpr (.inr ⟨by rw [hpre]; rfl, ?_⟩)
  obtain ⟨c, t, rfl⟩ := List.exists_cons_of_ne_nil hy
  exact List.nil_lt_cons c t

theorem isPre_of_lt_nil {y : Text} (h : Key.ofComponent y < Key.ofComponent []) :
    isPre y = true := by
  rcases (ofComponent_lt_iff (.inr rfl)).mp h with ⟨hpre, -⟩ | ⟨-, hlt⟩
  · exact hpre
  · exact absurd hlt (List.not_lt_nil _)

/-! ## How a version is passed -/

/-- The components of two versions of which the first is passed by its newline. -/
inductive Passed : List Text → List Text → Prop
  /-- The version ends, and the other one goes on with a smaller character. -/
  | ended {c : Char} {t : Text} {rest : List Text} : c < '\n' → Passed [[]] ((c :: t) :: rest)
  /-- Its last component is a text, and the other one goes on in it. -/
  | text {b : Text} {c : Char} {t : Text} {rest : List Text} : isNum b = false →
    isPre b = false → c < '\n' → Passed [b, []] ((b ++ c :: t) :: rest)
  /-- Its last component is a text, and the other one has one more component. -/
  | next {b y : Text} {rest : List Text} : isNum b = false → y ≠ [] → isPre y = false →
    Passed [b, []] (b :: y :: rest)
  | cons {x y : Text} {xs ys : List Text} : Key.ofComponent x = Key.ofComponent y →
    (xs = [[]] → isNum x = true) → Passed xs ys → Passed (x :: xs) (y :: ys)

theorem keys_cons_lt {x y : Text} {xs ys : List Text} : keys (x :: xs) < keys (y :: ys) ↔
    Key.ofComponent x < Key.ofComponent y ∨
      Key.ofComponent x = Key.ofComponent y ∧ keys xs < keys ys := by
  rw [keys_cons, keys_cons, List.cons_lt_cons_iff]

theorem keys_cons_le {x y : Text} {xs ys : List Text} : keys (x :: xs) ≤ keys (y :: ys) ↔
    Key.ofComponent x < Key.ofComponent y ∨
      Key.ofComponent x = Key.ofComponent y ∧ keys xs ≤ keys ys := by
  rw [le_iff_lt_or_eq, le_iff_lt_or_eq, keys_cons_lt, keys_cons, keys_cons, List.cons.injEq]
  tauto

/-- A newline makes a version greater. -/
theorem keys_lt_withNewline {xs : List Text} (h : Comps xs) : keys xs < keys (withNewline xs) := by
  induction h with
  | ended =>
    rw [withNewline, if_pos rfl]
    exact keys_cons_lt.mpr (.inl (by decide))
  | @cons x xs hx hnewline _ ih =>
    rw [withNewline, if_neg hx]
    split
    · next h => exact keys_cons_lt.mpr (.inl (ofComponent_lt_newline hnewline h.2))
    · exact keys_cons_lt.mpr (.inr ⟨rfl, ih⟩)

theorem not_pre_of_nil_lt {y : Text} (h : Key.ofComponent [] < Key.ofComponent y) :
    isPre y = false := by
  refine Bool.eq_false_iff.mpr fun hpre => ?_
  exact lt_asymm h (ofComponent_pre_lt hpre rfl)

/-- Only a component is passed that goes on with a smaller character. -/
theorem text_of_keys {b y : Text} (hb : '\n' ∉ b) (hy : '\n' ∉ y) (hnum : isNum b = false)
    (hlt : Key.ofComponent b < Key.ofComponent y)
    (hle : Key.ofComponent y < Key.ofComponent (b ++ ['\n'])) :
    isPre b = false ∧ ∃ c t, y = b ++ c :: t ∧ c < '\n' := by
  have hpre := isPre_newline hb
  have hnum' : isNum (b ++ ['\n']) = false := by
    cases b with
    | nil => rfl
    | cons d b => exact hnum
  rcases (ofComponent_lt_iff (.inl hnum)).mp hlt with ⟨hbp, hyp⟩ | ⟨hsame, hbelow⟩ <;>
    rcases (ofComponent_lt_iff (.inr hnum')).mp hle with ⟨hyp', hbp'⟩ | ⟨hsame', habove⟩
  · exact absurd (hyp.symm.trans hyp') Bool.false_ne_true
  · rw [hsame', hpre, hbp] at hyp
    exact absurd hyp.symm Bool.false_ne_true
  · rw [hpre, hsame, hyp'] at hbp'
    exact absurd hbp'.symm Bool.false_ne_true
  · obtain ⟨c, t, rfl, hc⟩ := between_newline hbelow habove
    refine ⟨?_, c, t, rfl, hc⟩
    rw [hsame]
    exact not_isPre_of_mem (List.mem_append_right _ List.mem_cons_self) hc

/-- The newline of the first version passes the second one only in these ways. -/
theorem passed_of_keys {xs ys : List Text} (hxs : Comps xs) (hys : Comps ys)
    (hlt : keys xs < keys ys) (hle : keys ys ≤ keys (withNewline xs)) : Passed xs ys := by
  induction hxs generalizing ys with
  | ended =>
    cases hys with
    | ended => exact absurd hlt (lt_irrefl _)
    | @cons y ys hy hnewline _ =>
      rw [withNewline, if_pos rfl] at hle
      have hpre : isPre y = false := by
        rcases keys_cons_lt.mp hlt with h | ⟨h, -⟩
        · exact not_pre_of_nil_lt h
        · exact absurd (eq_of_ofComponent_eq rfl h) hy
      rcases keys_cons_le.mp hle with h | ⟨h, -⟩
      · rcases (ofComponent_lt_iff (.inr rfl)).mp h with ⟨hpre', -⟩ | ⟨-, hbelow⟩
        · exact absurd (hpre.symm.trans hpre') Bool.false_ne_true
        · obtain ⟨c, t, rfl⟩ := List.exists_cons_of_ne_nil hy
          rcases List.cons_lt_cons_iff.mp hbelow with hc | ⟨-, ht⟩
          · exact .ended hc
          · exact absurd ht (List.not_lt_nil _)
      · have heq : y = ['\n'] := eq_of_ofComponent_eq rfl h.symm
        exact absurd (by rw [heq]; exact List.mem_singleton.mpr rfl) hnewline
  | @cons x xs hx hxnewline hxs ih =>
    rw [withNewline, if_neg hx] at hle
    cases hys with
    | ended =>
      -- only a pre-release is before the end
      have hpre : isPre x = true := by
        rcases keys_cons_lt.mp hlt with h | ⟨h, -⟩
        · exact isPre_of_lt_nil h
        · exact absurd (eq_of_ofComponent_eq rfl h.symm) hx
      have hnum := isNum_of_isPre hpre
      have hbelow : Key.ofComponent x < Key.ofComponent [] := ofComponent_pre_lt hpre rfl
      have hbelow' : Key.ofComponent (x ++ ['\n']) < Key.ofComponent [] :=
        ofComponent_pre_lt ((isPre_newline hxnewline).trans hpre) rfl
      split at hle
      · rcases keys_cons_le.mp hle with h | ⟨h, -⟩
        · exact absurd h (lt_asymm hbelow')
        · exact absurd (h ▸ hbelow') (lt_irrefl _)
      · rcases keys_cons_le.mp hle with h | ⟨h, -⟩
        · exact absurd h (lt_asymm hbelow)
        · exact absurd (h ▸ hbelow) (lt_irrefl _)
    | @cons y ys hy hnewline hys =>
      split at hle
      · next hlast =>
        obtain ⟨rfl, hnum⟩ := hlast
        have hle' : Key.ofComponent y < Key.ofComponent (x ++ ['\n']) := by
          rcases keys_cons_le.mp hle with h | ⟨h, -⟩
          · exact h
          · have hnum' : isNum (x ++ ['\n']) = false := (isNum_append hx _).trans hnum
            have heq : y = x ++ ['\n'] := eq_of_ofComponent_eq hnum' h.symm
            exact absurd (by rw [heq]; simp) hnewline
        rcases keys_cons_lt.mp hlt with h | ⟨h, hrest⟩
        · obtain ⟨hpre, c, t, rfl, hc⟩ := text_of_keys hxnewline hnewline hnum h hle'
          exact .text hnum hpre hc
        · obtain rfl := eq_of_ofComponent_eq hnum h
          cases hys with
          | ended => exact absurd hrest (lt_irrefl _)
          | cons hz _ _ =>
            rcases keys_cons_lt.mp hrest with h | ⟨h, -⟩
            · exact .next hnum hz (not_pre_of_nil_lt h)
            · exact absurd (eq_of_ofComponent_eq rfl h) hz
      · next hlast =>
        rcases keys_cons_lt.mp hlt with h | ⟨h, hrest⟩ <;>
          rcases keys_cons_le.mp hle with h' | ⟨h', hrest'⟩
        · exact absurd h' (lt_asymm h)
        · exact absurd (h' ▸ h) (lt_irrefl _)
        · exact absurd (h ▸ h') (lt_irrefl _)
        · refine .cons h (fun hxs => ?_) (ih hys hrest hrest')
          cases hnum : isNum x with
          | true => rfl
          | false => exact absurd ⟨hxs, hnum⟩ hlast

theorem Passed.ne_ended {xs ys : List Text} (h : Passed xs ys) (hxs : Comps xs) :
    ys ≠ [[]] := by
  rintro rfl
  generalize hys : ([[]] : List Text) = ys at h
  cases h with
  | ended _ => cases hys
  | text _ _ _ => simp at hys
  | next _ _ _ => cases hys
  | cons hkey _ hpassed =>
    cases hys
    have hnil := eq_of_ofComponent_eq rfl hkey.symm
    cases hxs with
    | ended => cases hpassed
    | cons hx _ _ => exact hx hnil

/-- What is passed comes before, and with newlines behind. -/
theorem keys_of_passed {xs ys : List Text} (h : Passed xs ys) (hxs : Comps xs) (hys : Comps ys) :
    keys xs < keys ys ∧ keys (withNewline ys) < keys (withNewline xs) := by
  induction h with
  | @ended c t rest hc =>
    have hpre : isPre (c :: t) = false := not_isPre_of_mem List.mem_cons_self hc
    refine ⟨keys_cons_lt.mpr (.inl (ofComponent_nil_lt (List.cons_ne_nil _ _) hpre)), ?_⟩
    have hbelow : ∀ s : Text, Key.ofComponent (c :: s) < Key.ofComponent ['\n'] := by
      intro s
      refine (ofComponent_lt_iff (.inr rfl)).mpr (.inr ⟨?_, List.cons_lt_cons_iff.mpr (.inl hc)⟩)
      exact not_isPre_of_mem List.mem_cons_self hc
    obtain ⟨s, rest', hnew⟩ := withNewline_head (List.cons_ne_nil c t) rest
    rw [hnew, withNewline_nil]
    exact keys_cons_lt.mpr (.inl (hbelow _))
  | @text b c t rest hnum hpre hc =>
    have hpre' : ∀ s : Text, isPre (b ++ c :: s) = false := fun s =>
      not_isPre_of_mem (List.mem_append_right _ List.mem_cons_self) hc
    cases hxs with
    | cons hb hnewline _ =>
      have hbelow : ∀ s : Text, Key.ofComponent (b ++ c :: s) < Key.ofComponent (b ++ ['\n']) := by
        intro s
        refine (ofComponent_lt_iff (.inr ((isNum_append hb _).trans hnum))).mpr (.inr ⟨?_, ?_⟩)
        · rw [hpre', isPre_newline hnewline, hpre]
        · exact append_lt_newline hc s
      constructor
      · refine keys_cons_lt.mpr (.inl ((ofComponent_lt_iff (.inl hnum)).mpr (.inr ⟨?_, ?_⟩)))
        · rw [hpre', hpre]
        · exact lt_append_cons b c t
      · obtain ⟨s, rest', hnew⟩ :=
          withNewline_head (List.append_ne_nil_of_left_ne_nil hb (c :: t)) rest
        rw [hnew, withNewline_text hb hnum, List.append_assoc]
        exact keys_cons_lt.mpr (.inl (hbelow _))
  | @next b y rest hnum hy hpre =>
    cases hxs with
    | cons hb hnewline _ =>
      constructor
      · exact keys_cons_lt.mpr (.inr ⟨rfl, keys_cons_lt.mpr (.inl (ofComponent_nil_lt hy hpre))⟩)
      · rw [withNewline_text hb hnum,
          withNewline_cons hb fun h => absurd (List.cons.inj h).1 hy]
        exact keys_cons_lt.mpr (.inl (ofComponent_lt_newline hnewline hnum))
  | @cons x y xs ys hkey hlast hpassed ih =>
    cases hxs with
    | ended => cases hpassed
    | cons hx _ hxs =>
      cases hys with
      | ended => exact absurd (eq_of_ofComponent_eq rfl hkey.symm) hx
      | cons hy _ hys =>
        obtain ⟨hlt, hlt'⟩ := ih hxs hys
        refine ⟨keys_cons_lt.mpr (.inr ⟨hkey, hlt⟩), ?_⟩
        rw [withNewline_cons hx hlast,
          withNewline_cons hy fun h => absurd h (hpassed.ne_ended hxs)]
        exact keys_cons_lt.mpr (.inr ⟨hkey.symm, hlt'⟩)

/-! ## The versions -/

theorem lastComponent_nil : lastComponent [] = none := by
  rw [lastComponent, versionSplit_nil]
  rfl

theorem versionSplit_ne (v : Text) : versionSplit v ≠ [] := by
  induction v using version_induction with
  | nil => rw [versionSplit_nil]; exact List.cons_ne_nil _ _
  | cons y s _ _ _ hsplit _ => rw [hsplit]; exact List.cons_ne_nil _ _

/-- The last component of a version that goes on behind a component. -/
theorem lastComponent_cons {y s : Text} (hsplit : versionSplit (y ++ s) = y :: versionSplit s) :
    lastComponent (y ++ s) = some ((lastComponent s).getD y) := by
  rw [lastComponent, lastComponent, hsplit, List.dropLast_cons_of_ne_nil (versionSplit_ne s)]
  generalize (versionSplit s).dropLast = init
  cases init with
  | nil => rfl
  | cons z init => rw [List.getLast?_cons_cons, List.getLast?_cons, Option.getD_some]

theorem lastComponent_isSome {s : Text} (hs : s ≠ []) : ∃ b, lastComponent s = some b := by
  induction s using version_induction with
  | nil => exact absurd rfl hs
  | cons y s _ _ _ hsplit _ => exact ⟨_, lastComponent_cons hsplit⟩

theorem versionCmp_eq_zero_keys {a b : Text} :
    versionCmp a b = 0 ↔ keys (versionSplit a) = keys (versionSplit b) := by
  rw [versionCmp_eq_threeWay, threeWay_eq_zero]

theorem versionSplit_eq_cons {v x : Text} {xs : List Text} (h : versionSplit v = x :: xs)
    (hxs : xs ≠ []) : ∃ s, v = x ++ s ∧ x ≠ [] ∧ component x = x ∧ Boundary x s ∧
      versionSplit v = x :: versionSplit s ∧ versionSplit s = xs := by
  induction v using version_induction with
  | nil =>
    rw [versionSplit_nil] at h
    exact absurd (List.cons.inj h).2.symm hxs
  | cons y s hy hself hbound hsplit _ =>
    obtain ⟨rfl, hs⟩ := List.cons.inj (hsplit.symm.trans h)
    exact ⟨s, rfl, hy, hself, hbound, hsplit, hs⟩

theorem boundary_left {x s t : Text} (h : Boundary x (s ++ t)) : Boundary x s := by
  intro e he d hd
  refine h e he d ?_
  rw [List.head?_append, Option.mem_def.mp hd]
  rfl

theorem newlineMoves_of_passed {v w : Text} (h : Passed (versionSplit v) (versionSplit w)) :
    NewlineMoves v w := by
  generalize hv : versionSplit v = xs at h
  generalize hw : versionSplit w = ys at h
  have hflat := fun v => flatten_versionSplit v
  induction h generalizing v w with
  | @ended c t rest hc =>
    obtain rfl := versionSplit_eq_nil_iff.mp hv
    refine ⟨[], c, t ++ rest.flatten, ?_, ?_, .inl ⟨hc, ?_⟩⟩
    · rw [← hflat w, hw]
      rfl
    · exact versionCmp_eq_zero_keys.mpr rfl
    · rw [lastComponent_nil]
      simp
  | @text b c t rest hnum hpre hc =>
    have hvb : v = b := by
      rw [← hflat v, hv]
      simp
    refine ⟨v, c, t ++ rest.flatten, ?_, versionCmp_eq_zero_keys.mpr rfl, .inl ⟨hc, ?_⟩⟩
    · rw [← hflat w, hw, hvb]
      simp
    · rw [lastComponent, hv]
      simpa using hpre
  | @next b y rest hnum hy hpre =>
    have hvb : v = b := by
      rw [← hflat v, hv]
      simp
    obtain ⟨s, rfl, hb, hself, hbound, -, hs⟩ := versionSplit_eq_cons hw (List.cons_ne_nil _ _)
    obtain ⟨e, he, hdigit⟩ := isNum_getLast hself hb
    cases s with
    | nil =>
      rw [versionSplit_nil] at hs
      exact absurd (List.cons.inj hs).1.symm hy
    | cons c t =>
      rw [versionSplit_cons] at hs
      refine ⟨v, c, t, by rw [hvb], versionCmp_eq_zero_keys.mpr rfl, .inr ⟨?_, ?_, b, ?_, hnum⟩⟩
      · rcases hbound e he c rfl with rfl | hne
        · exact .inr rfl
        · rw [hdigit, hnum] at hne
          exact .inl (Bool.ne_false_iff.mp hne.symm)
      · rw [(List.cons.inj hs).1]
        exact hpre
      · rw [lastComponent, hv]
        rfl
  | @cons x y xs ys hkey hlast hpassed ih =>
    have hne : xs ≠ [] ∧ ys ≠ [] := by cases hpassed <;> simp
    obtain ⟨v₁, rfl, hx, -, -, hvsplit, hv₁⟩ := versionSplit_eq_cons hv hne.1
    obtain ⟨w₁, rfl, hy, hself, hbound, -, hw₁⟩ := versionSplit_eq_cons hw hne.2
    obtain ⟨v', c, t, rfl, hcmp, hcond⟩ := ih hv₁ hw₁
    refine ⟨y ++ v', c, t, (List.append_assoc _ _ _).symm, ?_, ?_⟩
    · rw [versionCmp_eq_zero_keys, hvsplit,
        versionSplit_component hy hself (boundary_left hbound), keys_cons, keys_cons, hkey,
        versionCmp_eq_zero_keys.mp hcmp]
    · rw [lastComponent_cons hvsplit]
      refine hcond.imp (fun h => ⟨h.1, ?_⟩) fun h => ⟨h.1, h.2.1, ?_⟩
      · intro b hb
        cases hl : lastComponent v₁ with
        | none =>
          -- the version ends in a number
          rw [hl] at hb
          obtain rfl := Option.some.inj hb
          have hnil : v₁ = [] := by
            by_contra hne
            obtain ⟨b, hb⟩ := lastComponent_isSome hne
            rw [hb] at hl
            cases hl
          have hnum := hlast (by rw [← hv₁, hnil, versionSplit_nil])
          refine Bool.eq_false_iff.mpr fun hpre => ?_
          exact Bool.false_ne_true ((isNum_of_isPre hpre).symm.trans hnum)
        | some b' =>
          rw [hl] at hb
          obtain rfl := Option.some.inj hb
          exact h.2 _ hl
      · obtain ⟨b, hb, hnum⟩ := h.2.2
        refine ⟨b, ?_, hnum⟩
        rw [Option.mem_def.mp hb]
        rfl

theorem not_digit_of_lt {c : Char} (h : c < '\n') : c.isDigit = false := by
  refine Bool.eq_false_iff.mpr fun hdigit => ?_
  exact absurd (lt_of_le_of_lt (digit_iff.mp hdigit).1 h) (by decide)

theorem isPlain_of_lt {c : Char} (h : c < '\n') : isPlain c = true := by
  have hne : c ≠ '-' := by
    rintro rfl
    exact absurd h (by decide)
  simp [isPlain, hne, not_digit_of_lt h]

theorem component_head (c : Char) (t : Text) : ∃ s, component (c :: t) = c :: s := by
  rw [component]
  split <;> exact ⟨_, rfl⟩

theorem eq_nil_of_keys {v : Text} (h : keys (versionSplit v) = keys [[]]) : v = [] := by
  induction v using version_induction with
  | nil => rfl
  | cons y s hy _ _ hsplit _ =>
    rw [hsplit, keys_cons, keys_cons] at h
    exact absurd (eq_of_ofComponent_eq rfl (List.cons.inj h).1.symm) hy

/-- Where the first version ends: a component of the other one begins, or goes on. -/
theorem passed_of_last {x y : Text} {c : Char} {t : Text} (hy : y ≠ []) (hself : component y = y)
    (hkey : Key.ofComponent x = Key.ofComponent y)
    (hcond : c < '\n' ∧ isPre x = false ∨ (c.isDigit = true ∨ c = '-') ∧
      isPre (component (c :: t)) = false ∧ isNum x = false) :
    Passed [x, []] (versionSplit (y ++ c :: t)) := by
  obtain ⟨e, he, hdigit⟩ := isNum_getLast hself hy
  have hnum := isNum_of_ofComponent_eq hkey
  have hsplit : Boundary y (c :: t) → versionSplit (y ++ c :: t) =
      y :: component (c :: t) :: versionSplit ((c :: t).drop (component (c :: t)).length) := by
    intro hbound
    rw [versionSplit_component hy hself hbound, versionSplit_cons]
  have hbound : (c = '-' ∨ isNum y ≠ c.isDigit) → Boundary y (c :: t) := by
    intro h e' he' d hd
    obtain rfl := Option.some.inj (he.symm.trans he')
    obtain rfl := Option.some.inj hd
    rwa [hdigit]
  rcases hcond with ⟨hc, hpre⟩ | ⟨hc, hpre, hxnum⟩
  · cases hx : isNum x with
    | true =>
      obtain ⟨s, hs⟩ := component_head c t
      rw [hsplit (hbound (.inr (by rw [← hnum, hx, not_digit_of_lt hc]; decide))), hs]
      exact .cons hkey (fun _ => hx) (.ended hc)
    | false =>
      obtain rfl := eq_of_ofComponent_eq hx hkey
      obtain ⟨d, y, rfl⟩ := List.exists_cons_of_ne_nil hy
      rw [List.cons_append, versionSplit_cons, ← List.cons_append,
        component_append_plain hself hy hx (isPlain_of_lt hc)]
      exact .text hx hpre hc
  · obtain rfl := eq_of_ofComponent_eq hxnum hkey
    rw [hsplit (hbound ?_)]
    · exact .next hxnum (List.ne_nil_of_length_pos (component_length_pos c t)) hpre
    · rcases hc with hc | rfl
      · rw [hxnum, hc]
        exact .inr (by decide)
      · exact .inl rfl

theorem passed_of_newlineMoves {v w : Text} (h : NewlineMoves v w) :
    Passed (versionSplit v) (versionSplit w) := by
  obtain ⟨v', c, t, rfl, hcmp, hcond⟩ := h
  have hkeys := versionCmp_eq_zero_keys.mp hcmp
  clear hcmp
  induction v' using version_induction generalizing v with
  | nil =>
    rw [versionSplit_nil] at hkeys
    obtain rfl := eq_nil_of_keys hkeys
    rcases hcond with ⟨hc, -⟩ | ⟨-, -, b, hb, -⟩
    · obtain ⟨s, hs⟩ := component_head c t
      rw [List.nil_append, versionSplit_cons, versionSplit_nil, hs]
      exact .ended hc
    · rw [lastComponent_nil] at hb
      cases hb
  | cons y s hy hself hbound hsplit ih =>
    rw [hsplit] at hkeys
    clear hsplit
    induction v using version_induction with
    | nil =>
      rw [versionSplit_nil, keys_cons, keys_cons] at hkeys
      exact absurd (eq_of_ofComponent_eq rfl (List.cons.inj hkeys).1) hy
    | cons x v₁ hx _ _ hvsplit _ =>
      rw [hvsplit, keys_cons, keys_cons] at hkeys
      obtain ⟨hkey, hrest⟩ := List.cons.inj hkeys
      rw [lastComponent_cons hvsplit] at hcond
      rw [hvsplit]
      rcases eq_or_ne s [] with rfl | hs
      · rw [versionSplit_nil] at hrest
        obtain rfl := eq_nil_of_keys hrest
        rw [versionSplit_nil, List.append_nil]
        refine passed_of_last hy hself hkey ?_
        simpa [lastComponent_nil] using hcond
      · have hv₁ : v₁ ≠ [] := by
          rintro rfl
          rw [versionSplit_nil] at hrest
          exact hs (eq_nil_of_keys hrest.symm)
        obtain ⟨b, hb⟩ := lastComponent_isSome hv₁
        have hbound' : Boundary y (s ++ c :: t) := by
          intro e he d hd
          rw [List.head?_append_of_ne_nil s hs] at hd
          exact hbound e he d hd
        rw [List.append_assoc, versionSplit_component hy hself hbound']
        refine .cons hkey (fun h => absurd (versionSplit_eq_nil_iff.mp h) hv₁) (ih ?_ hrest)
        rw [hb] at hcond ⊢
        exact hcond

end NewlineLemmas

open NewlineLemmas

theorem newlineMoves_iff_passed {v w : Text} :
    NewlineMoves v w ↔ Passed (versionSplit v) (versionSplit w) :=
  ⟨passed_of_newlineMoves, newlineMoves_of_passed⟩

theorem versionCmp_neg {a b : Text} :
    versionCmp a b < 0 ↔ keys (versionSplit a) < keys (versionSplit b) := by
  rw [versionCmp_eq_threeWay, threeWay_neg]

theorem versionCmp_nonpos {a b : Text} :
    versionCmp a b ≤ 0 ↔ keys (versionSplit a) ≤ keys (versionSplit b) := by
  rw [versionCmp_eq_threeWay, threeWay_nonpos]

/-- A newline makes a version greater. -/
theorem lt_newline {v : Text} (hv : '\n' ∉ v) : versionCmp v (v ++ ['\n']) < 0 := by
  rw [versionCmp_neg, versionSplit_newline]
  exact keys_lt_withNewline (comps_versionSplit hv)

/-- The newline of a version passes another version, with or without a newline of its own, in
exactly these ways. -/
theorem newline_order_iff {v w k : Text} (hv : '\n' ∉ v) (hw : '\n' ∉ w)
    (hk : k = w ∨ k = w ++ ['\n']) :
    versionCmp v w < 0 ∧ versionCmp k (v ++ ['\n']) ≤ 0 ↔ NewlineMoves v w := by
  have hlow : keys (versionSplit w) ≤ keys (versionSplit k) ∧
      keys (versionSplit k) ≤ keys (versionSplit (w ++ ['\n'])) := by
    have hlt := versionCmp_neg.mp (lt_newline hw)
    rcases hk with rfl | rfl
    · exact ⟨le_refl _, le_of_lt hlt⟩
    · exact ⟨le_of_lt hlt, le_refl _⟩
  rw [newlineMoves_iff_passed, versionCmp_neg, versionCmp_nonpos]
  constructor
  · rintro ⟨hlt, hle⟩
    refine passed_of_keys (comps_versionSplit hv) (comps_versionSplit hw) hlt ?_
    rw [← versionSplit_newline]
    exact le_trans hlow.1 hle
  · intro hpassed
    obtain ⟨hlt, hpass⟩ := keys_of_passed hpassed (comps_versionSplit hv) (comps_versionSplit hw)
    rw [← versionSplit_newline, ← versionSplit_newline] at hpass
    exact ⟨hlt, le_trans hlow.2 (le_of_lt hpass)⟩

end DebianKernel.DebianLinux
