import DebianKernel.FwConfig.Dups

/-!
# Tests of an expression

`expr_trans_bool`, `expr_trans_compare`, `expr_contains_symbol` and `expr_depends_symbol` of
`carl9170fw/config/expr.c`: the forms of a condition that `menu_finalize` needs when it asks only
whether the condition is `n`.

Results:
* `exprTransBool_ne_no`: a condition stays `n` or not,
* `exprTransCompare_value`: the comparison of a condition with `n` as a condition,
* `exprDependsSymbol_ne_no`: a condition that depends on a symbol is `n` with it.
-/

namespace DebianKernel.FwConfig

open Tristate

variable {σ : Type} [DecidableEq σ]

/-- `expr_trans_bool`: FOO!=n -> FOO. -/
def exprTransBool (D : Decls σ) : Expr σ → Expr σ
  | .two type left right => .two type (exprTransBool D left) (exprTransBool D right)
  | .not left => .not (exprTransBool D left)
  | .comp .unequal left right =>
    if left.type D = .tristate ∧ right = .no then .symbol left else .comp .unequal left right
  | e => e

/-- `expr_alloc_two` of what `expr_trans_compare` returns. -/
def allocTwo (type : Junction) : Option (Expr σ) → Option (Expr σ) → Option (Expr σ)
  | some e1, some e2 => some (.two type e1 e2)
  | _, _ => none

/-- `expr_trans_compare` of an expression that is there. With a symbol that is none of the three
constants it has nothing to return for a comparison. -/
def exprTransCompare : Expr σ → Comparison → Symbol σ → Option (Expr σ)
  | .two .and left right, type, sym =>
    let e1 := exprTransCompare left .equal sym
    let e2 := exprTransCompare right .equal sym
    let e :=
      match sym with
      | .yes => allocTwo .and e1 e2
      | .no => allocTwo .or e1 e2
      | _ => some (.two .and left right)
    if type = .unequal then e.map .not else e
  | .two .or left right, type, sym =>
    let e1 := exprTransCompare left .equal sym
    let e2 := exprTransCompare right .equal sym
    let e :=
      match sym with
      | .yes => allocTwo .or e1 e2
      | .no => allocTwo .and e1 e2
      | _ => some (.two .or left right)
    if type = .unequal then e.map .not else e
  | .not left, type, sym => exprTransCompare left type.flip sym
  | .comp c left right, type, sym =>
    match type, sym with
    | .equal, .yes => some (.comp c left right)
    | .equal, .mod => some (.symbol .no)
    | .equal, .no => some (.not (.comp c left right))
    | .unequal, .yes => some (.not (.comp c left right))
    | .unequal, .mod => some (.symbol .yes)
    | .unequal, .no => some (.comp c left right)
    | _, _ => none
  | .symbol left, type, sym => some (.comp type left sym)

/-- `expr_contains_symbol`. -/
def exprContainsSymbol (sym : Symbol σ) : Expr σ → Bool
  | .two _ left right => exprContainsSymbol sym left || exprContainsSymbol sym right
  | .symbol left => left = sym
  | .comp _ left right => left = sym ∨ right = sym
  | .not left => exprContainsSymbol sym left

/-- `expr_depends_symbol`. -/
def exprDependsSymbol (sym : Symbol σ) : Expr σ → Bool
  | .two .and left right => exprDependsSymbol sym left || exprDependsSymbol sym right
  | .symbol left => left = sym
  | .comp .equal left right => left = sym ∧ (right = .yes ∨ right = .mod)
  | .comp .unequal left right => left = sym ∧ right = .no
  | _ => false

variable {D : Decls σ} {V : Values σ} {e : Expr σ}

theorem ofBool_ne_no {b : Bool} : ofBool b ≠ .no ↔ b = true := by
  cases b <;> simp [ofBool]

theorem exprAnd_ne_no {a b : Tristate} : exprAnd a b ≠ .no ↔ a ≠ .no ∧ b ≠ .no := by
  cases a <;> cases b <;> decide

theorem exprOr_ne_no {a b : Tristate} : exprOr a b ≠ .no ↔ a ≠ .no ∨ b ≠ .no := by
  cases a <;> cases b <;> decide

/-- A condition with negations before symbols only is `n` after `expr_trans_bool` in the states
where it was before. -/
theorem exprTransBool_ne_no (hV : Valid D V) (h : NotSymbol e) :
    (exprTransBool D e).value D V ≠ .no ↔ e.value D V ≠ .no := by
  induction e with
  | symbol s => rfl
  | not e _ =>
    match e, h with
    | .symbol s, _ => rfl
  | two type l r ihl ihr =>
    cases type with
    | or =>
      simp only [exprTransBool, Expr.value, Junction.value, exprOr_ne_no]
      rw [ihl h.1, ihr h.2]
    | and =>
      simp only [exprTransBool, Expr.value, Junction.value, exprAnd_ne_no]
      rw [ihl h.1, ihr h.2]
  | comp type s t =>
    cases type with
    | equal => rfl
    | unequal =>
      rw [exprTransBool]
      split
      next hs =>
        obtain ⟨hs, rfl⟩ := hs
        rcases hV.tristate_cases hs with ⟨ht, hstr⟩ | ⟨ht, hstr⟩ | ⟨ht, hstr⟩ <;>
          simp [Expr.value, ht, hstr, ofBool]
      next => rfl

/-! ## `expr_trans_compare` with `n` -/

/-- A constant, or a symbol with a value of this kind. -/
def Logical (D : Decls σ) : Symbol σ → Prop
  | .entry s => D.type s = .boolean ∨ D.type s = .tristate
  | _ => True

/-- The operands are of this kind, and what is negated is not `m`. -/
def Comparable (D : Decls σ) (V : Values σ) : Expr σ → Prop
  | .symbol s => Logical D s
  | .not left => Comparable D V left ∧ left.value D V ≠ .mod
  | .two _ left right => Comparable D V left ∧ Comparable D V right
  | .comp _ _ _ => True

/-- `a = n` or `a != n`. -/
def testNo : Comparison → Tristate → Bool
  | .equal, .no => true
  | .equal, _ => false
  | .unequal, .no => false
  | .unequal, _ => true

omit [DecidableEq σ] in
theorem Logical.string_eq (hV : Valid D V) {s : Symbol σ} (hs : Logical D s) :
    (s.string D V == "n") = testNo .equal (s.tri D V) := by
  cases s with
  | entry s =>
    rcases hV.declared_cases (s := .entry s) hs with ⟨ht, hstr⟩ | ⟨ht, hstr⟩ | ⟨ht, hstr⟩
    · rw [ht, hstr]
      rfl
    · rw [ht, hstr]
      rfl
    · rw [ht, hstr]
      rfl
  | _ => rfl

omit [DecidableEq σ] in
/-- The equation of the two junctions for `n`. -/
theorem exprTransCompare_two (c : Junction) (l r : Expr σ) (type : Comparison) {l' r' : Expr σ}
    (hl : exprTransCompare l .equal .no = some l') (hr : exprTransCompare r .equal .no = some r') :
    exprTransCompare (.two c l r) type .no =
      some (if type = .unequal then .not (.two c.dual l' r') else .two c.dual l' r') := by
  cases c <;> cases type <;> simp only [exprTransCompare, hl, hr] <;> rfl

theorem ofBool_testNo_dual (c : Junction) (type : Comparison) (a b : Tristate) :
    (if type = .unequal then
      exprNot (c.dual.value (ofBool (testNo .equal a)) (ofBool (testNo .equal b)))
    else c.dual.value (ofBool (testNo .equal a)) (ofBool (testNo .equal b))) =
      ofBool (testNo type (c.value a b)) := by
  cases c <;> cases type <;> cases a <;> cases b <;> rfl

omit [DecidableEq σ] in
/-- Compared with `n`, a condition gives one that is `y` or `n` by whether the condition is `n`. -/
theorem exprTransCompare_value (hV : Valid D V) (type : Comparison) (h : Comparable D V e) :
    ∃ t, exprTransCompare e type .no = some t ∧
      t.value D V = ofBool (testNo type (e.value D V)) := by
  induction e generalizing type with
  | symbol s =>
    refine ⟨_, rfl, ?_⟩
    have hs := Logical.string_eq hV h
    cases type with
    | equal => exact congrArg ofBool hs
    | unequal =>
      refine (congrArg (fun b => ofBool (!b)) hs).trans ?_
      rw [Expr.value]
      cases s.tri D V <;> rfl
  | comp c s t =>
    have hb : ∃ b, (Expr.comp c s t).value D V = ofBool b := by
      cases c <;> exact ⟨_, rfl⟩
    obtain ⟨b, hb⟩ := hb
    cases type with
    | equal =>
      refine ⟨_, rfl, ?_⟩
      rw [Expr.value, hb]
      cases b <;> rfl
    | unequal =>
      refine ⟨_, rfl, ?_⟩
      rw [hb]
      cases b <;> rfl
  | not e ih =>
    obtain ⟨t, ht, hv⟩ := ih type.flip h.1
    refine ⟨t, ht, ?_⟩
    rw [hv, Expr.value]
    have hm := h.2
    cases he : e.value D V with
    | mod => exact absurd he hm
    | _ => cases type <;> rfl
  | two c l r ihl ihr =>
    obtain ⟨l', hl, hvl⟩ := ihl .equal h.1
    obtain ⟨r', hr, hvr⟩ := ihr .equal h.2
    refine ⟨_, exprTransCompare_two c l r type hl hr, ?_⟩
    rw [Expr.value, ← ofBool_testNo_dual c type, ← hvl, ← hvr]
    split <;> rfl

/-! ## A condition that depends on a symbol -/

/-- Where a condition depends on a symbol, it is `n` when the symbol is. -/
theorem exprDependsSymbol_ne_no (hV : Valid D V) {sym : Symbol σ} (hs : Logical D sym)
    (h : exprDependsSymbol sym e = true) (he : e.value D V ≠ .no) : sym.tri D V ≠ .no := by
  -- a comparison with a constant that holds only when the string of the symbol is not `n`
  have hcomp (hstr : sym.string D V ≠ "n") : sym.tri D V ≠ .no := by
    intro htri
    have heq := Logical.string_eq hV hs
    rw [htri] at heq
    exact hstr (beq_iff_eq.mp heq)
  induction e with
  | symbol s => rwa [← of_decide_eq_true h]
  | not e _ => exact absurd h nofun
  | two type l r ihl ihr =>
    cases type with
    | or => exact absurd h nofun
    | and =>
      rw [Expr.value] at he
      obtain ⟨hl, hr⟩ := exprAnd_ne_no.mp he
      rcases Bool.or_eq_true _ _ ▸ h with h | h
      · exact ihl h hl
      · exact ihr h hr
  | comp type s t =>
    cases type with
    | equal =>
      obtain ⟨rfl, ht⟩ := of_decide_eq_true h
      have hstr := beq_iff_eq.mp (ofBool_ne_no.mp he)
      rcases ht with rfl | rfl
      · exact hcomp (by rw [hstr, Symbol.string_yes]; decide)
      · exact hcomp (by rw [hstr, Symbol.string_mod]; decide)
    | unequal =>
      obtain ⟨rfl, rfl⟩ := of_decide_eq_true h
      have hstr := ofBool_ne_no.mp he
      exact hcomp (by simpa using hstr)

end DebianKernel.FwConfig
