import DebianKernel.FwConfig.Expr
import Mathlib.Tactic.Linarith

/-!
# Negations pushed down to the symbols

`expr_transform` of `carl9170fw/config/expr.c`. It is applied to its own result again after each
rule that moves a negation, so the recursion is on a weight that every rule lowers, and the result
comes with its bound.

Results:
* `exprTransform_not`, the equation of the source,
* `exprTransform_normal`: `expr_transform` gives a normal form, of the same value,
* `value_exprTransform`: the value stays, in every state that keeps boolean symbols off `m`,
* `negated_exprTransform`: a negation of the result stands before a symbol of the table,
* `exprTransform_of_negated`: such an expression is left alone, so once is enough.
-/

namespace DebianKernel.FwConfig

open Tristate

variable {σ : Type}

/-- What each rule of `expr_transform` lowers. -/
def Expr.weight : Expr σ → Nat
  | symbol _ => 2
  | comp _ _ _ => 5
  | not left => left.weight * left.weight
  | two _ left right => left.weight + right.weight + 1

theorem Expr.two_le_weight (e : Expr σ) : 2 ≤ e.weight := by
  induction e with
  | symbol _ => exact Nat.le_refl 2
  | comp _ _ _ => exact Nat.le_add_left 2 3
  | not e ih =>
    rw [weight]
    nlinarith
  | two _ l r ihl ihr =>
    rw [weight]
    omega

theorem Expr.weight_lt_not (e : Expr σ) : e.weight < (Expr.not e).weight := by
  have h := e.two_le_weight
  rw [weight]
  nlinarith

theorem Expr.weight_not_le {e e' : Expr σ} (h : e.weight ≤ e'.weight) :
    (Expr.not e).weight ≤ (Expr.not e').weight :=
  Nat.mul_le_mul h h

/-- De Morgan lowers the weight. -/
theorem Expr.weight_deMorgan (type type' : Junction) (l r : Expr σ) :
    (Expr.two type (.not l) (.not r)).weight < (Expr.not (.two type' l r)).weight := by
  have hl := l.two_le_weight
  have hr := r.two_le_weight
  simp only [weight]
  nlinarith

def Comparison.flip : Comparison → Comparison
  | .equal => .unequal
  | .unequal => .equal

/-- The cases `E_EQUAL` and `E_UNEQUAL` of `expr_transform`. -/
def transformComp (D : Decls σ) (type : Comparison) (left right : Symbol σ) : Expr σ :=
  if left.type D ≠ .boolean then .comp type left right
  else
    match type, right with
    | .equal, .no => .not (.symbol left)
    | .equal, .mod => .symbol .no
    | .equal, .yes => .symbol left
    | .unequal, .no => .symbol left
    | .unequal, .mod => .symbol .yes
    | .unequal, .yes => .not (.symbol left)
    | _, _ => .comp type left right

theorem weight_transformComp (D : Decls σ) (type : Comparison) (left right : Symbol σ) :
    (transformComp D type left right).weight ≤ 5 := by
  unfold transformComp
  split
  · exact Nat.le_refl 5
  · split <;> simp [Expr.weight]

/-- The case `E_NOT` before a symbol. -/
def transformNotSymbol : Symbol σ → Expr σ
  | .yes => .symbol .no
  | .mod => .symbol .mod
  | .no => .symbol .yes
  | .entry s => .not (.symbol (.entry s))

theorem weight_transformNotSymbol (s : Symbol σ) : (transformNotSymbol s).weight ≤ 4 := by
  cases s <;> simp [transformNotSymbol, Expr.weight]

/-- `expr_transform`, with the bound that the recursion needs. -/
def transformBounded (D : Decls σ) : (e : Expr σ) → { t : Expr σ // t.weight ≤ e.weight }
  | .symbol s => ⟨.symbol s, Nat.le_refl _⟩
  | .comp type left right =>
    ⟨transformComp D type left right, weight_transformComp D type left right⟩
  | .two type left right =>
    let l := transformBounded D left
    let r := transformBounded D right
    ⟨.two type l.1 r.1, Nat.succ_le_succ (Nat.add_le_add l.2 r.2)⟩
  | .not left =>
    match transformBounded D left with
    | ⟨.not tmp, h⟩ =>
      -- !!a -> a
      let t := transformBounded D tmp
      ⟨t.1, t.2.trans (tmp.weight_lt_not.le.trans (h.trans left.weight_lt_not.le))⟩
    | ⟨.comp type left' right', h⟩ =>
      -- !a='x' -> a!='x'
      ⟨.comp type.flip left' right', h.trans left.weight_lt_not.le⟩
    | ⟨.two type left' right', h⟩ =>
      -- !(a || b) -> !a && !b, !(a && b) -> !a || !b
      let t := transformBounded D (.two type.dual (.not left') (.not right'))
      ⟨t.1, t.2.trans ((Expr.weight_deMorgan type.dual type left' right').le.trans
        (Expr.weight_not_le h))⟩
    | ⟨.symbol s, h⟩ =>
      ⟨transformNotSymbol s, (weight_transformNotSymbol s).trans (Expr.weight_not_le h)⟩
termination_by e => e.weight
decreasing_by
  · simp only [Expr.weight]
    omega
  · simp only [Expr.weight]
    omega
  · exact left.weight_lt_not
  · exact tmp.weight_lt_not.trans_le (h.trans left.weight_lt_not.le)
  · exact (Expr.weight_deMorgan type.dual type left' right').trans_le (Expr.weight_not_le h)

/-- `expr_transform`. -/
def exprTransform (D : Decls σ) (e : Expr σ) : Expr σ := (transformBounded D e).1

/-- The case `E_NOT` of `expr_transform` after its operand has been transformed. -/
def transformNot (D : Decls σ) : Expr σ → Expr σ
  | .not tmp => exprTransform D tmp
  | .comp type left right => .comp type.flip left right
  | .two type left right => exprTransform D (.two type.dual (.not left) (.not right))
  | .symbol s => transformNotSymbol s

section Equations

variable (D : Decls σ)

@[simp] theorem exprTransform_symbol (s : Symbol σ) : exprTransform D (.symbol s) = .symbol s := by
  rw [exprTransform, transformBounded]

@[simp] theorem exprTransform_comp (type : Comparison) (left right : Symbol σ) :
    exprTransform D (.comp type left right) = transformComp D type left right := by
  rw [exprTransform, transformBounded]

@[simp] theorem exprTransform_two (type : Junction) (l r : Expr σ) :
    exprTransform D (.two type l r) = .two type (exprTransform D l) (exprTransform D r) := by
  rw [exprTransform, transformBounded]
  rfl

theorem exprTransform_not (e : Expr σ) :
    exprTransform D (.not e) = transformNot D (exprTransform D e) := by
  rw [exprTransform, transformBounded]
  simp only [exprTransform]
  rcases transformBounded D e with ⟨t, h⟩
  cases t <;> rfl

theorem weight_exprTransform (e : Expr σ) : (exprTransform D e).weight ≤ e.weight :=
  (transformBounded D e).2

end Equations

/-- Induction along the calls of `expr_transform`. -/
theorem exprTransform_induction (D : Decls σ) {P : Expr σ → Prop}
    (symbol : ∀ s, P (.symbol s)) (comp : ∀ type s t, P (.comp type s t))
    (two : ∀ type l r, P l → P r → P (.two type l r))
    (not : ∀ e, P e →
      (∀ tmp, exprTransform D e = .not tmp → P tmp) →
      (∀ type l r, exprTransform D e = .two type l r → P (.two type.dual (.not l) (.not r))) →
      P (.not e))
    (e : Expr σ) : P e := by
  induction hw : e.weight using Nat.strong_induction_on generalizing e with
  | _ w ih =>
    subst hw
    cases e with
    | symbol s => exact symbol s
    | comp type s t => exact comp type s t
    | two type l r =>
      exact two type l r (ih _ (by simp only [Expr.weight]; omega) l rfl)
        (ih _ (by simp only [Expr.weight]; omega) r rfl)
    | not e =>
      have hle := weight_exprTransform D e
      refine not e (ih _ e.weight_lt_not e rfl) ?_ ?_
      · intro tmp ht
        rw [ht] at hle
        exact ih _ (tmp.weight_lt_not.trans_le (hle.trans e.weight_lt_not.le)) tmp rfl
      · intro type l r ht
        rw [ht] at hle
        exact ih _ ((Expr.weight_deMorgan type.dual type l r).trans_le (Expr.weight_not_le hle))
          _ rfl

/-! ## The value stays -/

section Value

variable {D : Decls σ} {V : Values σ}

/-- A boolean symbol is `n` or `y`, as a value and as a string. -/
theorem Valid.boolean_cases (hV : Valid D V) {s : Symbol σ} (hs : s.type D = .boolean) :
    (s.tri D V = .no ∧ s.string D V = "n") ∨ (s.tri D V = .yes ∧ s.string D V = "y") := by
  cases s with
  | entry s =>
    have hs' : D.type s = .boolean := hs
    have hm := hV.boolean s hs'
    cases hv : V.tri s with
    | no => exact .inl (by simp [Symbol.tri, Symbol.string, hs', hv])
    | mod => exact absurd hv hm
    | yes => exact .inr (by simp [Symbol.tri, Symbol.string, hs', hv])
  | _ => exact absurd hs nofun

theorem value_flip (type : Comparison) (s t : Symbol σ) :
    (Expr.comp type.flip s t).value D V = exprNot ((Expr.comp type s t).value D V) := by
  cases type with
  | equal => exact (exprNot_ofBool _).symm
  | unequal =>
    rw [Comparison.flip, Expr.value, Expr.value, exprNot_ofBool, Bool.not_not]

theorem value_transformComp (hV : Valid D V) (type : Comparison) (s t : Symbol σ) :
    (transformComp D type s t).value D V = (Expr.comp type s t).value D V := by
  unfold transformComp
  split
  · rfl
  next hs =>
    rcases hV.boolean_cases (not_not.mp hs) with ⟨ht, hstr⟩ | ⟨ht, hstr⟩
    · cases type <;> cases t <;> simp [Expr.value, ht, hstr, ofBool, exprNot]
    · cases type <;> cases t <;> simp [Expr.value, ht, hstr, ofBool, exprNot]

theorem value_transformNotSymbol (s : Symbol σ) :
    (transformNotSymbol s).value D V = exprNot (s.tri D V) := by
  cases s <;> rfl

/-- `expr_transform` keeps the value in every state where no boolean symbol is `m`. -/
theorem value_exprTransform (hV : Valid D V) (e : Expr σ) :
    (exprTransform D e).value D V = e.value D V := by
  induction e using exprTransform_induction D with
  | symbol s => rw [exprTransform_symbol]
  | comp type s t =>
    rw [exprTransform_comp]
    exact value_transformComp hV type s t
  | two type l r ihl ihr => rw [exprTransform_two, Expr.value, ihl, ihr, Expr.value]
  | not e ih ihn iht =>
    rw [exprTransform_not, Expr.value, ← ih]
    cases ht : exprTransform D e with
    | symbol s => exact value_transformNotSymbol s
    | not tmp => rw [transformNot, ihn tmp ht, Expr.value, exprNot_exprNot]
    | comp type s t => exact value_flip type s t
    | two type l r =>
      rw [transformNot, iht type l r ht, Expr.value, Expr.value, Expr.value, Expr.value]
      exact Junction.exprNot_value.symm

end Value

/-! ## The form of the result -/

/-- Negations stand before symbols of the table only, and no boolean symbol is compared with `y`,
`m` or `n`. -/
def Negated (D : Decls σ) : Expr σ → Prop
  | .symbol _ => True
  | .comp _ s t => s.type D = .boolean → ∃ t', t = .entry t'
  | .not (.symbol (.entry _)) => True
  | .not _ => False
  | .two _ l r => Negated D l ∧ Negated D r

variable {D : Decls σ}

theorem Negated.notSymbol {e : Expr σ} (h : Negated D e) : NotSymbol e := by
  induction e with
  | not e ih =>
    match e, h with
    | .symbol (.entry s), _ => trivial
  | two type l r ihl ihr => exact ⟨ihl h.1, ihr h.2⟩
  | _ => trivial

theorem negated_transformComp (type : Comparison) (s t : Symbol σ) :
    Negated D (transformComp D type s t) := by
  unfold transformComp
  split
  next hs => exact fun h => absurd h hs
  next hs =>
    cases s with
    | entry s => cases type <;> cases t <;> first | trivial | exact fun _ => ⟨_, rfl⟩
    | _ => exact absurd (not_not.mp hs) nofun

theorem negated_transformNotSymbol (s : Symbol σ) : Negated D (transformNotSymbol s) := by
  cases s <;> trivial

theorem negated_exprTransform (D : Decls σ) (e : Expr σ) : Negated D (exprTransform D e) := by
  induction e using exprTransform_induction D with
  | symbol s =>
    rw [exprTransform_symbol]
    trivial
  | comp type s t =>
    rw [exprTransform_comp]
    exact negated_transformComp type s t
  | two type l r ihl ihr =>
    rw [exprTransform_two]
    exact ⟨ihl, ihr⟩
  | not e ih ihn iht =>
    rw [exprTransform_not]
    cases ht : exprTransform D e with
    | symbol s => exact negated_transformNotSymbol s
    | not tmp => exact ihn tmp ht
    | comp type s t =>
      rw [ht] at ih
      exact ih
    | two type l r => exact iht type l r ht

theorem exprTransform_of_negated {e : Expr σ} (h : Negated D e) : exprTransform D e = e := by
  induction e with
  | symbol s => exact exprTransform_symbol D s
  | comp type s t =>
    rw [exprTransform_comp]
    unfold transformComp
    split
    · rfl
    next hs =>
      obtain ⟨t', rfl⟩ := h (not_not.mp hs)
      cases type <;> rfl
  | two type l r ihl ihr => rw [exprTransform_two, ihl h.1, ihr h.2]
  | not e ih =>
    match e, h with
    | .symbol (.entry s), _ =>
      rw [exprTransform_not, exprTransform_symbol]
      rfl

/-- A second `expr_transform` changes nothing. -/
theorem exprTransform_idem (D : Decls σ) (e : Expr σ) :
    exprTransform D (exprTransform D e) = exprTransform D e :=
  exprTransform_of_negated (negated_exprTransform D e)

end DebianKernel.FwConfig
