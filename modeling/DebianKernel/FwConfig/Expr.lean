import DebianKernel.Lib.CommonPart
import Mathlib.Order.Basic
import Mathlib.Order.Lattice
import Mathlib.Order.MinMax

/-!
# Dependency expressions of the firmware's configuration

`carl9170fw/config/expr.h` and `expr.c`: what an expression over configuration symbols is, the value
it has in a state of the symbols, and the removal of the operands `y` and `n`.

The state of the symbols is what `sym_calc_value` leaves behind. `Valid` collects what it and
`sym_lookup` promise of it.

Results:
* `value_exprEliminateYn`: the removal keeps the value,
* `noYn_exprEliminateYn`: no operand of the result is `y` or `n`,
* `exprEliminateYn_spec`: exactly the expressions with such an operand change.
-/

namespace DebianKernel.FwConfig

/-! ## Values -/

/-- `enum tristate`. -/
inductive Tristate where
  | no
  | mod
  | yes
  deriving DecidableEq, Repr

namespace Tristate

def toNat : Tristate → Nat
  | no => 0
  | mod => 1
  | yes => 2

instance : LE Tristate := ⟨fun a b => a.toNat ≤ b.toNat⟩

instance (a b : Tristate) : Decidable (a ≤ b) := inferInstanceAs (Decidable (a.toNat ≤ b.toNat))

/-- `EXPR_OR`. -/
def exprOr (dep1 dep2 : Tristate) : Tristate :=
  if dep1.toNat > dep2.toNat then dep1 else dep2

/-- `EXPR_AND`. -/
def exprAnd (dep1 dep2 : Tristate) : Tristate :=
  if dep1.toNat < dep2.toNat then dep1 else dep2

/-- `EXPR_NOT`, which is `2 - dep`. -/
def exprNot : Tristate → Tristate
  | no => yes
  | mod => mod
  | yes => no

@[simp] theorem exprNot_exprNot (a : Tristate) : exprNot (exprNot a) = a := by
  cases a <;> rfl

/-- The truth value of a comparison. -/
def ofBool (b : Bool) : Tristate :=
  if b then yes else no

@[simp] theorem exprNot_ofBool (b : Bool) : exprNot (ofBool b) = ofBool (!b) := by
  cases b <;> rfl

end Tristate

open Tristate

/-! ## Expressions -/

/-- `enum symbol_type`. -/
inductive SymbolType where
  | unknown
  | boolean
  | tristate
  | int
  | hex
  | string
  | other
  deriving DecidableEq, Repr

/-- A `struct symbol *`: one of the three constants of `symbol.c`, or an entry of the symbol
table. -/
inductive Symbol (σ : Type) where
  | yes
  | mod
  | no
  | entry (s : σ)
  deriving DecidableEq, Repr

/-- `E_OR` and `E_AND`, the types of `expr_alloc_two`. -/
inductive Junction where
  | or
  | and
  deriving DecidableEq, Repr

/-- `E_EQUAL` and `E_UNEQUAL`, the types of `expr_alloc_comp`. -/
inductive Comparison where
  | equal
  | unequal
  deriving DecidableEq, Repr

/-- `struct expr`, one constructor for each of its allocators. -/
inductive Expr (σ : Type) where
  | symbol (sym : Symbol σ)
  | not (left : Expr σ)
  | comp (type : Comparison) (left right : Symbol σ)
  | two (type : Junction) (left right : Expr σ)
  deriving DecidableEq, Repr

/-- `enum expr_type`, less the types that no condition has. -/
inductive ExprType where
  | or
  | and
  | not
  | equal
  | unequal
  | symbol
  deriving DecidableEq, Repr

def Junction.exprType : Junction → ExprType
  | .or => .or
  | .and => .and

def Comparison.exprType : Comparison → ExprType
  | .equal => .equal
  | .unequal => .unequal

variable {σ : Type}

namespace Expr

def type : Expr σ → ExprType
  | symbol _ => .symbol
  | not _ => .not
  | comp type _ _ => type.exprType
  | two type _ _ => type.exprType

/-- The node is an operand list of this type, `e->type == type`. -/
def isTwo (type : Junction) : Expr σ → Bool
  | two type' _ _ => type' = type
  | _ => false

@[simp] theorem isTwo_two {type type' : Junction} {l r : Expr σ} :
    (two type' l r).isTwo type = true ↔ type' = type := by
  simp [isTwo]

@[simp] theorem isTwo_symbol (type : Junction) (s : Symbol σ) :
    (symbol s).isTwo type = false := rfl

end Expr

/-- Induction along the operands of a list of one type. -/
theorem Expr.operands_induction (type : Junction) {P : Expr σ → Prop}
    (two : ∀ l r, P l → P r → P (.two type l r))
    (one : ∀ e, e.isTwo type = false → P e) (e : Expr σ) : P e := by
  induction e with
  | two type' l r ihl ihr =>
    by_cases h : type' = type
    · subst h
      exact two l r ihl ihr
    · exact one _ (by simp [Expr.isTwo, h])
  | symbol s => exact one _ rfl
  | not e _ => exact one _ rfl
  | comp c s t => exact one _ rfl

/-- `expr_is_yes` of an expression that is there. -/
def exprIsYes (e : Expr σ) : Prop := e = .symbol .yes

/-- `expr_is_no`. -/
def exprIsNo (e : Expr σ) : Prop := e = .symbol .no

instance [DecidableEq σ] (e : Expr σ) : Decidable (exprIsYes e) :=
  inferInstanceAs (Decidable (_ = _))

instance [DecidableEq σ] (e : Expr σ) : Decidable (exprIsNo e) :=
  inferInstanceAs (Decidable (_ = _))

/-- `expr_alloc_and`, where `none` is the null pointer. -/
def exprAllocAnd : Option (Expr σ) → Option (Expr σ) → Option (Expr σ)
  | none, e2 => e2
  | some e1, some e2 => some (.two .and e1 e2)
  | some e1, none => some e1

/-- `expr_alloc_or`. -/
def exprAllocOr : Option (Expr σ) → Option (Expr σ) → Option (Expr σ)
  | none, e2 => e2
  | some e1, some e2 => some (.two .or e1 e2)
  | some e1, none => some e1

/-! ## The state of the symbols -/

/-- What the parser leaves in the symbol table: `type`, `name` and `flags & SYMBOL_CONST`. -/
structure Decls (σ : Type) where
  type : σ → SymbolType
  name : σ → String
  const : σ → Bool

/-- What `sym_calc_value` leaves there: `curr.tri`, `curr.val`, and the value of `modules_sym`. -/
structure Values (σ : Type) where
  tri : σ → Tristate
  val : σ → String
  modules : Tristate

namespace Symbol

/-- `sym->type`; the three constants are `S_UNKNOWN`. -/
def type (D : Decls σ) : Symbol σ → SymbolType
  | entry s => D.type s
  | _ => .unknown

/-- `sym->flags & SYMBOL_CONST`. -/
def const (D : Decls σ) : Symbol σ → Bool
  | entry s => D.const s
  | _ => true

/-- `sym->curr.tri` after `sym_calc_value`, which gives a value of this kind to `S_BOOLEAN` and
`S_TRISTATE` only. -/
def tri (D : Decls σ) (V : Values σ) : Symbol σ → Tristate
  | yes => .yes
  | mod => .mod
  | no => .no
  | entry s =>
    match D.type s with
    | .boolean | .tristate => V.tri s
    | _ => .no

/-- `sym_get_string_value` after `sym_calc_value`; a symbol without a type has its name. -/
def string (D : Decls σ) (V : Values σ) : Symbol σ → String
  | yes => "y"
  | mod => "m"
  | no => "n"
  | entry s =>
    match D.type s with
    | .boolean | .tristate =>
      match V.tri s with
      | .no => "n"
      | .mod => if V.modules = .no then "n" else "m"
      | .yes => "y"
    | .unknown | .other => D.name s
    | _ => V.val s

section

variable (D : Decls σ) (V : Values σ)

@[simp] theorem tri_yes : (yes : Symbol σ).tri D V = .yes := rfl

@[simp] theorem tri_mod : (mod : Symbol σ).tri D V = .mod := rfl

@[simp] theorem tri_no : (no : Symbol σ).tri D V = .no := rfl

@[simp] theorem string_yes : (yes : Symbol σ).string D V = "y" := rfl

@[simp] theorem string_mod : (mod : Symbol σ).string D V = "m" := rfl

@[simp] theorem string_no : (no : Symbol σ).string D V = "n" := rfl

end
end Symbol

/-- What `sym_calc_value` and `sym_lookup` promise of the state. -/
structure Valid (D : Decls σ) (V : Values σ) : Prop where
  boolean : ∀ s, D.type s = .boolean → V.tri s ≠ .mod
  /-- Without modules a tristate symbol is treated as a boolean one. -/
  tristate : ∀ s, D.type s = .tristate → V.modules = .no → V.tri s ≠ .mod
  /-- A quoted word is never declared. -/
  constType : ∀ s, D.const s = true → D.type s = .unknown
  /-- `sym_lookup` makes one constant for each name, and none for `y`, `m` and `n`. -/
  constName : ∀ s t, D.const s = true → D.const t = true → D.name s = D.name t → s = t
  constBuiltin : ∀ s, D.const s = true → D.name s ≠ "y" ∧ D.name s ≠ "m" ∧ D.name s ≠ "n"

/-- Two tristate symbols. -/
def fooBar : Decls Bool where
  type _ := .tristate
  name s := if s then "FOO" else "BAR"
  const _ := false

/-- `FOO=m` and `BAR=m`. -/
def fooBarMod : Values Bool where
  tri _ := .mod
  val _ := ""
  modules := .yes

theorem fooBarMod_valid : Valid fooBar fooBarMod where
  boolean _ h := absurd (show SymbolType.tristate = .boolean from h) (by decide)
  tristate _ _ h := absurd (show Tristate.yes = .no from h) (by decide)
  constType _ h := absurd h Bool.false_ne_true
  constName _ _ h := absurd h Bool.false_ne_true
  constBuiltin _ h := absurd h Bool.false_ne_true

/-- The value of `dep1 type dep2`. -/
def Junction.value : Junction → Tristate → Tristate → Tristate
  | .or => exprOr
  | .and => exprAnd

/-- `expr_calc_value` of an expression that is there. -/
def Expr.value (D : Decls σ) (V : Values σ) : Expr σ → Tristate
  | symbol sym => sym.tri D V
  | two type left right => type.value (left.value D V) (right.value D V)
  | not left => exprNot (left.value D V)
  | comp .equal left right => ofBool (left.string D V == right.string D V)
  | comp .unequal left right => ofBool (!(left.string D V == right.string D V))

/-- `expr_calc_value`. -/
def exprCalcValue (D : Decls σ) (V : Values σ) : Option (Expr σ) → Tristate
  | none => .yes
  | some e => e.value D V

/-! ## The two junctions -/

namespace Junction

/-- The symbol that `type` nodes pass over: `n` under `E_OR`, `y` under `E_AND`. -/
def neutral : Junction → Symbol σ
  | or => .no
  | and => .yes

/-- The symbol that decides a `type` node. -/
def decisive : Junction → Symbol σ
  | or => .yes
  | and => .no

def dual : Junction → Junction
  | or => and
  | and => or

@[simp] theorem dual_dual (type : Junction) : type.dual.dual = type := by
  cases type <;> rfl

/-- The value of `neutral`. -/
def unit : Junction → Tristate
  | or => .no
  | and => .yes

@[simp] theorem tri_neutral (type : Junction) (D : Decls σ) (V : Values σ) :
    type.neutral.tri D V = type.unit := by
  cases type <;> rfl

@[simp] theorem tri_decisive (type : Junction) (D : Decls σ) (V : Values σ) :
    type.decisive.tri D V = type.dual.unit := by
  cases type <;> rfl

variable {type : Junction} {a b c : Tristate}

instance (type : Junction) : Std.Associative type.value where
  assoc a b c := by cases type <;> cases a <;> cases b <;> cases c <;> rfl

instance (type : Junction) : Std.Commutative type.value where
  comm a b := by cases type <;> cases a <;> cases b <;> rfl

instance (type : Junction) : Std.IdempotentOp type.value where
  idempotent a := by cases type <;> cases a <;> rfl

instance (type : Junction) : Std.LawfulIdentity type.value type.unit where
  left_id a := by cases type <;> cases a <;> rfl
  right_id a := by cases type <;> cases a <;> rfl

theorem value_comm (a b : Tristate) : type.value a b = type.value b a :=
  Std.Commutative.comm a b

theorem value_assoc (a b c : Tristate) :
    type.value (type.value a b) c = type.value a (type.value b c) :=
  Std.Associative.assoc a b c

@[simp] theorem value_self : type.value a a = a := by
  cases type <;> cases a <;> rfl

@[simp] theorem unit_value : type.value type.unit a = a := by
  cases type <;> cases a <;> rfl

@[simp] theorem value_unit : type.value a type.unit = a := by
  cases type <;> cases a <;> rfl

@[simp] theorem dual_unit_value : type.value type.dual.unit a = type.dual.unit := by
  cases type <;> cases a <;> rfl

@[simp] theorem value_dual_unit : type.value a type.dual.unit = type.dual.unit := by
  cases type <;> cases a <;> rfl

/-- De Morgan. -/
theorem exprNot_value : exprNot (type.value a b) = type.dual.value (exprNot a) (exprNot b) := by
  cases type <;> cases a <;> cases b <;> rfl

theorem value_mono (c : Tristate) (h : a ≤ b) : type.value c a ≤ type.value c b := by
  revert h
  cases type <;> cases a <;> cases b <;> cases c <;> decide

end Junction

/-! ## Operands `y` and `n` -/

section Yn

variable [DecidableEq σ]

/-- `expr_eliminate_yn`. -/
def exprEliminateYn : Expr σ → Expr σ
  | .two .and left right =>
    let left := exprEliminateYn left
    let right := exprEliminateYn right
    if left = .symbol .no then .symbol .no
    else if left = .symbol .yes then right
    else if right = .symbol .no then .symbol .no
    else if right = .symbol .yes then left
    else .two .and left right
  | .two .or left right =>
    let left := exprEliminateYn left
    let right := exprEliminateYn right
    if left = .symbol .no then right
    else if left = .symbol .yes then .symbol .yes
    else if right = .symbol .no then left
    else if right = .symbol .yes then .symbol .yes
    else .two .or left right
  | e => e

/-- Both halves of `expr_eliminate_yn` in one. -/
theorem exprEliminateYn_two (type : Junction) (l r : Expr σ) :
    exprEliminateYn (.two type l r) =
      if exprEliminateYn l = .symbol type.decisive then .symbol type.decisive
      else if exprEliminateYn l = .symbol type.neutral then exprEliminateYn r
      else if exprEliminateYn r = .symbol type.decisive then .symbol type.decisive
      else if exprEliminateYn r = .symbol type.neutral then exprEliminateYn l
      else .two type (exprEliminateYn l) (exprEliminateYn r) := by
  cases type with
  | and => rfl
  | or =>
    -- the source tests for the neutral symbol first here, and no symbol is both
    simp only [exprEliminateYn, Junction.neutral, Junction.decisive]
    split_ifs with h1 h2 h3 h4 <;> first | rfl | simp_all

/-- The removal of the operands `y` and `n` keeps the value. -/
theorem value_exprEliminateYn (D : Decls σ) (V : Values σ) (e : Expr σ) :
    (exprEliminateYn e).value D V = e.value D V := by
  induction e with
  | symbol _ => rfl
  | not _ _ => rfl
  | comp _ _ _ => rfl
  | two type l r ihl ihr =>
    rw [exprEliminateYn_two, Expr.value, ← ihl, ← ihr]
    split_ifs with h1 h2 h3 h4
    · simp [h1, Expr.value]
    · simp [h2, Expr.value]
    · simp [h3, Expr.value]
    · simp [h4, Expr.value]
    · rfl

/-- No operand of an `E_AND` or `E_OR` outside a negation is `y` or `n`. -/
def NoYn : Expr σ → Prop
  | .two _ l r => NoYn l ∧ NoYn r ∧ l ≠ .symbol .yes ∧ l ≠ .symbol .no ∧
      r ≠ .symbol .yes ∧ r ≠ .symbol .no
  | _ => True

theorem noYn_exprEliminateYn (e : Expr σ) : NoYn (exprEliminateYn e) := by
  induction e with
  | symbol _ => trivial
  | not _ _ => trivial
  | comp _ _ _ => trivial
  | two type l r ihl ihr =>
    rw [exprEliminateYn_two]
    split_ifs with h1 h2 h3 h4
    · trivial
    · exact ihr
    · trivial
    · exact ihl
    · cases type with
      | and => exact ⟨ihl, ihr, h2, h1, h4, h3⟩
      | or => exact ⟨ihl, ihr, h1, h2, h3, h4⟩

theorem exprEliminateYn_of_noYn {e : Expr σ} (h : NoYn e) : exprEliminateYn e = e := by
  induction e with
  | two type l r ihl ihr =>
    obtain ⟨hl, hr, hly, hln, hry, hrn⟩ := h
    rw [exprEliminateYn_two, ihl hl, ihr hr]
    cases type with
    | and => simp only [Junction.decisive, Junction.neutral, hln, hly, hrn, hry, if_false]
    | or => simp only [Junction.decisive, Junction.neutral, hln, hly, hrn, hry, if_false]
  | _ => rfl

/-- `expr_eliminate_yn` changes exactly the expressions with an operand `y` or `n`, and no value. -/
theorem exprEliminateYn_spec (e : Expr σ) :
    (exprEliminateYn e = e ↔ NoYn e) ∧ exprEliminateYn (exprEliminateYn e) = exprEliminateYn e ∧
      ∀ D V, (exprEliminateYn e).value D V = e.value D V :=
  ⟨⟨fun h => h ▸ noYn_exprEliminateYn e, exprEliminateYn_of_noYn⟩,
    exprEliminateYn_of_noYn (noYn_exprEliminateYn e), fun D V => value_exprEliminateYn D V e⟩

/-- Negations stand before symbols only. -/
def NotSymbol : Expr σ → Prop
  | .not (.symbol _) => True
  | .not _ => False
  | .two _ l r => NotSymbol l ∧ NotSymbol r
  | _ => True

theorem notSymbol_exprEliminateYn {e : Expr σ} (h : NotSymbol e) :
    NotSymbol (exprEliminateYn e) := by
  induction e with
  | two type l r ihl ihr =>
    rw [exprEliminateYn_two]
    split_ifs
    · trivial
    · exact ihr h.2
    · trivial
    · exact ihl h.1
    · exact ⟨ihl h.1, ihr h.2⟩
  | _ => exact h

/-- Number of leaves and negations, less the leaves `y` and `n`. -/
def Expr.mass : Expr σ → Nat
  | symbol .yes => 0
  | symbol .no => 0
  | symbol _ => 1
  | comp _ _ _ => 1
  | not left => left.mass + 1
  | two _ left right => left.mass + right.mass

theorem mass_exprEliminateYn_le (e : Expr σ) : (exprEliminateYn e).mass ≤ e.mass := by
  induction e with
  | two type l r ihl ihr =>
    rw [exprEliminateYn_two, Expr.mass]
    split_ifs
    · cases type <;> exact Nat.zero_le _
    · exact ihr.trans (Nat.le_add_left _ _)
    · cases type <;> exact Nat.zero_le _
    · exact ihl.trans (Nat.le_add_right _ _)
    · exact Nat.add_le_add ihl ihr
  | _ => exact Nat.le_refl _

omit [DecidableEq σ] in
/-- Without operands `y` and `n` every operand counts. -/
theorem NoYn.mass_pos {e : Expr σ} (h : NoYn e) (hy : e ≠ .symbol .yes) (hn : e ≠ .symbol .no) :
    0 < e.mass := by
  induction e with
  | symbol s => cases s <;> first | exact Nat.one_pos | exact absurd rfl hy | exact absurd rfl hn
  | not e _ => exact Nat.succ_pos _
  | comp _ _ _ => exact Nat.one_pos
  | two type l r ihl ihr =>
    obtain ⟨hl, hr, hly, hln, -, -⟩ := h
    exact Nat.add_pos_left (ihl hl hly hln) _

end Yn
end DebianKernel.FwConfig
