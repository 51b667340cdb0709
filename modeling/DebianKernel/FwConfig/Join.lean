import DebianKernel.FwConfig.Equal
import DebianKernel.FwConfig.Transform

/-!
# Joining two operands into one

`expr_join_or` and `expr_join_and` of `carl9170fw/config/expr.c`: the tables of two operands of a
list that one operand can stand for.

Result: `exprJoin_value`, the operand that is put in their place has the value of both.
-/

namespace DebianKernel.FwConfig

open Tristate

variable {σ : Type} [DecidableEq σ]

/-- `sym1`: the symbol that the first operand is about. -/
def joinSymbol1 : Expr σ → Option (Symbol σ)
  | .symbol s => some s
  | .comp _ s _ => some s
  | .not (.symbol s) => some s
  | .not (.comp _ s _) => some s
  | _ => none

/-- `sym2`: under a negation the second operand has to be a symbol. -/
def joinSymbol2 : Expr σ → Option (Symbol σ)
  | .symbol s => some s
  | .comp _ s _ => some s
  | .not (.symbol s) => some s
  | _ => none

/-- The rules of `expr_join_or` for operands about `sym1`. -/
def joinOrRules (D : Decls σ) (sym1 : Symbol σ) (e1 e2 : Expr σ) : Option (Expr σ) :=
  match sym1.type D, e1, e2 with
  -- (a='y') || (a='m') -> (a!='n')
  | .tristate, .comp .equal _ .yes, .comp .equal _ .mod => some (.comp .unequal sym1 .no)
  | .tristate, .comp .equal _ .mod, .comp .equal _ .yes => some (.comp .unequal sym1 .no)
  -- (a='y') || (a='n') -> (a!='m')
  | .tristate, .comp .equal _ .yes, .comp .equal _ .no => some (.comp .unequal sym1 .mod)
  | .tristate, .comp .equal _ .no, .comp .equal _ .yes => some (.comp .unequal sym1 .mod)
  -- (a='m') || (a='n') -> (a!='y')
  | .tristate, .comp .equal _ .mod, .comp .equal _ .no => some (.comp .unequal sym1 .yes)
  | .tristate, .comp .equal _ .no, .comp .equal _ .mod => some (.comp .unequal sym1 .yes)
  | .boolean, .not (.symbol _), .symbol _ => some (.symbol .yes)
  | .boolean, .symbol _, .not (.symbol _) => some (.symbol .yes)
  | _, _, _ => none

/-- `expr_join_or`. -/
def exprJoinOr (D : Decls σ) (e1 e2 : Expr σ) : Option (Expr σ) :=
  if exprEq e1 e2 then some e1
  else
    match joinSymbol1 e1, joinSymbol2 e2 with
    | some sym1, some sym2 => if sym1 ≠ sym2 then none else joinOrRules D sym1 e1 e2
    | _, _ => none

/-- The rules of `expr_join_and` that are for tristate symbols only. -/
def joinAndTristate (D : Decls σ) (sym1 : Symbol σ) (e1 e2 : Expr σ) : Option (Expr σ) :=
  match e1, e2 with
  -- (a='b') && (a!='c') -> 'b'='c' ? 'n' : a='b'
  | .comp .equal _ b, .comp .unequal _ c =>
    if c.const D && b.const D then
      if b ≠ c then some (.comp .equal sym1 b) else some (.symbol .no)
    else none
  | .comp .unequal _ c, .comp .equal _ b =>
    if c.const D && b.const D then
      if b ≠ c then some (.comp .equal sym1 b) else some (.symbol .no)
    else none
  -- (a!='y') && (a!='n') -> (a='m')
  | .comp .unequal _ .yes, .comp .unequal _ .no => some (.comp .equal sym1 .mod)
  | .comp .unequal _ .no, .comp .unequal _ .yes => some (.comp .equal sym1 .mod)
  -- (a!='y') && (a!='m') -> (a='n')
  | .comp .unequal _ .yes, .comp .unequal _ .mod => some (.comp .equal sym1 .no)
  | .comp .unequal _ .mod, .comp .unequal _ .yes => some (.comp .equal sym1 .no)
  -- the source says (a='m') here and builds (a='y')
  | .comp .unequal _ .mod, .comp .unequal _ .no => some (.comp .equal sym1 .yes)
  | .comp .unequal _ .no, .comp .unequal _ .mod => some (.comp .equal sym1 .yes)
  | _, _ => none

/-- The rules of `expr_join_and` for operands about `sym1`. -/
def joinAndRules (D : Decls σ) (sym1 : Symbol σ) (e1 e2 : Expr σ) : Option (Expr σ) :=
  if sym1.type D ≠ .boolean ∧ sym1.type D ≠ .tristate then none
  else
    match e1, e2 with
    -- (a) && (a='y') -> (a='y')
    | .symbol _, .comp .equal _ .yes => some (.comp .equal sym1 .yes)
    | .comp .equal _ .yes, .symbol _ => some (.comp .equal sym1 .yes)
    -- (a) && (a!='n') -> (a)
    | .symbol _, .comp .unequal _ .no => some (.symbol sym1)
    | .comp .unequal _ .no, .symbol _ => some (.symbol sym1)
    -- (a) && (a!='m') -> (a='y')
    | .symbol _, .comp .unequal _ .mod => some (.comp .equal sym1 .yes)
    | .comp .unequal _ .mod, .symbol _ => some (.comp .equal sym1 .yes)
    | _, _ => if sym1.type D = .tristate then joinAndTristate D sym1 e1 e2 else none

/-- `expr_join_and`. -/
def exprJoinAnd (D : Decls σ) (e1 e2 : Expr σ) : Option (Expr σ) :=
  if exprEq e1 e2 then some e1
  else
    match joinSymbol1 e1, joinSymbol2 e2 with
    | some sym1, some sym2 => if sym1 ≠ sym2 then none else joinAndRules D sym1 e1 e2
    | _, _ => none

/-- The `switch` over `type` of `expr_eliminate_dups1`. -/
def exprJoin (D : Decls σ) : Junction → Expr σ → Expr σ → Option (Expr σ)
  | .or => exprJoinOr D
  | .and => exprJoinAnd D

/-! ## The values -/

variable {D : Decls σ} {V : Values σ} {s t : Symbol σ} {e1 e2 e : Expr σ}

omit [DecidableEq σ] in
theorem Valid.tristate_cases (hV : Valid D V) (hs : s.type D = .tristate) :
    (s.tri D V = .no ∧ s.string D V = "n") ∨ (s.tri D V = .mod ∧ s.string D V = "m") ∨
      (s.tri D V = .yes ∧ s.string D V = "y") := by
  cases s with
  | entry s =>
    have hs' : D.type s = .tristate := hs
    cases hv : V.tri s with
    | no => exact .inl (by simp [Symbol.tri, Symbol.string, hs', hv])
    | mod =>
      have hm : V.modules ≠ .no := fun hm => hV.tristate s hs' hm hv
      exact .inr (.inl (by simp [Symbol.tri, Symbol.string, hs', hv, hm]))
    | yes => exact .inr (.inr (by simp [Symbol.tri, Symbol.string, hs', hv]))
  | _ => cases hs

omit [DecidableEq σ] in
/-- Two constants of one string are the same constant. -/
theorem Valid.const_string (hV : Valid D V) (hs : s.const D = true) (ht : t.const D = true)
    (h : s.string D V = t.string D V) : s = t := by
  have hname (s : σ) (hs : D.const s = true) : (Symbol.entry s).string D V = D.name s := by
    simp [Symbol.string, hV.constType s hs]
  cases s with
  | entry s =>
    have hb := hV.constBuiltin s hs
    rw [hname s hs] at h
    cases t with
    | entry t =>
      rw [hname t ht] at h
      rw [hV.constName s t hs ht h]
    | yes => exact absurd h hb.1
    | mod => exact absurd h hb.2.1
    | no => exact absurd h hb.2.2
  | _ =>
    cases t with
    | entry t =>
      have hb := hV.constBuiltin t ht
      rw [hname t ht] at h
      first
        | exact absurd h.symm hb.1
        | exact absurd h.symm hb.2.1
        | exact absurd h.symm hb.2.2
    | _ => first | rfl | simp at h

omit [DecidableEq σ] in
theorem joinOrRules_value (hV : Valid D V) {sym1 : Symbol σ} (h1 : joinSymbol1 e1 = some sym1)
    (h2 : joinSymbol2 e2 = some sym1) (h : joinOrRules D sym1 e1 e2 = some e) :
    e.value D V = exprOr (e1.value D V) (e2.value D V) := by
  unfold joinOrRules at h
  split at h
  case h_9 => exact absurd h nofun
  all_goals
    simp only [joinSymbol1, joinSymbol2, Option.some.injEq] at h1 h2 h
    subst h1 h2 h
  case h_7 sym2 _ hs =>
    rcases hV.boolean_cases hs with ⟨ht, -⟩ | ⟨ht, -⟩ <;> simp [Expr.value, ht] <;> rfl
  case h_8 sym2 _ hs =>
    rcases hV.boolean_cases hs with ⟨ht, -⟩ | ⟨ht, -⟩ <;> simp [Expr.value, ht] <;> rfl
  all_goals
    next hs =>
      rcases hV.tristate_cases hs with ⟨-, ht⟩ | ⟨-, ht⟩ | ⟨-, ht⟩ <;>
        simp [Expr.value, ht, ofBool] <;> rfl

omit [DecidableEq σ] in
/-- A symbol that `expr_join_and` looks at: its value goes with its string. -/
theorem Valid.declared_cases (hV : Valid D V) (hs : s.type D = .boolean ∨ s.type D = .tristate) :
    (s.tri D V = .no ∧ s.string D V = "n") ∨ (s.tri D V = .mod ∧ s.string D V = "m") ∨
      (s.tri D V = .yes ∧ s.string D V = "y") := by
  rcases hs with hs | hs
  · rcases hV.boolean_cases hs with h | h
    · exact .inl h
    · exact .inr (.inr h)
  · exact hV.tristate_cases hs

/-- `(a='b') && (a!='c')` for constants `b` and `c`. -/
theorem equal_and_unequal (hV : Valid D V) {a b c : Symbol σ} (hb : b.const D = true)
    (hc : c.const D = true)
    (h : (if b ≠ c then some (Expr.comp .equal a b) else some (.symbol .no)) = some e) :
    e.value D V =
      exprAnd ((Expr.comp .equal a b).value D V) ((Expr.comp .unequal a c).value D V) := by
  by_cases hbc : b = c
  · subst hbc
    rw [if_neg (not_not.mpr rfl), Option.some.injEq] at h
    subst h
    simp only [Expr.value]
    cases a.string D V == b.string D V <;> rfl
  · rw [if_pos hbc, Option.some.injEq] at h
    subst h
    have hne : b.string D V ≠ c.string D V := fun h => hbc (hV.const_string hb hc h)
    by_cases hab : a.string D V = b.string D V
    · have hac : (b.string D V == c.string D V) = false := beq_eq_false_iff_ne.mpr hne
      simp only [Expr.value, hab, hac, BEq.rfl]
      rfl
    · have hab' : (a.string D V == b.string D V) = false := beq_eq_false_iff_ne.mpr hab
      simp only [Expr.value, hab']
      cases a.string D V == c.string D V <;> rfl

theorem joinAndTristate_value (hV : Valid D V) {sym1 : Symbol σ} (hs : sym1.type D = .tristate)
    (h1 : joinSymbol1 e1 = some sym1) (h2 : joinSymbol2 e2 = some sym1)
    (h : joinAndTristate D sym1 e1 e2 = some e) :
    e.value D V = exprAnd (e1.value D V) (e2.value D V) := by
  unfold joinAndTristate at h
  split at h
  case h_9 => exact absurd h nofun
  case h_1 a b a' c =>
    simp only [joinSymbol1, joinSymbol2, Option.some.injEq] at h1 h2
    subst h1 h2
    split at h
    next hc =>
      rw [Bool.and_eq_true] at hc
      exact equal_and_unequal hV hc.2 hc.1 h
    next => exact absurd h nofun
  case h_2 a c a' b =>
    simp only [joinSymbol1, joinSymbol2, Option.some.injEq] at h1 h2
    subst h1 h2
    split at h
    next hc =>
      rw [Bool.and_eq_true] at hc
      exact (equal_and_unequal hV hc.2 hc.1 h).trans (@Junction.value_comm .and _ _)
    next => exact absurd h nofun
  all_goals
    simp only [joinSymbol1, joinSymbol2, Option.some.injEq] at h1 h2 h
    subst h1 h2 h
    rcases hV.tristate_cases hs with ⟨-, ht⟩ | ⟨-, ht⟩ | ⟨-, ht⟩ <;>
      simp [Expr.value, ht, ofBool] <;> rfl

theorem joinAndRules_value (hV : Valid D V) {sym1 : Symbol σ} (h1 : joinSymbol1 e1 = some sym1)
    (h2 : joinSymbol2 e2 = some sym1) (h : joinAndRules D sym1 e1 e2 = some e) :
    e.value D V = exprAnd (e1.value D V) (e2.value D V) := by
  unfold joinAndRules at h
  split at h
  · exact absurd h nofun
  next hs =>
    have hs' : sym1.type D = .boolean ∨ sym1.type D = .tristate := by tauto
    split at h
    case h_7 =>
      split at h
      next ht => exact joinAndTristate_value hV ht h1 h2 h
      next => exact absurd h nofun
    all_goals
      simp only [joinSymbol1, joinSymbol2, Option.some.injEq] at h1 h2 h
      subst h1 h2 h
      rcases hV.declared_cases hs' with ⟨hv, ht⟩ | ⟨hv, ht⟩ | ⟨hv, ht⟩ <;>
        simp [Expr.value, ht, hv, ofBool] <;> rfl

/-- The operand that is put in the place of two has the value of both. -/
theorem exprJoin_value (hV : Valid D V) (type : Junction) (h : exprJoin D type e1 e2 = some e) :
    e.value D V = type.value (e1.value D V) (e2.value D V) := by
  have same (heq : exprEq e1 e2 = true) (he : e1 = e) :
      e.value D V = type.value (e1.value D V) (e2.value D V) := by
    rw [← he, ← soundEq_exprEq e1 e2 heq D V, Junction.value_self]
  cases type with
  | or =>
    change exprJoinOr D e1 e2 = some e at h
    unfold exprJoinOr at h
    split at h
    next heq => exact same heq (Option.some.inj h)
    next =>
      split at h
      next sym1 sym2 h1 h2 =>
        by_cases hsym : sym1 = sym2
        · subst hsym
          rw [if_neg (not_not.mpr rfl)] at h
          exact joinOrRules_value hV h1 h2 h
        · rw [if_pos hsym] at h
          cases h
      next => cases h
  | and =>
    change exprJoinAnd D e1 e2 = some e at h
    unfold exprJoinAnd at h
    split at h
    next heq => exact same heq (Option.some.inj h)
    next =>
      split at h
      next sym1 sym2 h1 h2 =>
        by_cases hsym : sym1 = sym2
        · subst hsym
          rw [if_neg (not_not.mpr rfl)] at h
          exact joinAndRules_value hV h1 h2 h
        · rw [if_pos hsym] at h
          cases h
      next => cases h

/-! ## The size -/

/-- A symbol or a comparison. -/
def Leaf (e : Expr σ) : Prop :=
  (∃ s, e = .symbol s) ∨ ∃ c s t, e = .comp c s t

omit [DecidableEq σ] in
theorem Leaf.mass_le (h : Leaf e) : e.mass ≤ 1 := by
  rcases h with ⟨s, rfl⟩ | ⟨c, s, t, rfl⟩
  · cases s <;> simp [Expr.mass]
  · exact Nat.le_refl 1

omit [DecidableEq σ] in
theorem joinOrRules_leaf {sym1 : Symbol σ} (h : joinOrRules D sym1 e1 e2 = some e) :
    Leaf e ∧ 1 ≤ e1.mass + e2.mass := by
  unfold joinOrRules at h
  split at h
  case h_9 => exact absurd h nofun
  all_goals
    rw [Option.some.injEq] at h
    subst h
    refine ⟨?_, by simp only [Expr.mass]; omega⟩
    first | exact .inl ⟨_, rfl⟩ | exact .inr ⟨_, _, _, rfl⟩

theorem joinAndTristate_leaf {sym1 : Symbol σ} (h : joinAndTristate D sym1 e1 e2 = some e) :
    Leaf e ∧ 1 ≤ e1.mass + e2.mass := by
  unfold joinAndTristate at h
  split at h
  case h_9 => exact absurd h nofun
  all_goals
    refine ⟨?_, by simp only [Expr.mass]; omega⟩
    try split_ifs at h
    all_goals
      rw [Option.some.injEq] at h
      subst h
      first | exact .inl ⟨_, rfl⟩ | exact .inr ⟨_, _, _, rfl⟩

theorem joinAndRules_leaf {sym1 : Symbol σ} (h : joinAndRules D sym1 e1 e2 = some e) :
    Leaf e ∧ 1 ≤ e1.mass + e2.mass := by
  unfold joinAndRules at h
  split at h
  · exact absurd h nofun
  · split at h
    case h_7 =>
      split at h
      · exact joinAndTristate_leaf h
      · exact absurd h nofun
    all_goals
      rw [Option.some.injEq] at h
      subst h
      refine ⟨?_, by simp only [Expr.mass]; omega⟩
      first | exact .inl ⟨_, rfl⟩ | exact .inr ⟨_, _, _, rfl⟩

/-- What is put in the place of two operands is the first of them or a leaf. -/
theorem exprJoin_cases (type : Junction) (h : exprJoin D type e1 e2 = some e) :
    e = e1 ∨ (Leaf e ∧ 1 ≤ e1.mass + e2.mass) := by
  cases type with
  | or =>
    change exprJoinOr D e1 e2 = some e at h
    unfold exprJoinOr at h
    split at h
    next => exact .inl (Option.some.inj h).symm
    next =>
      split at h
      next sym1 sym2 h1 h2 =>
        split at h
        · cases h
        · exact .inr (joinOrRules_leaf h)
      next => cases h
  | and =>
    change exprJoinAnd D e1 e2 = some e at h
    unfold exprJoinAnd at h
    split at h
    next => exact .inl (Option.some.inj h).symm
    next =>
      split at h
      next sym1 sym2 h1 h2 =>
        split at h
        · cases h
        · exact .inr (joinAndRules_leaf h)
      next => cases h

theorem exprJoin_mass_le (type : Junction) (h : exprJoin D type e1 e2 = some e) :
    e.mass ≤ e1.mass + e2.mass := by
  rcases exprJoin_cases type h with rfl | ⟨hl, hm⟩
  · exact Nat.le_add_right _ _
  · exact hl.mass_le.trans hm

theorem exprJoin_mass_lt (type : Junction) (h : exprJoin D type e1 e2 = some e) (h1 : 0 < e1.mass)
    (h2 : 0 < e2.mass) : e.mass < e1.mass + e2.mass := by
  rcases exprJoin_cases type h with rfl | ⟨hl, -⟩
  · exact Nat.lt_add_of_pos_right h2
  · have := hl.mass_le
    omega

end DebianKernel.FwConfig
