import DebianKernel.FwConfig.Join
import DebianKernel.FwConfig.Operands

/-!
# Operands that say the same twice

`expr_eliminate_dups` of `carl9170fw/config/expr.c`. Each pass walks all pairs of operands of a list
twice, first to join two operands into one, then to find an operand whose negation the list has as
well, and the passes go on until one of them changes nothing.

The two pointers of a walk are paths from the root of the list. A list inside an operand is walked
as a tree of its own. The walks count their calls down from a bound that `walkFuel` computes, and
the loop over the passes from the mass of the tree.

Results:
* `eliminateDups1_spec`, `eliminateDups2_spec`: a walk ends, and what it keeps,
* `exprEliminateDups_refines`: the loop ends, and the value changes only where it was `m`.
-/

namespace DebianKernel.FwConfig

open Tristate

variable {σ : Type} [DecidableEq σ]

/-! ## The walks -/

/-- The call of a walk on the list inside the operand `e1`. -/
def within (walk : Junction → Path → Path → Expr σ × Nat → Option (Expr σ × Nat)) (p : Path)
    (s : Expr σ × Nat) : Option (Expr σ × Nat) :=
  match s.1.get p with
  | some (.two type l r) =>
    (walk type [] [] (.two type l r, s.2)).map fun t => (s.1.put p t.1, t.2)
  | _ => some s

/-- The end of `expr_eliminate_dups1`, when both sides are operands. -/
def joinAt (D : Decls σ) (type : Junction) (p q : Path) (s : Expr σ × Nat) :
    Option (Expr σ × Nat) := do
  let e1 ← s.1.get p
  let e2 ← s.1.get q
  match exprJoin D type e1 e2 with
  | some tmp => some ((s.1.put p (.symbol type.neutral)).put q tmp, s.2 + 1)
  | none => some s

/-- `expr_eliminate_dups1` on the tree and `trans_count`. -/
def eliminateDups1 (D : Decls σ) :
    Nat → Junction → Path → Path → Expr σ × Nat → Option (Expr σ × Nat)
  | 0, _, _, _, _ => none
  | n + 1, type, p, q, s => do
    let e1 ← s.1.get p
    let e2 ← s.1.get q
    if e1.isTwo type then
      let s ← eliminateDups1 D n type (p ++ [.left]) q s
      eliminateDups1 D n type (p ++ [.right]) q s
    else if e2.isTwo type then
      let s ← eliminateDups1 D n type p (q ++ [.left]) s
      eliminateDups1 D n type p (q ++ [.right]) s
    else if p = q then some s
    else
      let s ← within (eliminateDups1 D n) p s
      joinAt D type p q s

/-- The end of `expr_eliminate_dups2`: an operand whose negation is part of the other side. -/
def cancelAt (D : Decls σ) (p q : Path) (s : Expr σ × Nat) : Option (Expr σ × Nat) := do
  let e1 ← s.1.get p
  let e2 ← s.1.get q
  match e1 with
  | .two .or _ _ =>
    -- (FOO || BAR) && (!FOO && !BAR) -> n
    let (_, tmp1, _) := exprExtractEqOf .and (exprTransform D (.not e1)) e2
    if exprIsYes tmp1 then some (s.1.put p (.symbol .no), s.2 + 1) else some s
  | .two .and _ _ =>
    -- (FOO && BAR) || (!FOO || !BAR) -> y
    let (_, tmp1, _) := exprExtractEqOf .or (exprTransform D (.not e1)) e2
    if exprIsNo tmp1 then some (s.1.put p (.symbol .yes), s.2 + 1) else some s
  | _ => some s

/-- `expr_eliminate_dups2`. After the operands of `e2` it goes on with `e2` itself. -/
def eliminateDups2 (D : Decls σ) :
    Nat → Junction → Path → Path → Expr σ × Nat → Option (Expr σ × Nat)
  | 0, _, _, _, _ => none
  | n + 1, type, p, q, s => do
    let e1 ← s.1.get p
    let e2 ← s.1.get q
    if e1.isTwo type then
      let s ← eliminateDups2 D n type (p ++ [.left]) q s
      eliminateDups2 D n type (p ++ [.right]) q s
    else
      let s ←
        if e2.isTwo type then do
          let s ← eliminateDups2 D n type p (q ++ [.left]) s
          eliminateDups2 D n type p (q ++ [.right]) s
        else some s
      if p = q then some s
      else
        let s ← within (eliminateDups2 D n) p s
        cancelAt D p q s

/-- How deep the calls of a walk over a whole list nest. -/
def walkFuel (type : Junction) (e : Expr σ) : Nat :=
  2 * (e.spine type).height + 1 + e.cost type

/-- One pass of the loop of `expr_eliminate_dups`, with the `trans_count` it leaves. -/
def dupsPass (D : Decls σ) : Expr σ → Option (Expr σ × Nat)
  | .two type l r => do
    let s ← eliminateDups1 D (walkFuel type (.two type l r)) type [] [] (.two type l r, 0)
    eliminateDups2 D (walkFuel type s.1) type [] [] s
  | e => some (e, 0)

/-- The loop of `expr_eliminate_dups`. -/
def dupsLoop (D : Decls σ) : Nat → Expr σ → Option (Expr σ)
  | 0, _ => none
  | n + 1, e => do
    let s ← dupsPass D e
    if s.2 = 0 then some s.1 else dupsLoop D n (exprEliminateYn s.1)

/-! ## What a walk keeps -/

/-- A relation of values that the operands of a list can be replaced along. -/
structure Congruence (rel : Tristate → Tristate → Prop) : Prop where
  refl : ∀ a, rel a a
  trans : ∀ {a b c}, rel a b → rel b c → rel a c
  value : ∀ (type : Junction) (c : Tristate) {a b}, rel a b → rel (type.value c a) (type.value c b)

/-- `b` is what `a` was, unless `a` was `m`. -/
def Refines (a b : Tristate) : Prop :=
  a = .mod ∨ b = a

theorem congruence_eq : Congruence Eq where
  refl _ := rfl
  trans := Eq.trans
  value type c _ _ h := congrArg (type.value c) h

theorem congruence_refines : Congruence Refines where
  refl _ := .inr rfl
  trans := by
    rintro a b c (rfl | rfl) h
    · exact .inl rfl
    · exact h
  value := by
    rintro type c a b (rfl | rfl)
    · cases type <;> cases c <;> cases b <;> first | exact .inl rfl | exact .inr rfl
    · exact .inr rfl

/-- From a tree and a `trans_count` to another: what a walk over a `type` list keeps. -/
structure Kept (D : Decls σ) (rel : Tristate → Tristate → Prop) (type : Junction)
    (s s' : Expr σ × Nat) : Prop where
  spine : s'.1.spine type = s.1.spine type
  cost : s'.1.cost type ≤ s.1.cost type
  value : ∀ V, Valid D V → rel (s.1.value D V) (s'.1.value D V)
  nots : NotSymbol s.1 → NotSymbol s'.1
  mass : s'.1.mass ≤ s.1.mass
  count : s.2 ≤ s'.2
  same : s'.2 = s.2 → s'.1 = s.1
  less : NoYn s.1 → s'.2 ≠ s.2 → s'.1.mass < s.1.mass

variable {D : Decls σ} {rel : Tristate → Tristate → Prop} {type : Junction}
  {s s' s'' : Expr σ × Nat} {e x : Expr σ} {p q : Path} {sp sq : Spine} {count : Nat}

omit [DecidableEq σ] in
theorem Kept.refl (hr : Congruence rel) (s : Expr σ × Nat) : Kept D rel type s s where
  spine := rfl
  cost := Nat.le_refl _
  value _ _ := hr.refl _
  nots h := h
  mass := Nat.le_refl _
  count := Nat.le_refl _
  same _ := rfl
  less _ h := absurd rfl h

omit [DecidableEq σ] in
theorem Kept.trans (hr : Congruence rel) (h : Kept D rel type s s') (h' : Kept D rel type s' s'') :
    Kept D rel type s s'' where
  spine := h'.spine.trans h.spine
  cost := h'.cost.trans h.cost
  value V hV := hr.trans (h.value V hV) (h'.value V hV)
  nots hn := h'.nots (h.nots hn)
  mass := h'.mass.trans h.mass
  count := h.count.trans h'.count
  same hc := by
    have h1 := h.count
    have h2 := h'.count
    rw [h'.same (by omega), h.same (by omega)]
  less hn hc := by
    by_cases h1 : s'.2 = s.2
    · have hs := h.same h1
      rw [← hs] at hn ⊢
      exact h'.less hn (by rwa [h1])
    · exact h'.mass.trans_lt (h.less hn h1)

omit [DecidableEq σ] in
theorem Kept.onSpine (h : Kept D rel type s s') (hp : OnSpine type s.1 p sp) :
    OnSpine type s'.1 p sp :=
  hp.congr h.spine

omit [DecidableEq σ] in
/-- A walk over a list inside an operand, as a step of the outer list. -/
theorem Kept.put (hr : Congruence rel) {type' : Junction} {l r : Expr σ}
    (hp : OnSpine type e p .leaf) (hx : e.get p = some (.two type' l r))
    (h : Kept D rel type' (.two type' l r, count) s) :
    Kept D rel type (e, count) (e.put p s.1, s.2) := by
  have hne : type' ≠ type := by
    have := hp.isTwo_leaf hx
    rintro rfl
    simp [Expr.isTwo] at this
  obtain ⟨l', r', hs, -, -⟩ := Expr.isTwo_of_spine_node (h.spine.trans (Expr.spine_two type' l r))
  have hleaf : s.1.spine type = .leaf := by
    rw [hs]
    exact Expr.spine_of_not (by simp [Expr.isTwo, hne])
  have hcost : s.1.cost type ≤ (Expr.two type' l r).cost type := by
    have h1 := h.spine
    have h2 := h.cost
    rw [hs] at h1 h2 ⊢
    rw [Expr.cost_list hne, Expr.cost_list hne, h1]
    exact Nat.add_le_add_left h2 _
  have hmass := hp.mass_put hx s.1
  constructor
  · exact hp.spine_put hleaf
  · exact hp.cost_put_le (Nat.le_refl _) (hcost.trans (hp.cost_le hx))
  · intro V hV
    obtain ⟨c, hc⟩ := hp.value_put D V
    have he := hc (.two type' l r)
    rw [Expr.put_self hx] at he
    change rel (e.value D V) _
    rw [he, hc]
    exact hr.value type c (h.value V hV)
  · exact fun hn => hp.notSymbol_put hn (h.nots (hp.notSymbol hx hn))
  · have := h.mass
    simp only at hmass this ⊢
    omega
  · exact h.count
  · intro hc
    change e.put p s.1 = e
    rw [h.same hc]
    exact Expr.put_self hx
  · intro hn hc
    have := h.less (hp.noYn hx hn) hc
    simp only at hmass this ⊢
    omega

omit [DecidableEq σ] in
theorem within_spec (count : Nat) (hr : Congruence rel)
    {walk : Junction → Path → Path → Expr σ × Nat → Option (Expr σ × Nat)}
    (hp : OnSpine type e p .leaf)
    (hwalk : ∀ type' l r, e.get p = some (.two type' l r) →
      ∃ t, walk type' [] [] (.two type' l r, count) = some t ∧
        Kept D rel type' (.two type' l r, count) t) :
    ∃ s, within walk p (e, count) = some s ∧ Kept D rel type (e, count) s := by
  obtain ⟨x, hx, -⟩ := hp.get
  cases x with
  | two type' l r =>
    obtain ⟨t, ht, hk⟩ := hwalk type' l r hx
    refine ⟨(e.put p t.1, t.2), ?_, .put hr hp hx hk⟩
    simp only [within, hx, ht, Option.map_some]
  | _ => exact ⟨(e, count), by simp only [within, hx], .refl hr _⟩

theorem joinAt_spec (count : Nat) (hp : OnSpine type e p .leaf) (hq : OnSpine type e q .leaf)
    (hne : p ≠ q) :
    ∃ s, joinAt D type p q (e, count) = some s ∧ Kept D Eq type (e, count) s := by
  obtain ⟨e1, h1, hs1⟩ := hp.get
  obtain ⟨e2, h2, hs2⟩ := hq.get
  have hj : joinAt D type p q (e, count) =
      match exprJoin D type e1 e2 with
      | some tmp => some ((e.put p (.symbol type.neutral)).put q tmp, count + 1)
      | none => some (e, count) := by
    simp only [joinAt, h1, h2]
    rfl
  cases ht : exprJoin D type e1 e2 with
  | none =>
    rw [ht] at hj
    exact ⟨_, hj, .refl congruence_eq _⟩
  | some tmp =>
    rw [ht] at hj
    refine ⟨_, hj, ?_⟩
    have hneutral : (Expr.symbol (σ := σ) type.neutral).spine type = .leaf := rfl
    have hspine1 := hp.spine_put hneutral
    have hq' : OnSpine type (e.put p (.symbol type.neutral)) q .leaf := hq.congr hspine1
    have h2' : (e.put p (.symbol type.neutral)).get q = some e2 := by
      rw [hp.get_put_ne hq hne]
      exact h2
    have htmp : tmp.spine type = .leaf ∧ tmp.cost type ≤ e.cost type := by
      rcases exprJoin_cases type ht with rfl | ⟨⟨_, rfl⟩ | ⟨_, _, _, rfl⟩, -⟩
      · exact ⟨hs1, hp.cost_le h1⟩
      · exact ⟨rfl, Nat.zero_le _⟩
      · exact ⟨rfl, Nat.zero_le _⟩
    have hm1 := hp.mass_put h1 (.symbol type.neutral)
    have hm2 := hq'.mass_put h2' tmp
    have hm0 : (Expr.symbol (σ := σ) type.neutral).mass = 0 := by cases type <;> rfl
    constructor
    · exact (hq'.spine_put htmp.1).trans hspine1
    · exact hq'.cost_put_le (hp.cost_put_le (Nat.le_refl _) (Nat.zero_le _)) htmp.2
    · intro V hV
      obtain ⟨c, hc⟩ := hp.value_put_put D V hq hne
      have he := hc e1 e2
      rw [Expr.put_self h1, Expr.put_self h2] at he
      change e.value D V = ((e.put p (.symbol type.neutral)).put q tmp).value D V
      rw [he, hc, exprJoin_value hV type ht, Expr.value, Junction.tri_neutral,
        Junction.unit_value]
    · intro hn
      have htmp' : NotSymbol tmp := by
        rcases exprJoin_cases type ht with rfl | ⟨⟨_, rfl⟩ | ⟨_, _, _, rfl⟩, -⟩
        · exact hp.notSymbol h1 hn
        · trivial
        · trivial
      exact hq'.notSymbol_put (hp.notSymbol_put hn trivial) htmp'
    · have := exprJoin_mass_le type ht
      simp only
      omega
    · exact Nat.le_succ _
    · intro hc
      exact absurd hc (Nat.succ_ne_self _)
    · intro hn _
      have hp0 := hp.ne_nil_of_ne hq hne
      have hq0 := hq.ne_nil_of_ne hp hne.symm
      obtain ⟨hy1, hn1⟩ := hp.noYn_operand hp0 h1 hn
      obtain ⟨hy2, hn2⟩ := hq.noYn_operand hq0 h2 hn
      have := exprJoin_mass_lt type ht ((hp.noYn h1 hn).mass_pos hy1 hn1)
        ((hq.noYn h2 hn).mass_pos hy2 hn2)
      simp only
      omega

/-! ### The first walk -/

section Equations

variable {e1 e2 : Expr σ} (n : Nat)

theorem eliminateDups1_left (h1 : s.1.get p = some e1) (h2 : s.1.get q = some e2)
    (ht : e1.isTwo type = true) :
    eliminateDups1 D (n + 1) type p q s =
      (eliminateDups1 D n type (p ++ [.left]) q s).bind
        (eliminateDups1 D n type (p ++ [.right]) q) := by
  rw [eliminateDups1, h1, h2]
  change (if _ then _ else _) = _
  rw [if_pos ht]
  rfl

theorem eliminateDups1_right (h1 : s.1.get p = some e1) (h2 : s.1.get q = some e2)
    (ht : e1.isTwo type = false) (ht' : e2.isTwo type = true) :
    eliminateDups1 D (n + 1) type p q s =
      (eliminateDups1 D n type p (q ++ [.left]) s).bind
        (eliminateDups1 D n type p (q ++ [.right])) := by
  rw [eliminateDups1, h1, h2]
  change (if _ then _ else if _ then _ else _) = _
  rw [if_neg (by simp [ht]), if_pos ht']
  rfl

theorem eliminateDups1_operands (h1 : s.1.get p = some e1) (h2 : s.1.get q = some e2)
    (ht : e1.isTwo type = false) (ht' : e2.isTwo type = false) :
    eliminateDups1 D (n + 1) type p q s =
      if p = q then some s else (within (eliminateDups1 D n) p s).bind (joinAt D type p q) := by
  rw [eliminateDups1, h1, h2]
  change (if _ then _ else if _ then _ else _) = _
  rw [if_neg (by simp [ht]), if_neg (by simp [ht'])]
  rfl

end Equations

omit [DecidableEq σ] in
/-- The fuel that a nested walk needs is part of the cost of the operand. -/
theorem walkFuel_le {type' : Junction} {l r : Expr σ} (hp : OnSpine type e p .leaf)
    (hx : e.get p = some (.two type' l r)) : walkFuel type' (.two type' l r) ≤ e.cost type := by
  have hne : type' ≠ type := by
    have := hp.isTwo_leaf hx
    rintro rfl
    simp [Expr.isTwo] at this
  have hle := hp.cost_le hx
  rw [Expr.cost_list hne] at hle
  exact hle

/-- The first walk ends, and it keeps the value in every state of the symbols. -/
theorem eliminateDups1_spec (n : Nat) (hp : OnSpine type s.1 p sp) (hq : OnSpine type s.1 q sq)
    (hn : sp.height + sq.height + 1 + s.1.cost type ≤ n) :
    ∃ s', eliminateDups1 D n type p q s = some s' ∧ Kept D Eq type s s' := by
  induction n generalizing type p q s sp sq with
  | zero => omega
  | succ n ih =>
    obtain ⟨e1, h1, hs1⟩ := hp.get
    obtain ⟨e2, h2, hs2⟩ := hq.get
    cases sp with
    | node sl sr =>
      rw [eliminateDups1_left n h1 h2 (Expr.isTwo_of_node hs1)]
      simp only [Spine.height] at hn
      obtain ⟨t, ht, hk⟩ := ih hp.append_left hq (by omega)
      have hc := hk.cost
      obtain ⟨u, hu, hk'⟩ := ih (hk.onSpine hp.append_right) (hk.onSpine hq) (by omega)
      refine ⟨u, ?_, hk.trans congruence_eq hk'⟩
      rw [ht]
      exact hu
    | leaf =>
      have ht1 := Expr.isTwo_of_spine_leaf hs1
      cases sq with
      | node sl sr =>
        rw [eliminateDups1_right n h1 h2 ht1 (Expr.isTwo_of_node hs2)]
        simp only [Spine.height] at hn
        obtain ⟨t, ht, hk⟩ := ih hp hq.append_left (by simp only [Spine.height]; omega)
        have hc := hk.cost
        obtain ⟨u, hu, hk'⟩ := ih (hk.onSpine hp) (hk.onSpine hq.append_right)
          (by simp only [Spine.height]; omega)
        refine ⟨u, ?_, hk.trans congruence_eq hk'⟩
        rw [ht]
        exact hu
      | leaf =>
        rw [eliminateDups1_operands n h1 h2 ht1 (Expr.isTwo_of_spine_leaf hs2)]
        by_cases hpq : p = q
        · rw [if_pos hpq]
          exact ⟨s, rfl, .refl congruence_eq s⟩
        · rw [if_neg hpq]
          have hnested : ∀ type' l r, s.1.get p = some (.two type' l r) →
              ∃ t, eliminateDups1 D n type' [] [] (.two type' l r, s.2) = some t ∧
                Kept D Eq type' (.two type' l r, s.2) t := by
            intro type' l r hx
            have hf := walkFuel_le hp hx
            unfold walkFuel at hf
            exact ih (.nil _) (.nil _) (by simp only [Spine.height] at hn ⊢; omega)
          obtain ⟨t, ht, hk⟩ := within_spec s.2 congruence_eq hp hnested
          obtain ⟨u, hu, hk'⟩ := joinAt_spec (D := D) t.2 (hk.onSpine hp) (hk.onSpine hq) hpq
          refine ⟨u, ?_, hk.trans congruence_eq hk'⟩
          rw [ht]
          exact hu

/-! ### The second walk -/

/-- What `expr_eliminate_dups2` finds: with the rest of the list `c`, the operand `a`, and `d` the
rest beside a part of the list that has the negation of `a` in it. -/
theorem refines_cancel {c a d r : Tristate}
    (h : type.value c a = type.value d (type.value (exprNot a) r)) :
    Refines (type.value c a) type.dual.unit := by
  cases a with
  | no =>
    cases type with
    | or =>
      rw [h]
      exact .inr (by cases d <;> cases r <;> rfl)
    | and => exact .inr (by cases c <;> rfl)
  | mod =>
    cases type with
    | or => cases c <;> first | exact .inl rfl | exact .inr rfl
    | and => cases c <;> first | exact .inl rfl | exact .inr rfl
  | yes =>
    cases type with
    | or => exact .inr (by cases c <;> rfl)
    | and =>
      rw [h]
      exact .inr (by cases d <;> cases r <;> rfl)

theorem cancelAt_list {type' : Junction} {l r e2 : Expr σ}
    (h1 : s.1.get p = some (.two type' l r)) (h2 : s.1.get q = some e2) :
    cancelAt D p q s =
      if (exprExtractEqOf type'.dual (exprTransform D (.not (.two type' l r))) e2).2.1 =
          .symbol type'.dual.neutral then
        some (s.1.put p (.symbol type'.neutral), s.2 + 1)
      else some s := by
  rw [cancelAt, h1, h2]
  cases type' <;> rfl

theorem cancelAt_spec (count : Nat) (hp : OnSpine type e p .leaf) (hq : OnSpine type e q sq) :
    ∃ s, cancelAt D p q (e, count) = some s ∧ Kept D Refines type (e, count) s := by
  obtain ⟨e1, h1, hs1⟩ := hp.get
  obtain ⟨e2, h2, hs2⟩ := hq.get
  have hkept : Kept D Refines type (e, count) (e, count) := .refl congruence_refines _
  cases e1 with
  | two type' l r =>
    have htype : type' = type.dual := by
      have := hp.isTwo_leaf h1
      cases type <;> cases type' <;> first | rfl | cases this
    subst htype
    rw [cancelAt_list h1 h2, Junction.dual_dual]
    split
    next ht =>
      refine ⟨_, rfl, ?_⟩
      have hm := hp.mass_put h1 (.symbol type.dual.neutral)
      have hm0 : (Expr.symbol (σ := σ) type.dual.neutral).mass = 0 := by cases type <;> rfl
      constructor
      · exact hp.spine_put rfl
      · exact hp.cost_put_le (Nat.le_refl _) (Nat.zero_le _)
      · intro V hV
        obtain ⟨c, hc⟩ := hp.value_put D V
        obtain ⟨d, hd⟩ := hq.value_put D V
        have he := hc (.two type.dual l r)
        have he' := hd e2
        rw [Expr.put_self h1] at he
        rw [Expr.put_self h2] at he'
        have hx := exprExtractEqOf_value D V type
          (exprTransform D (.not (.two type.dual l r))) e2
        have hx1 := hx.1
        have hx2 := hx.2
        simp only [values, ht, Expr.value, Junction.tri_neutral, Junction.value_unit] at hx1
        rw [value_exprTransform hV] at hx1
        rw [← hx1] at hx2
        obtain ⟨rest, hrest⟩ : ∃ rest, e2.value D V =
            type.value (exprNot ((Expr.two type.dual l r).value D V)) rest := ⟨_, hx2⟩
        change Refines (e.value D V) _
        rw [hc, Expr.value, Junction.tri_neutral, Junction.value_dual_unit]
        rw [he]
        exact refines_cancel (by rw [← he, he', hrest])
      · exact fun hn => hp.notSymbol_put hn trivial
      · simp only
        omega
      · exact Nat.le_succ _
      · intro hc
        exact absurd hc (Nat.succ_ne_self _)
      · intro hn _
        have := (hp.noYn h1 hn).mass_pos (by simp) (by simp)
        simp only
        omega
    next => exact ⟨_, rfl, hkept⟩
  | _ =>
    refine ⟨(e, count), ?_, hkept⟩
    simp only [cancelAt, h1, h2]
    rfl

section Equations

variable {e1 e2 : Expr σ} (n : Nat)

/-- What follows the walk over the operands of `e2`. -/
def cancelOperand (D : Decls σ) (n : Nat) (p q : Path) (s : Expr σ × Nat) :
    Option (Expr σ × Nat) :=
  if p = q then some s else (within (eliminateDups2 D n) p s).bind (cancelAt D p q)

theorem eliminateDups2_unfold (h1 : s.1.get p = some e1) (h2 : s.1.get q = some e2) :
    eliminateDups2 D (n + 1) type p q s =
      if e1.isTwo type = true then
        (eliminateDups2 D n type (p ++ [.left]) q s).bind
          (eliminateDups2 D n type (p ++ [.right]) q)
      else if e2.isTwo type = true then
        (eliminateDups2 D n type p (q ++ [.left]) s).bind fun s =>
          (eliminateDups2 D n type p (q ++ [.right]) s).bind (cancelOperand D n p q)
      else cancelOperand D n p q s := by
  rw [eliminateDups2, h1, h2]
  rfl

theorem eliminateDups2_left (h1 : s.1.get p = some e1) (h2 : s.1.get q = some e2)
    (ht : e1.isTwo type = true) :
    eliminateDups2 D (n + 1) type p q s =
      (eliminateDups2 D n type (p ++ [.left]) q s).bind
        (eliminateDups2 D n type (p ++ [.right]) q) := by
  rw [eliminateDups2_unfold n h1 h2, if_pos ht]

theorem eliminateDups2_list (h1 : s.1.get p = some e1) (h2 : s.1.get q = some e2)
    (ht : e1.isTwo type = false) (ht' : e2.isTwo type = true) :
    eliminateDups2 D (n + 1) type p q s =
      ((eliminateDups2 D n type p (q ++ [.left]) s).bind
        (eliminateDups2 D n type p (q ++ [.right]))).bind (cancelOperand D n p q) := by
  rw [eliminateDups2_unfold n h1 h2, if_neg (by simp [ht]), if_pos ht', Option.bind_assoc]

theorem eliminateDups2_operands (h1 : s.1.get p = some e1) (h2 : s.1.get q = some e2)
    (ht : e1.isTwo type = false) (ht' : e2.isTwo type = false) :
    eliminateDups2 D (n + 1) type p q s = cancelOperand D n p q s := by
  rw [eliminateDups2_unfold n h1 h2, if_neg (by simp [ht]), if_neg (by simp [ht'])]

end Equations

/-- The end of the second walk, when the nested walks are within the fuel. -/
theorem cancelOperand_spec {n : Nat} (hp : OnSpine type s.1 p .leaf) (hq : OnSpine type s.1 q sq)
    (hn : s.1.cost type ≤ n)
    (hnested : ∀ type' l r, walkFuel type' (.two type' l r) ≤ n →
      ∃ t, eliminateDups2 D n type' [] [] (.two type' l r, s.2) = some t ∧
        Kept D Refines type' (.two type' l r, s.2) t) :
    ∃ s', cancelOperand D n p q s = some s' ∧ Kept D Refines type s s' := by
  unfold cancelOperand
  by_cases hpq : p = q
  · rw [if_pos hpq]
    exact ⟨s, rfl, .refl congruence_refines s⟩
  · rw [if_neg hpq]
    obtain ⟨t, ht, hk⟩ := within_spec s.2 congruence_refines hp
      fun type' l r hx => hnested type' l r ((walkFuel_le hp hx).trans hn)
    obtain ⟨u, hu, hk'⟩ := cancelAt_spec (D := D) t.2 (hk.onSpine hp) (hk.onSpine hq)
    refine ⟨u, ?_, hk.trans congruence_refines hk'⟩
    rw [ht]
    exact hu

/-- The second walk ends, and it changes the value only where it was `m`. -/
theorem eliminateDups2_spec (n : Nat) (hp : OnSpine type s.1 p sp) (hq : OnSpine type s.1 q sq)
    (hn : sp.height + sq.height + 1 + s.1.cost type ≤ n) :
    ∃ s', eliminateDups2 D n type p q s = some s' ∧ Kept D Refines type s s' := by
  induction n generalizing type p q s sp sq with
  | zero => omega
  | succ n ih =>
    obtain ⟨e1, h1, hs1⟩ := hp.get
    obtain ⟨e2, h2, hs2⟩ := hq.get
    have hnested (count : Nat) (type' : Junction) (l r : Expr σ)
        (hf : walkFuel type' (.two type' l r) ≤ n) :
        ∃ t, eliminateDups2 D n type' [] [] (.two type' l r, count) = some t ∧
          Kept D Refines type' (.two type' l r, count) t := by
      unfold walkFuel at hf
      exact ih (.nil _) (.nil _) (by simp only; omega)
    cases sp with
    | node sl sr =>
      rw [eliminateDups2_left n h1 h2 (Expr.isTwo_of_node hs1)]
      simp only [Spine.height] at hn
      obtain ⟨t, ht, hk⟩ := ih hp.append_left hq (by omega)
      have hc := hk.cost
      obtain ⟨u, hu, hk'⟩ := ih (hk.onSpine hp.append_right) (hk.onSpine hq) (by omega)
      refine ⟨u, ?_, hk.trans congruence_refines hk'⟩
      rw [ht]
      exact hu
    | leaf =>
      have ht1 := Expr.isTwo_of_spine_leaf hs1
      cases sq with
      | node sl sr =>
        rw [eliminateDups2_list n h1 h2 ht1 (Expr.isTwo_of_node hs2)]
        simp only [Spine.height] at hn
        obtain ⟨t, ht, hk⟩ := ih hp hq.append_left (by simp only [Spine.height]; omega)
        have hc := hk.cost
        obtain ⟨u, hu, hk'⟩ := ih (hk.onSpine hp) (hk.onSpine hq.append_right)
          (by simp only [Spine.height]; omega)
        have hku := hk.trans congruence_refines hk'
        have hc' := hku.cost
        obtain ⟨v, hv, hk''⟩ := cancelOperand_spec (n := n) (hku.onSpine hp) (hku.onSpine hq)
          (by omega) (hnested u.2)
        refine ⟨v, ?_, hku.trans congruence_refines hk''⟩
        rw [ht, Option.bind_some, hu]
        exact hv
      | leaf =>
        rw [eliminateDups2_operands n h1 h2 ht1 (Expr.isTwo_of_spine_leaf hs2)]
        exact cancelOperand_spec hp hq (by omega) (hnested s.2)

/-! ## The loop -/

/-- One pass ends, with the value as it was unless it was `m`, and a pass that does anything to a
tree without operands `y` and `n` makes it smaller. -/
theorem dupsPass_spec (D : Decls σ) (e : Expr σ) :
    ∃ s, dupsPass D e = some s ∧
      (∀ V, Valid D V → Refines (e.value D V) (s.1.value D V)) ∧
      (NotSymbol e → NotSymbol s.1) ∧ s.1.mass ≤ e.mass ∧
      (NoYn e → s.2 ≠ 0 → s.1.mass < e.mass) := by
  cases e with
  | two type l r =>
    have hroot (t : Expr σ × Nat) : OnSpine type t.1 [] (t.1.spine type) := .nil _
    have hfuel (t : Expr σ × Nat) : (t.1.spine type).height + (t.1.spine type).height + 1 +
        t.1.cost type ≤ walkFuel type t.1 := by
      rw [walkFuel]
      omega
    obtain ⟨t, ht, hk⟩ := eliminateDups1_spec (D := D) _ (hroot (.two type l r, 0)) (hroot _)
      (hfuel _)
    obtain ⟨u, hu, hk'⟩ := eliminateDups2_spec (D := D) _ (hroot t) (hroot t) (hfuel t)
    have hk1 : Kept D Refines type (.two type l r, 0) t :=
      { hk with value := fun V hV => .inr (hk.value V hV).symm }
    have hku := hk1.trans congruence_refines hk'
    refine ⟨u, ?_, hku.value, hku.nots, hku.mass, hku.less⟩
    simp only [dupsPass, ht]
    exact hu
  | _ => exact ⟨(_, 0), rfl, fun _ _ => .inr rfl, id, Nat.le_refl _, fun _ h => absurd rfl h⟩

theorem dupsLoop_spec {n : Nat} {e : Expr σ} (hn : e.mass < n) (he : NoYn e ∨ e.mass + 1 < n) :
    ∃ e', dupsLoop D n e = some e' ∧ (NotSymbol e → NotSymbol e') ∧
      ∀ V, Valid D V → Refines (e.value D V) (e'.value D V) := by
  induction n generalizing e with
  | zero => omega
  | succ n ih =>
    obtain ⟨s, hs, hv, hns, hm, hl⟩ := dupsPass_spec D e
    rw [dupsLoop, hs]
    change ∃ e', (if s.2 = 0 then some s.1 else dupsLoop D n (exprEliminateYn s.1)) = some e' ∧ _
    by_cases hc : s.2 = 0
    · rw [if_pos hc]
      exact ⟨s.1, rfl, hns, hv⟩
    · rw [if_neg hc]
      have hmass : (exprEliminateYn s.1).mass < n := by
        have hyn := mass_exprEliminateYn_le s.1
        rcases he with he | he
        · have := hl he hc
          omega
        · omega
      obtain ⟨e', he', hns', hv'⟩ := ih hmass (.inl (noYn_exprEliminateYn s.1))
      refine ⟨e', he', fun hn => hns' (notSymbol_exprEliminateYn (hns hn)), fun V hV => ?_⟩
      have hyn := hv' V hV
      rw [value_exprEliminateYn] at hyn
      exact congruence_refines.trans (hv V hV) hyn

/-- Rounds enough for the loop. -/
theorem dupsLoop_ends (D : Decls σ) (e : Expr σ) :
    ∃ e', dupsLoop D (e.mass + 2) e = some e' ∧ (NotSymbol e → NotSymbol e') ∧
      ∀ V, Valid D V → Refines (e.value D V) (e'.value D V) :=
  dupsLoop_spec (Nat.lt_add_of_pos_right Nat.two_pos) (.inr (Nat.lt_succ_self _))

theorem dupsLoop_isSome (D : Decls σ) (e : Expr σ) : (dupsLoop D (e.mass + 2) e).isSome := by
  obtain ⟨e', he, -⟩ := dupsLoop_ends D e
  rw [he]
  rfl

/-- `expr_eliminate_dups`. -/
def exprEliminateDups (D : Decls σ) (e : Expr σ) : Expr σ :=
  (dupsLoop D (e.mass + 2) e).get (dupsLoop_isSome D e)

theorem exprEliminateDups_spec (D : Decls σ) (e : Expr σ) :
    (NotSymbol e → NotSymbol (exprEliminateDups D e)) ∧
      ∀ V, Valid D V → Refines (e.value D V) ((exprEliminateDups D e).value D V) := by
  obtain ⟨e', he, hs⟩ := dupsLoop_ends D e
  have heq : exprEliminateDups D e = e' := Option.get_of_eq_some _ he
  rwa [heq]

/-- The loop of `expr_eliminate_dups` ends on every expression, and in every state of the symbols
the value of its result is that of the expression, unless that was `m`. -/
theorem exprEliminateDups_refines (D : Decls σ) (e : Expr σ) :
    (∃ n, dupsLoop D n e = some (exprEliminateDups D e)) ∧
      ∀ V, Valid D V →
        e.value D V = .mod ∨ (exprEliminateDups D e).value D V = e.value D V :=
  ⟨⟨_, (Option.some_get _).symm⟩, (exprEliminateDups_spec D e).2⟩

/-- `(FOO || BAR) && (!FOO && !BAR) -> n`, which is `m` when `FOO` and `BAR` are. -/
example :
    let e : Expr Bool := .two .and (.two .or (.symbol (.entry true)) (.symbol (.entry false)))
      (.two .and (.not (.symbol (.entry true))) (.not (.symbol (.entry false))))
    exprEliminateDups fooBar e = .symbol .no ∧
      e.value fooBar fooBarMod = .mod := by
  decide +kernel

end DebianKernel.FwConfig
