import DebianKernel.FwConfig.Expr

/-!
# Comparing and matching expressions

`expr_eq`, `expr_eliminate_eq` and `expr_extract_eq` of `carl9170fw/config/expr.c`.

`expr_eq` compares two operand lists by crossing out equal operands on copies of both, and
`__expr_eliminate_eq` calls `expr_eq` for each pair of operands. Here the walks over the operands
take the comparison as an argument, and `exprEqN` ties the knot by depth: every comparison that a
walk asks for is of a first operand that lies deeper.

Results:
* `exprEq_eq`, the recursion of the source without the depth,
* `exprEq_sound`: expressions found equal have equal values,
* `exprEliminateEq_common`: both sides lose the same parts,
* `exprEliminateEq_le`: what is left decides a comparison of the sides,
* `exprExtractEqOf_sides`: what is extracted is a part of both sides.
-/

namespace DebianKernel.FwConfig

open CommonPart Tristate

variable {σ : Type} [DecidableEq σ]

/-! ## `__expr_eliminate_eq` -/

section Walk

variable (eq : Expr σ → Expr σ → Bool) (type : Junction)

/-- The end of `__expr_eliminate_eq`, when neither side is a `type` node. -/
def eliminateEqOne (e1 e2 : Expr σ) : Expr σ × Expr σ :=
  if e1 = e2 ∧ (e1 = .symbol .yes ∨ e1 = .symbol .no) then (e1, e2)
  else if !eq e1 e2 then (e1, e2)
  else
    match type with
    | .or => (.symbol .no, .symbol .no)
    | .and => (.symbol .yes, .symbol .yes)

/-- `__expr_eliminate_eq` from where `e1` is no `type` node: the walk over the operands of `e2`. -/
def eliminateEqRight (e1 : Expr σ) : Expr σ → Expr σ × Expr σ
  | .two type' left right =>
    if type' = type then
      let (e1, left) := eliminateEqRight e1 left
      let (e1, right) := eliminateEqRight e1 right
      (e1, .two type' left right)
    else eliminateEqOne eq type e1 (.two type' left right)
  | e2 => eliminateEqOne eq type e1 e2

/-- `__expr_eliminate_eq`: the walk over the operands of `e1`. -/
def eliminateEqWalk : Expr σ → Expr σ → Expr σ × Expr σ
  | .two type' left right, e2 =>
    if type' = type then
      let (left, e2) := eliminateEqWalk left e2
      let (right, e2) := eliminateEqWalk right e2
      (.two type' left right, e2)
    else eliminateEqRight eq type (.two type' left right) e2
  | e1, e2 => eliminateEqRight eq type e1 e2

theorem eliminateEqOne_cases (e1 e2 : Expr σ) :
    eliminateEqOne eq type e1 e2 = (e1, e2) ∨
    (eq e1 e2 = true ∧
      eliminateEqOne eq type e1 e2 = (.symbol type.neutral, .symbol type.neutral)) := by
  unfold eliminateEqOne
  split_ifs with h1 h2
  · exact .inl rfl
  · exact .inl rfl
  · refine .inr ⟨by simpa using h2, ?_⟩
    cases type <;> rfl

variable {eq type}

theorem eliminateEqRight_two (e1 l r : Expr σ) :
    eliminateEqRight eq type e1 (.two type l r) =
      ((eliminateEqRight eq type (eliminateEqRight eq type e1 l).1 r).1,
        .two type (eliminateEqRight eq type e1 l).2
          (eliminateEqRight eq type (eliminateEqRight eq type e1 l).1 r).2) := by
  rw [eliminateEqRight, if_pos rfl]

theorem eliminateEqRight_of_not {e2 : Expr σ} (h : e2.isTwo type = false) (e1 : Expr σ) :
    eliminateEqRight eq type e1 e2 = eliminateEqOne eq type e1 e2 := by
  cases e2 with
  | two type' l r =>
    rw [eliminateEqRight, if_neg]
    rintro rfl
    simp [Expr.isTwo] at h
  | _ => rfl

theorem eliminateEqWalk_two (l r e2 : Expr σ) :
    eliminateEqWalk eq type (.two type l r) e2 =
      (.two type (eliminateEqWalk eq type l e2).1
          (eliminateEqWalk eq type r (eliminateEqWalk eq type l e2).2).1,
        (eliminateEqWalk eq type r (eliminateEqWalk eq type l e2).2).2) := by
  rw [eliminateEqWalk, if_pos rfl]

theorem eliminateEqWalk_of_not {e1 : Expr σ} (h : e1.isTwo type = false) (e2 : Expr σ) :
    eliminateEqWalk eq type e1 e2 = eliminateEqRight eq type e1 e2 := by
  cases e1 with
  | two type' l r =>
    rw [eliminateEqWalk, if_neg]
    rintro rfl
    simp [Expr.isTwo] at h
  | _ => rfl

theorem isTwo_eliminateEqRight {e1 : Expr σ} (h : e1.isTwo type = false) (e2 : Expr σ) :
    (eliminateEqRight eq type e1 e2).1.isTwo type = false := by
  induction e2 using Expr.operands_induction type generalizing e1 with
  | two l r ihl ihr =>
    rw [eliminateEqRight_two]
    exact ihr (ihl h)
  | one e2 he =>
    rw [eliminateEqRight_of_not he]
    rcases eliminateEqOne_cases eq type e1 e2 with hc | ⟨-, hc⟩
    · rw [hc]
      exact h
    · rw [hc]
      rfl

/-- The second branch of `__expr_eliminate_eq` as the source has it. -/
theorem eliminateEqWalk_right {e1 : Expr σ} (h : e1.isTwo type = false) (l r : Expr σ) :
    eliminateEqWalk eq type e1 (.two type l r) =
      let p := eliminateEqWalk eq type e1 l
      let q := eliminateEqWalk eq type p.1 r
      (q.1, .two type p.2 q.2) := by
  rw [eliminateEqWalk_of_not h, eliminateEqRight_two, eliminateEqWalk_of_not h]
  simp only
  rw [eliminateEqWalk_of_not (isTwo_eliminateEqRight h l)]

/-! ### What a walk does to the values -/

variable (D : Decls σ) (V : Values σ)

/-- A comparison that answers yes for expressions of equal value only. -/
def SoundEq (eq : Expr σ → Expr σ → Bool) : Prop :=
  ∀ e1 e2, eq e1 e2 = true → ∀ (D : Decls σ) (V : Values σ), e1.value D V = e2.value D V

def values (p : Expr σ × Expr σ) : Tristate × Tristate :=
  (p.1.value D V, p.2.value D V)

variable {D V}

omit [DecidableEq σ] in
/-- Walking on over the next operand of the right side. -/
theorem loses_right {x y z : Expr σ} {p q : Expr σ × Expr σ} {c d : Tristate}
    (hp : Loses type.value c (values D V (x, y)) (values D V p))
    (hq : Loses type.value d (values D V (p.1, z)) (values D V q)) :
    Loses type.value (type.value c d) (values D V (x, .two type y z))
      (values D V (q.1, .two type p.2 q.2)) := by
  have h1 : Loses type.value c (x.value D V, type.value (y.value D V) (z.value D V))
      (p.1.value D V, type.value (p.2.value D V) (z.value D V)) := by
    rw [Junction.value_comm (y.value D V), Junction.value_comm (p.2.value D V)]
    exact Loses.add_right (z.value D V) hp
  exact h1.trans (Loses.add_right (p.2.value D V) hq)

omit [DecidableEq σ] in
/-- Walking on over the next operand of the left side. -/
theorem loses_left {x y z : Expr σ} {p q : Expr σ × Expr σ} {c d : Tristate}
    (hp : Loses type.value c (values D V (x, y)) (values D V p))
    (hq : Loses type.value d (values D V (z, p.2)) (values D V q)) :
    Loses type.value (type.value c d) (values D V (.two type x z, y))
      (values D V (.two type p.1 q.1, q.2)) := by
  have h1 : Loses type.value c (type.value (x.value D V) (z.value D V), y.value D V)
      (type.value (p.1.value D V) (z.value D V), p.2.value D V) := by
    rw [Junction.value_comm (x.value D V), Junction.value_comm (p.1.value D V)]
    exact Loses.add_left (z.value D V) hp
  exact h1.trans (Loses.add_left (p.1.value D V) hq)

theorem eliminateEqOne_loses (hs : SoundEq eq) (e1 e2 : Expr σ) :
    ∃ c, Loses type.value c (values D V (e1, e2))
      (values D V (eliminateEqOne eq type e1 e2)) := by
  rcases eliminateEqOne_cases eq type e1 e2 with h | ⟨he, h⟩
  · rw [h]
    exact ⟨_, Loses.refl type.unit _⟩
  · rw [h]
    refine ⟨e1.value D V, ?_⟩
    have hv := hs e1 e2 he D V
    simp only [values, Expr.value, Junction.tri_neutral, ← hv]
    exact Loses.all type.unit _

theorem eliminateEqRight_loses (hs : SoundEq eq) (e1 e2 : Expr σ) :
    ∃ c, Loses type.value c (values D V (e1, e2))
      (values D V (eliminateEqRight eq type e1 e2)) := by
  induction e2 using Expr.operands_induction type generalizing e1 with
  | two l r ihl ihr =>
    rw [eliminateEqRight_two]
    obtain ⟨c, hc⟩ := ihl e1
    obtain ⟨d, hd⟩ := ihr (eliminateEqRight eq type e1 l).1
    exact ⟨_, loses_right hc hd⟩
  | one e2 he =>
    rw [eliminateEqRight_of_not he]
    exact eliminateEqOne_loses hs e1 e2

theorem eliminateEqWalk_loses (hs : SoundEq eq) (e1 e2 : Expr σ) :
    ∃ c, Loses type.value c (values D V (e1, e2))
      (values D V (eliminateEqWalk eq type e1 e2)) := by
  induction e1 using Expr.operands_induction type generalizing e2 with
  | two l r ihl ihr =>
    rw [eliminateEqWalk_two]
    obtain ⟨c, hc⟩ := ihl e2
    obtain ⟨d, hd⟩ := ihr (eliminateEqWalk eq type l e2).2
    exact ⟨_, loses_left hc hd⟩
  | one e1 he =>
    rw [eliminateEqWalk_of_not he]
    exact eliminateEqRight_loses hs e1 e2

end Walk

/-! ## `expr_eq` -/

/-- The first `switch` of `expr_eliminate_eq`. -/
def eliminateEqFst (eq : Expr σ → Expr σ → Bool) (e1 e2 : Expr σ) : Expr σ × Expr σ :=
  match e1 with
  | .two type _ _ => eliminateEqWalk eq type e1 e2
  | _ => (e1, e2)

/-- The second `switch`, for sides of different types. -/
def eliminateEqSnd (eq : Expr σ → Expr σ → Bool) (e1 e2 : Expr σ) : Expr σ × Expr σ :=
  if e1.type ≠ e2.type then
    match e2 with
    | .two type _ _ => eliminateEqWalk eq type e1 e2
    | _ => (e1, e2)
  else (e1, e2)

/-- `expr_eliminate_eq`. -/
def exprEliminateEqBy (eq : Expr σ → Expr σ → Bool) (e1 e2 : Expr σ) : Expr σ × Expr σ :=
  let p := eliminateEqFst eq e1 e2
  let q := eliminateEqSnd eq p.1 p.2
  (exprEliminateYn q.1, exprEliminateYn q.2)

/-- `expr_eq`, for expressions of less than the given depth on the left. -/
def exprEqN : Nat → Expr σ → Expr σ → Bool
  | 0, _, _ => false
  | n + 1, e1, e2 =>
    match e1, e2 with
    | .comp type s1 s2, .comp type' t1 t2 => type = type' ∧ s1 = t1 ∧ s2 = t2
    | .symbol s, .symbol t => s = t
    | .not e1, .not e2 => exprEqN n e1 e2
    | .two type l r, .two type' l' r' =>
      decide (type = type') &&
        match exprEliminateEqBy (exprEqN n) (.two type l r) (.two type' l' r') with
        | (.symbol s, .symbol t) => decide (s = t)
        | _ => false
    | _, _ => false

/-- Number of nodes above the lowest leaf. -/
def Expr.depth : Expr σ → Nat
  | symbol _ => 0
  | comp _ _ _ => 0
  | not left => left.depth + 1
  | two _ left right => max left.depth right.depth + 1

/-- `expr_eq`. -/
def exprEq (e1 e2 : Expr σ) : Bool :=
  exprEqN (e1.depth + 1) e1 e2

/-- `expr_eliminate_eq`. -/
def exprEliminateEq (e1 e2 : Expr σ) : Expr σ × Expr σ :=
  exprEliminateEqBy exprEq e1 e2

/-! ### The depth is enough -/

section Agree

variable {eq eq' : Expr σ → Expr σ → Bool} {type : Junction} {k : Nat}

/-- Two comparisons agree on first operands up to a depth. -/
def AgreeTo (k : Nat) (eq eq' : Expr σ → Expr σ → Bool) : Prop :=
  ∀ e1 e2 : Expr σ, e1.depth ≤ k → eq e1 e2 = eq' e1 e2

theorem AgreeTo.one (h : AgreeTo k eq eq') {e1 : Expr σ} (h1 : e1.depth ≤ k) (e2 : Expr σ) :
    eliminateEqOne eq type e1 e2 = eliminateEqOne eq' type e1 e2 := by
  unfold eliminateEqOne
  rw [h e1 e2 h1]

theorem AgreeTo.right (h : AgreeTo k eq eq') {e1 : Expr σ} (h1 : e1.depth ≤ k) (e2 : Expr σ) :
    eliminateEqRight eq type e1 e2 = eliminateEqRight eq' type e1 e2 ∧
      (eliminateEqRight eq type e1 e2).1.depth ≤ k := by
  induction e2 using Expr.operands_induction type generalizing e1 with
  | two l r ihl ihr =>
    obtain ⟨hl, hd⟩ := ihl h1
    obtain ⟨hr, hd'⟩ := ihr hd
    rw [eliminateEqRight_two, eliminateEqRight_two, ← hl, ← hr]
    exact ⟨rfl, hd'⟩
  | one e2 he =>
    rw [eliminateEqRight_of_not he, eliminateEqRight_of_not he, ← h.one h1]
    refine ⟨rfl, ?_⟩
    rcases eliminateEqOne_cases eq type e1 e2 with hc | ⟨-, hc⟩
    · rw [hc]
      exact h1
    · rw [hc]
      exact Nat.zero_le k

theorem AgreeTo.walk (h : AgreeTo k eq eq') {e1 : Expr σ} (h1 : e1.depth ≤ k) (e2 : Expr σ) :
    eliminateEqWalk eq type e1 e2 = eliminateEqWalk eq' type e1 e2 := by
  induction e1 using Expr.operands_induction type generalizing e2 with
  | two l r ihl ihr =>
    have hl : l.depth ≤ k := by simp only [Expr.depth] at h1; omega
    have hr : r.depth ≤ k := by simp only [Expr.depth] at h1; omega
    rw [eliminateEqWalk_two, eliminateEqWalk_two, ← ihl hl e2,
      ← ihr hr (eliminateEqWalk eq type l e2).2]
  | one e1 he =>
    rw [eliminateEqWalk_of_not he, eliminateEqWalk_of_not he]
    exact (h.right h1 e2).1

/-- The operands of a list lie deeper than the list. -/
theorem AgreeTo.walk_two {l r : Expr σ} (h : AgreeTo k eq eq')
    (h1 : (Expr.two type l r).depth ≤ k + 1) (e2 : Expr σ) :
    eliminateEqWalk eq type (.two type l r) e2 = eliminateEqWalk eq' type (.two type l r) e2 := by
  have hl : l.depth ≤ k := by simp only [Expr.depth] at h1; omega
  have hr : r.depth ≤ k := by simp only [Expr.depth] at h1; omega
  rw [eliminateEqWalk_two, eliminateEqWalk_two, ← h.walk hl e2,
    ← h.walk hr (eliminateEqWalk eq type l e2).2]

end Agree

theorem eliminateEqRight_snd (eq : Expr σ → Expr σ → Bool) (type : Junction) (e1 l r : Expr σ) :
    ∃ l' r', (eliminateEqRight eq type e1 (.two type l r)).2 = .two type l' r' := by
  rw [eliminateEqRight_two]
  exact ⟨_, _, rfl⟩

theorem eliminateEqWalk_snd (eq : Expr σ → Expr σ → Bool) (type : Junction) (e1 l r : Expr σ) :
    ∃ l' r', (eliminateEqWalk eq type e1 (.two type l r)).2 = .two type l' r' := by
  induction e1 using Expr.operands_induction type generalizing l r with
  | two l1 r1 ihl ihr =>
    rw [eliminateEqWalk_two]
    obtain ⟨l', r', h⟩ := ihl l r
    rw [h]
    exact ihr l' r'
  | one e1 he =>
    rw [eliminateEqWalk_of_not he]
    exact eliminateEqRight_snd eq type e1 l r

/-- Two lists of one type are walked once. -/
theorem exprEliminateEqBy_two (eq : Expr σ → Expr σ → Bool) (type : Junction)
    (l r l' r' : Expr σ) :
    exprEliminateEqBy eq (.two type l r) (.two type l' r') =
      let p := eliminateEqWalk eq type (.two type l r) (.two type l' r')
      (exprEliminateYn p.1, exprEliminateYn p.2) := by
  have hsnd := eliminateEqWalk_snd eq type (.two type l r) l' r'
  have hfst : (eliminateEqWalk eq type (.two type l r) (.two type l' r')).1.type =
      type.exprType := by
    rw [eliminateEqWalk_two]
    rfl
  obtain ⟨l2, r2, h2⟩ := hsnd
  have hne : eliminateEqSnd eq (eliminateEqWalk eq type (.two type l r) (.two type l' r')).1
      (eliminateEqWalk eq type (.two type l r) (.two type l' r')).2 =
        eliminateEqWalk eq type (.two type l r) (.two type l' r') := by
    unfold eliminateEqSnd
    exact if_neg (by rw [hfst, h2]; simp [Expr.type])
  simp only [exprEliminateEqBy, eliminateEqFst]
  rw [hne]

theorem exprEqN_agree {n m : Nat} {e1 : Expr σ} (hn : e1.depth < n) (hm : e1.depth < m)
    (e2 : Expr σ) : exprEqN n e1 e2 = exprEqN m e1 e2 := by
  induction n generalizing m e1 e2 with
  | zero => omega
  | succ n ih =>
    obtain _ | m := m
    · omega
    cases e1 with
    | symbol s => cases e2 <;> rfl
    | comp type s t => cases e2 <;> rfl
    | not e1 =>
      cases e2 with
      | not e2 =>
        simp only [Expr.depth] at hn hm
        exact ih (by omega) (by omega) e2
      | _ => rfl
    | two type l r =>
      cases e2 with
      | two type' l' r' =>
        by_cases ht : type = type'
        · subst ht
          have hk : AgreeTo (max l.depth r.depth) (exprEqN (σ := σ) n) (exprEqN m) := by
            intro x y hx
            simp only [Expr.depth] at hn hm
            exact ih (by omega) (by omega) y
          simp only [exprEqN, exprEliminateEqBy_two]
          rw [hk.walk_two (by simp [Expr.depth])]
        · simp [exprEqN, ht]
      | _ => rfl

theorem exprEqN_eq {n : Nat} {e1 : Expr σ} (hn : e1.depth < n) (e2 : Expr σ) :
    exprEqN n e1 e2 = exprEq e1 e2 :=
  exprEqN_agree hn (Nat.lt_succ_self _) e2

theorem exprEq_not (e1 e2 : Expr σ) : exprEq (.not e1) (.not e2) = exprEq e1 e2 :=
  exprEqN_eq (Nat.lt_succ_self _) e2

/-- The recursion of `expr_eq` through `expr_eliminate_eq`, without the depth. -/
theorem exprEq_two (type : Junction) (l r l' r' : Expr σ) :
    exprEq (.two type l r) (.two type l' r') =
      match exprEliminateEq (.two type l r) (.two type l' r') with
      | (.symbol s, .symbol t) => decide (s = t)
      | _ => false := by
  have hk : AgreeTo (max l.depth r.depth) (exprEqN (max l.depth r.depth + 1))
      (exprEq (σ := σ)) := by
    intro x y hx
    exact exprEqN_eq (by omega) y
  rw [exprEq, Expr.depth, exprEqN, exprEliminateEq, exprEliminateEqBy_two, exprEliminateEqBy_two,
    hk.walk_two (by simp [Expr.depth]), decide_eq_true rfl, Bool.true_and]

/-- `expr_eq` as the source has it. -/
theorem exprEq_eq (e1 e2 : Expr σ) :
    exprEq e1 e2 =
      match e1, e2 with
      | .comp type s1 s2, .comp type' t1 t2 => decide (type = type' ∧ s1 = t1 ∧ s2 = t2)
      | .symbol s, .symbol t => decide (s = t)
      | .not l, .not r => exprEq l r
      | .two type l r, .two type' l' r' =>
        decide (type = type') &&
          match exprEliminateEq (.two type l r) (.two type' l' r') with
          | (.symbol s, .symbol t) => decide (s = t)
          | _ => false
      | _, _ => false := by
  cases e1 with
  | symbol s => cases e2 <;> rfl
  | comp type s1 s2 => cases e2 <;> rfl
  | not l =>
    cases e2 with
    | not r => exact exprEq_not l r
    | _ => rfl
  | two type l r =>
    cases e2 with
    | two type' l' r' =>
      by_cases h : type = type'
      · subst h
        rw [exprEq_two]
        simp only [decide_true, Bool.true_and]
      · simp [exprEq, exprEqN, h]
    | _ => rfl

/-! ### What is found equal has one value -/

theorem exprEliminateEqBy_two_loses {eq : Expr σ → Expr σ → Bool} (hs : SoundEq eq)
    (type : Junction) (l r l' r' : Expr σ) (D : Decls σ) (V : Values σ) :
    ∃ c, Loses type.value c (values D V (.two type l r, .two type l' r'))
      (values D V (exprEliminateEqBy eq (.two type l r) (.two type l' r'))) := by
  rw [exprEliminateEqBy_two]
  obtain ⟨c, hc⟩ : ∃ c, Loses type.value c (values D V (.two type l r, .two type l' r'))
      (values D V (eliminateEqWalk eq type (.two type l r) (.two type l' r'))) :=
    eliminateEqWalk_loses hs _ _
  refine ⟨c, ?_⟩
  simpa [values, value_exprEliminateYn] using hc

theorem exprEqN_sound (n : Nat) : SoundEq (exprEqN (σ := σ) n) := by
  induction n with
  | zero =>
    intro e1 e2 h
    cases h
  | succ n ih =>
    intro e1 e2 h D V
    cases e1 with
    | symbol s =>
      cases e2 with
      | symbol t => rw [of_decide_eq_true h]
      | _ => cases h
    | comp type s t =>
      cases e2 with
      | comp type' s' t' =>
        obtain ⟨rfl, rfl, rfl⟩ := of_decide_eq_true h
        rfl
      | _ => cases h
    | not e1 =>
      cases e2 with
      | not e2 => rw [Expr.value, Expr.value, ih e1 e2 h D V]
      | _ => cases h
    | two type l r =>
      cases e2 with
      | two type' l' r' =>
        simp only [exprEqN, Bool.and_eq_true, decide_eq_true_eq] at h
        obtain ⟨rfl, h⟩ := h
        obtain ⟨c, hc⟩ := exprEliminateEqBy_two_loses ih type l r l' r' D V
        split at h
        next s t hst =>
          rw [hst, decide_eq_true_eq.mp h] at hc
          exact hc.eq_of_eq rfl
        next => cases h
      | _ => cases h

theorem soundEq_exprEq : SoundEq (exprEq (σ := σ)) := fun e1 e2 => exprEqN_sound _ e1 e2

/-- Expressions that `expr_eq` finds equal have one value in every state of the symbols. -/
theorem exprEq_sound {e1 e2 : Expr σ} (h : exprEq e1 e2 = true) (D : Decls σ) (V : Values σ) :
    e1.value D V = e2.value D V :=
  soundEq_exprEq e1 e2 h D V

/-- The operands of `&&` may come in any order. -/
theorem exprEq_sound_fooBar :
    (Expr.two .and (.symbol (.entry true)) (.symbol (.entry false))).value fooBar fooBarMod =
      (Expr.two .and (.symbol (.entry false)) (.symbol (.entry true))).value fooBar fooBarMod :=
  exprEq_sound (by decide) fooBar fooBarMod

/-! ## `expr_eliminate_eq` -/

/-- What two values lose to a walk over `E_OR` and one over `E_AND`. -/
def LosesBoth (old new : Tristate × Tristate) : Prop :=
  ∃ c d, old.1 = exprOr c (exprAnd d new.1) ∧ old.2 = exprOr c (exprAnd d new.2)

theorem LosesBoth.refl (p : Tristate × Tristate) : LosesBoth p p := by
  refine ⟨.no, .yes, ?_, ?_⟩
  · cases p.1 <;> rfl
  · cases p.2 <;> rfl

theorem exprOr_exprOr_exprAnd (e c d x : Tristate) :
    exprOr e (exprOr c (exprAnd d x)) = exprOr (exprOr e c) (exprAnd d x) :=
  (@Junction.value_assoc .or e c _).symm

theorem exprAnd_exprOr_exprAnd (e c d x : Tristate) :
    exprAnd e (exprOr c (exprAnd d x)) = exprOr (exprAnd e c) (exprAnd (exprAnd e d) x) := by
  cases e <;> cases c <;> cases d <;> cases x <;> rfl

theorem LosesBoth.cons {type : Junction} {e : Tristate} {p q r : Tristate × Tristate}
    (h : Loses type.value e p q) (h' : LosesBoth q r) : LosesBoth p r := by
  obtain ⟨c, d, h1, h2⟩ := h'
  cases type with
  | or =>
    refine ⟨exprOr e c, d, ?_, ?_⟩
    · rw [h.1, h1]
      exact exprOr_exprOr_exprAnd e c d _
    · rw [h.2, h2]
      exact exprOr_exprOr_exprAnd e c d _
  | and =>
    refine ⟨exprAnd e c, exprAnd e d, ?_, ?_⟩
    · rw [h.1, h1]
      exact exprAnd_exprOr_exprAnd e c d _
    · rw [h.2, h2]
      exact exprAnd_exprOr_exprAnd e c d _

theorem LosesBoth.le_of_le {p q : Tristate × Tristate} (h : LosesBoth p q) (hq : q.1 ≤ q.2) :
    p.1 ≤ p.2 := by
  obtain ⟨c, d, h1, h2⟩ := h
  rw [h1, h2]
  exact @Junction.value_mono .or _ _ c (@Junction.value_mono .and _ _ d hq)

/-- One of the two walks of `expr_eliminate_eq`, chosen by the type of one side. -/
theorem eliminateEqWalk_losesBoth {D : Decls σ} {V : Values σ} (type : Junction) (e1 e2 : Expr σ)
    {p : Tristate × Tristate}
    (h : LosesBoth (values D V (eliminateEqWalk exprEq type e1 e2)) p) :
    LosesBoth (values D V (e1, e2)) p := by
  obtain ⟨c, hc⟩ : ∃ c, Loses type.value c (values D V (e1, e2))
      (values D V (eliminateEqWalk exprEq type e1 e2)) := eliminateEqWalk_loses soundEq_exprEq e1 e2
  exact .cons hc h

theorem eliminateEqFst_losesBoth {D : Decls σ} {V : Values σ} {e1 e2 : Expr σ}
    {p : Tristate × Tristate} (h : LosesBoth (values D V (eliminateEqFst exprEq e1 e2)) p) :
    LosesBoth (values D V (e1, e2)) p := by
  cases e1 with
  | two type l r => exact eliminateEqWalk_losesBoth type _ e2 h
  | _ => exact h

theorem eliminateEqSnd_losesBoth {D : Decls σ} {V : Values σ} {e1 e2 : Expr σ}
    {p : Tristate × Tristate} (h : LosesBoth (values D V (eliminateEqSnd exprEq e1 e2)) p) :
    LosesBoth (values D V (e1, e2)) p := by
  unfold eliminateEqSnd at h
  by_cases ht : e1.type ≠ e2.type
  · rw [if_pos ht] at h
    cases e2 with
    | two type l r => exact eliminateEqWalk_losesBoth type e1 _ h
    | _ => exact h
  · rwa [if_neg ht] at h

/-- Whatever `expr_eliminate_eq` takes out of the one side it takes out of the other. -/
theorem exprEliminateEq_common (D : Decls σ) (V : Values σ) (e1 e2 : Expr σ) :
    LosesBoth (values D V (e1, e2)) (values D V (exprEliminateEq e1 e2)) := by
  apply eliminateEqFst_losesBoth
  apply eliminateEqSnd_losesBoth
  simp only [exprEliminateEq, exprEliminateEqBy, values, value_exprEliminateYn]
  exact .refl _

/-- The comparison of what is left decides the comparison of the whole. -/
theorem exprEliminateEq_le {D : Decls σ} {V : Values σ} {e1 e2 : Expr σ}
    (h : (exprEliminateEq e1 e2).1.value D V ≤ (exprEliminateEq e1 e2).2.value D V) :
    e1.value D V ≤ e2.value D V :=
  (exprEliminateEq_common D V e1 e2).le_of_le h

/-- `FOO && BAR` and `FOO`. -/
theorem exprEliminateEq_le_fooBar :
    exprEliminateEq (.two .and (.symbol (.entry true)) (.symbol (.entry false)))
        (.symbol (.entry true)) = (.symbol (.entry false), .symbol .yes) ∧
      (Expr.two .and (.symbol (.entry true)) (.symbol (.entry false))).value fooBar fooBarMod ≤
        (Expr.symbol (.entry true)).value fooBar fooBarMod :=
  ⟨by decide, exprEliminateEq_le (by decide)⟩

/-! ## `expr_extract_eq` -/

section Extract

variable (type : Junction)

/-- `*ep ? expr_alloc_two(type, *ep, e1) : e1`. -/
def extend (ep : Option (Expr σ)) (e1 : Expr σ) : Expr σ :=
  match ep with
  | some ep => .two type ep e1
  | none => e1

/-- The end of `expr_extract_eq`, when neither side is a `type` node. -/
def extractEqOne (ep : Option (Expr σ)) (e1 e2 : Expr σ) : Option (Expr σ) × Expr σ × Expr σ :=
  if exprEq e1 e2 then
    match type with
    | .and => (some (extend type ep e1), .symbol .yes, .symbol .yes)
    | .or => (some (extend type ep e1), .symbol .no, .symbol .no)
  else (ep, e1, e2)

/-- `expr_extract_eq` from where `e1` is no `type` node. -/
def extractEqRight (ep : Option (Expr σ)) (e1 : Expr σ) :
    Expr σ → Option (Expr σ) × Expr σ × Expr σ
  | .two type' left right =>
    if type' = type then
      let (ep, e1, left) := extractEqRight ep e1 left
      let (ep, e1, right) := extractEqRight ep e1 right
      (ep, e1, .two type' left right)
    else extractEqOne type ep e1 (.two type' left right)
  | e2 => extractEqOne type ep e1 e2

/-- `expr_extract_eq`. -/
def exprExtractEq (ep : Option (Expr σ)) : Expr σ → Expr σ → Option (Expr σ) × Expr σ × Expr σ
  | .two type' left right, e2 =>
    if type' = type then
      let (ep, left, e2) := exprExtractEq ep left e2
      let (ep, right, e2) := exprExtractEq ep right e2
      (ep, .two type' left right, e2)
    else extractEqRight type ep (.two type' left right) e2
  | e1, e2 => extractEqRight type ep e1 e2

/-- `expr_extract_eq_and` and `expr_extract_eq_or`: what both sides have, and what is left of
them. -/
def exprExtractEqOf (e1 e2 : Expr σ) : Option (Expr σ) × Expr σ × Expr σ :=
  match exprExtractEq type none e1 e2 with
  | (some tmp, e1, e2) => (some tmp, exprEliminateYn e1, exprEliminateYn e2)
  | (none, e1, e2) => (none, e1, e2)

variable {type} {D : Decls σ} {V : Values σ}

/-- The value of what has been extracted so far. -/
def extracted (D : Decls σ) (V : Values σ) (type : Junction) : Option (Expr σ) → Tristate
  | some ep => ep.value D V
  | none => type.unit

omit [DecidableEq σ] in
@[simp] theorem value_extend (ep : Option (Expr σ)) (e1 : Expr σ) :
    (extend type ep e1).value D V = type.value (extracted D V type ep) (e1.value D V) := by
  cases ep with
  | none => exact (Junction.unit_value).symm
  | some ep => rfl

/-- From `p` to `q` the same part went from both sides to what is extracted. -/
def Moves (D : Decls σ) (V : Values σ) (type : Junction)
    (p q : Option (Expr σ) × Expr σ × Expr σ) : Prop :=
  ∃ c, extracted D V type q.1 = type.value (extracted D V type p.1) c ∧
    Loses type.value c (values D V p.2) (values D V q.2)

omit [DecidableEq σ] in
theorem Moves.refl (p : Option (Expr σ) × Expr σ × Expr σ) : Moves D V type p p :=
  ⟨type.unit, by simp, Loses.refl type.unit _⟩

theorem extractEqOne_moves (ep : Option (Expr σ)) (e1 e2 : Expr σ) :
    Moves D V type (ep, e1, e2) (extractEqOne type ep e1 e2) := by
  unfold extractEqOne
  split
  next h =>
    have hall : Loses type.value (e1.value D V) (values D V (e1, e2))
        (values D V (.symbol type.neutral, .symbol type.neutral)) := by
      simp only [values, Expr.value, Junction.tri_neutral, ← soundEq_exprEq _ _ h D V]
      exact Loses.all type.unit _
    cases type with
    | or => exact ⟨e1.value D V, value_extend ep e1, hall⟩
    | and => exact ⟨e1.value D V, value_extend ep e1, hall⟩
  next => exact .refl _

theorem extractEqRight_two (ep : Option (Expr σ)) (e1 l r : Expr σ) :
    extractEqRight type ep e1 (.two type l r) =
      let p := extractEqRight type ep e1 l
      let q := extractEqRight type p.1 p.2.1 r
      (q.1, q.2.1, .two type p.2.2 q.2.2) := by
  rw [extractEqRight, if_pos rfl]

theorem extractEqRight_of_not {e2 : Expr σ} (h : e2.isTwo type = false) (ep : Option (Expr σ))
    (e1 : Expr σ) : extractEqRight type ep e1 e2 = extractEqOne type ep e1 e2 := by
  cases e2 with
  | two type' l r =>
    rw [extractEqRight, if_neg]
    rintro rfl
    simp [Expr.isTwo] at h
  | _ => rfl

theorem exprExtractEq_two (ep : Option (Expr σ)) (l r e2 : Expr σ) :
    exprExtractEq type ep (.two type l r) e2 =
      let p := exprExtractEq type ep l e2
      let q := exprExtractEq type p.1 r p.2.2
      (q.1, .two type p.2.1 q.2.1, q.2.2) := by
  rw [exprExtractEq, if_pos rfl]

theorem exprExtractEq_of_not {e1 : Expr σ} (h : e1.isTwo type = false) (ep : Option (Expr σ))
    (e2 : Expr σ) : exprExtractEq type ep e1 e2 = extractEqRight type ep e1 e2 := by
  cases e1 with
  | two type' l r =>
    rw [exprExtractEq, if_neg]
    rintro rfl
    simp [Expr.isTwo] at h
  | _ => rfl

theorem extractEqRight_moves (ep : Option (Expr σ)) (e1 e2 : Expr σ) :
    Moves D V type (ep, e1, e2) (extractEqRight type ep e1 e2) := by
  induction e2 using Expr.operands_induction type generalizing ep e1 with
  | two l r ihl ihr =>
    rw [extractEqRight_two]
    obtain ⟨c, hc, hl⟩ := ihl ep e1
    obtain ⟨d, hd, hr⟩ := ihr (extractEqRight type ep e1 l).1 (extractEqRight type ep e1 l).2.1
    refine ⟨type.value c d, ?_, loses_right hl hr⟩
    rw [hd, hc]
    exact Junction.value_assoc _ c d
  | one e2 he =>
    rw [extractEqRight_of_not he]
    exact extractEqOne_moves ep e1 e2

theorem exprExtractEq_moves (ep : Option (Expr σ)) (e1 e2 : Expr σ) :
    Moves D V type (ep, e1, e2) (exprExtractEq type ep e1 e2) := by
  induction e1 using Expr.operands_induction type generalizing ep e2 with
  | two l r ihl ihr =>
    rw [exprExtractEq_two]
    obtain ⟨c, hc, hl⟩ := ihl ep e2
    obtain ⟨d, hd, hr⟩ := ihr (exprExtractEq type ep l e2).1 (exprExtractEq type ep l e2).2.2
    refine ⟨type.value c d, ?_, loses_left hl hr⟩
    rw [hd, hc]
    exact Junction.value_assoc _ c d
  | one e1 he =>
    rw [exprExtractEq_of_not he]
    exact extractEqRight_moves ep e1 e2

/-- What `expr_extract_eq_and` and `expr_extract_eq_or` extract is a part of both sides, and with
what is left of a side it has the value of the side. -/
theorem exprExtractEqOf_value (D : Decls σ) (V : Values σ) (type : Junction) (e1 e2 : Expr σ) :
    Loses type.value (extracted D V type (exprExtractEqOf type e1 e2).1) (values D V (e1, e2))
      (values D V (exprExtractEqOf type e1 e2).2) := by
  have hmoves : Moves D V type (none, e1, e2) (exprExtractEq type none e1 e2) :=
    exprExtractEq_moves none e1 e2
  obtain ⟨c, hc, h⟩ := hmoves
  have hc' : extracted D V type (exprExtractEq type none e1 e2).1 = c := by
    rw [hc]
    exact Junction.unit_value
  unfold exprExtractEqOf
  split
  next tmp e1' e2' hp =>
    rw [hp] at h hc'
    rw [show extracted D V type (some tmp) = c from hc']
    simpa [values, value_exprEliminateYn] using h
  next e1' e2' hp =>
    rw [hp] at h hc'
    rw [show extracted D V type none = c from hc']
    exact h

/-- Each side is what was extracted and what is left of the side. -/
theorem exprExtractEqOf_sides (D : Decls σ) (V : Values σ) (type : Junction) (e1 e2 : Expr σ) :
    let ep := exprExtractEqOf type e1 e2
    e1.value D V = type.value (extracted D V type ep.1) (ep.2.1.value D V) ∧
      e2.value D V = type.value (extracted D V type ep.1) (ep.2.2.value D V) :=
  exprExtractEqOf_value D V type e1 e2

end Extract
end DebianKernel.FwConfig
