import DebianKernel.FwConfig.Expr

/-!
# Operand lists and their positions

`expr.c` walks an operand list with pointers into the tree. A pointer is the path from the root of
the list to the node, `get` reads through it and `put` writes through it. The nodes of the list
itself, without what its operands are, form its `spine`, which no walk changes.

Results:
* `exists_value_put`: the value of a list as a function of one node of it,
* `exists_value_put_put`: and of two operands,
* `spine_put`, `mass_put`, `cost_put`: what writing does to the measures.
-/

namespace DebianKernel.FwConfig

open CommonPart Tristate

variable {σ : Type}

/-- `left.expr` and `right.expr`. -/
inductive Side where
  | left
  | right
  deriving DecidableEq, Repr

abbrev Path := List Side

namespace Expr

/-- The node that a path leads to, through `E_AND` and `E_OR`. -/
def get : Path → Expr σ → Option (Expr σ)
  | [], e => some e
  | .left :: p, two _ l _ => l.get p
  | .right :: p, two _ _ r => r.get p
  | _ :: _, _ => none

/-- The tree after an assignment through a path. -/
def put : Path → Expr σ → Expr σ → Expr σ
  | [], _, x => x
  | .left :: p, two type l r, x => two type (l.put p x) r
  | .right :: p, two type l r, x => two type l (r.put p x)
  | _ :: _, e, _ => e

end Expr

/-- The nodes of an operand list. -/
inductive Spine where
  | leaf
  | node (left right : Spine)
  deriving DecidableEq, Repr

namespace Spine

def get : Path → Spine → Option Spine
  | [], s => some s
  | .left :: p, node l _ => l.get p
  | .right :: p, node _ r => r.get p
  | _ :: _, _ => none

def height : Spine → Nat
  | leaf => 0
  | node l r => max l.height r.height + 1

theorem get_append {s sp : Spine} {p : Path} (h : s.get p = some sp) (q : Path) :
    s.get (p ++ q) = sp.get q := by
  induction p generalizing s with
  | nil =>
    rw [← Option.some.inj h]
    rfl
  | cons side p ih =>
    cases s with
    | leaf => cases side <;> exact absurd h nofun
    | node l r =>
      cases side with
      | left => exact ih h
      | right => exact ih h

end Spine

namespace Expr

/-- The spine of the `type` list that starts at a node. -/
def spine (type : Junction) : Expr σ → Spine
  | two type' l r => if type' = type then .node (l.spine type) (r.spine type) else .leaf
  | _ => .leaf

@[simp] theorem spine_two (type : Junction) (l r : Expr σ) :
    (two type l r).spine type = .node (l.spine type) (r.spine type) := by
  rw [spine, if_pos rfl]

theorem spine_of_not {type : Junction} {e : Expr σ} (h : e.isTwo type = false) :
    e.spine type = .leaf := by
  cases e with
  | two type' l r =>
    rw [spine, if_neg]
    rintro rfl
    simp [isTwo] at h
  | _ => rfl

theorem isTwo_of_spine_node {type : Junction} {e : Expr σ} {sl sr : Spine}
    (h : e.spine type = .node sl sr) :
    ∃ l r, e = two type l r ∧ l.spine type = sl ∧ r.spine type = sr := by
  cases e with
  | two type' l r =>
    rw [spine] at h
    split at h
    next ht =>
      subst ht
      injection h with hl hr
      exact ⟨l, r, rfl, hl, hr⟩
    next => exact absurd h nofun
  | _ => exact absurd h nofun

theorem isTwo_of_node {type : Junction} {x : Expr σ} {sl sr : Spine}
    (h : x.spine type = .node sl sr) : x.isTwo type = true := by
  obtain ⟨l, r, rfl, -, -⟩ := isTwo_of_spine_node h
  simp

theorem isTwo_of_spine_leaf {type : Junction} {e : Expr σ} (h : e.spine type = .leaf) :
    e.isTwo type = false := by
  cases e with
  | two type' l r =>
    rw [spine] at h
    split at h
    next => exact absurd h nofun
    next ht => simp [isTwo, ht]
  | _ => rfl

end Expr

/-- The path leads to a node of the `type` list, where the spine goes on with `sp`. -/
inductive OnSpine (type : Junction) : Expr σ → Path → Spine → Prop
  | nil (e : Expr σ) : OnSpine type e [] (e.spine type)
  | left {l : Expr σ} {p : Path} {sp : Spine} (r : Expr σ) (h : OnSpine type l p sp) :
      OnSpine type (.two type l r) (.left :: p) sp
  | right {r : Expr σ} {p : Path} {sp : Spine} (l : Expr σ) (h : OnSpine type r p sp) :
      OnSpine type (.two type l r) (.right :: p) sp

section GetPut

variable {type : Junction} {e e' x y : Expr σ} {p q : Path} {sp sq : Spine}

theorem onSpine_iff : OnSpine type e p sp ↔ (e.spine type).get p = some sp := by
  constructor
  · intro h
    induction h with
    | nil e => rfl
    | left r h ih => rwa [Expr.spine_two]
    | right l h ih => rwa [Expr.spine_two]
  · intro h
    induction p generalizing e with
    | nil =>
      rw [← Option.some.inj h]
      exact .nil e
    | cons side p ih =>
      cases hs : e.spine type with
      | leaf =>
        rw [hs] at h
        cases side <;> exact absurd h nofun
      | node sl sr =>
        rw [hs] at h
        obtain ⟨l, r, rfl, rfl, rfl⟩ := Expr.isTwo_of_spine_node hs
        cases side with
        | left => exact .left r (ih h)
        | right => exact .right l (ih h)

/-- A position depends on the spine only. -/
theorem OnSpine.congr (h : OnSpine type e p sp) (hs : e'.spine type = e.spine type) :
    OnSpine type e' p sp := by
  rw [onSpine_iff] at h ⊢
  rwa [hs]

theorem OnSpine.append_left {sl sr : Spine} (h : OnSpine type e p (.node sl sr)) :
    OnSpine type e (p ++ [.left]) sl := by
  rw [onSpine_iff] at h ⊢
  exact Spine.get_append h [.left]

theorem OnSpine.append_right {sl sr : Spine} (h : OnSpine type e p (.node sl sr)) :
    OnSpine type e (p ++ [.right]) sr := by
  rw [onSpine_iff] at h ⊢
  exact Spine.get_append h [.right]

theorem OnSpine.get (h : OnSpine type e p sp) : ∃ x, e.get p = some x ∧ x.spine type = sp := by
  induction h with
  | nil e => exact ⟨e, rfl, rfl⟩
  | left r h ih => exact ih
  | right l h ih => exact ih

/-- Where the spine ends there is an operand. -/
theorem OnSpine.isTwo_leaf (h : OnSpine type e p .leaf) (hx : e.get p = some x) :
    x.isTwo type = false := by
  obtain ⟨y, hy, hs⟩ := h.get
  rw [hx] at hy
  rw [Option.some.inj hy]
  exact Expr.isTwo_of_spine_leaf hs

theorem OnSpine.ne_nil_of_ne (hp : OnSpine type e p .leaf) (hq : OnSpine type e q .leaf)
    (hne : p ≠ q) : p ≠ [] := by
  rintro rfl
  have hs : e.spine type = .leaf := Option.some.inj (onSpine_iff.mp hp)
  rw [onSpine_iff, hs] at hq
  cases q with
  | nil => exact hne rfl
  | cons side q => cases side <;> exact absurd hq nofun

theorem Expr.put_self (h : e.get p = some x) : e.put p x = e := by
  induction p generalizing e with
  | nil => exact (Option.some.inj h).symm
  | cons side p ih =>
    cases e with
    | two type l r =>
      cases side with
      | left => exact congrArg (Expr.two type · r) (ih h)
      | right => exact congrArg (Expr.two type l) (ih h)
    | _ => cases side <;> exact absurd h nofun

/-- Writing an operand leaves the other operands. -/
theorem OnSpine.get_put_ne (hp : OnSpine type e p .leaf) (hq : OnSpine type e q .leaf) (hne : p ≠ q)
    (x : Expr σ) : (e.put p x).get q = e.get q := by
  generalize hsp : Spine.leaf = sp at hp
  induction hp generalizing q with
  | nil e =>
    rw [onSpine_iff, ← hsp] at hq
    cases q with
    | nil => exact absurd rfl hne
    | cons side q => cases side <;> exact absurd hq nofun
  | left r h ih =>
    generalize hsq : Spine.leaf = sq at hq
    cases hq with
    | nil => exact absurd hsq (by rw [Expr.spine_two]; exact nofun)
    | left _ hq =>
      subst hsq
      exact ih hq (fun h => hne (congrArg _ h)) hsp
    | right _ hq => rfl
  | right l h ih =>
    generalize hsq : Spine.leaf = sq at hq
    cases hq with
    | nil => exact absurd hsq (by rw [Expr.spine_two]; exact nofun)
    | left _ hq => rfl
    | right _ hq =>
      subst hsq
      exact ih hq (fun h => hne (congrArg _ h)) hsp

/-- A node can be replaced by one of the same spine. -/
theorem OnSpine.spine_put (h : OnSpine type e p sp) (hx : x.spine type = sp) :
    (e.put p x).spine type = e.spine type := by
  induction h with
  | nil e => exact hx
  | left r h ih =>
    change (Expr.two type (Expr.put _ _ x) r).spine type = _
    rw [Expr.spine_two, Expr.spine_two, ih hx]
  | right l h ih =>
    change (Expr.two type l (Expr.put _ _ x)).spine type = _
    rw [Expr.spine_two, Expr.spine_two, ih hx]

/-! ## Values -/

variable (D : Decls σ) (V : Values σ)

/-- The value of a list, as a function of one of its nodes. -/
theorem OnSpine.value_put (h : OnSpine type e p sp) :
    ∃ c, ∀ x, (e.put p x).value D V = type.value c (x.value D V) := by
  induction h with
  | nil e => exact ⟨type.unit, fun x => Junction.unit_value.symm⟩
  | @left l p sp r h ih =>
    obtain ⟨c, hc⟩ := ih
    refine ⟨type.value (r.value D V) c, fun x => ?_⟩
    change type.value ((l.put p x).value D V) (r.value D V) = _
    rw [hc, Junction.value_comm, Junction.value_assoc]
  | @right r p sp l h ih =>
    obtain ⟨c, hc⟩ := ih
    refine ⟨type.value (l.value D V) c, fun x => ?_⟩
    change type.value (l.value D V) ((r.put p x).value D V) = _
    rw [hc, Junction.value_assoc]

/-- The value of a list, as a function of two of its operands. -/
theorem OnSpine.value_put_put (hp : OnSpine type e p .leaf) (hq : OnSpine type e q .leaf)
    (hne : p ≠ q) :
    ∃ c, ∀ x y, ((e.put p x).put q y).value D V =
      type.value c (type.value (x.value D V) (y.value D V)) := by
  generalize hsp : Spine.leaf = sp at hp
  induction hp generalizing q with
  | nil e =>
    rw [onSpine_iff, ← hsp] at hq
    cases q with
    | nil => exact absurd rfl hne
    | cons side q => cases side <;> exact absurd hq nofun
  | @left l p sp r h ih =>
    generalize hsq : Spine.leaf = sq at hq
    cases hq with
    | nil => exact absurd hsq (by rw [Expr.spine_two]; exact nofun)
    | @left _ q _ _ hq =>
      subst hsq
      obtain ⟨c, hc⟩ := ih hq (fun h => hne (congrArg _ h)) hsp
      refine ⟨type.value (r.value D V) c, fun x y => ?_⟩
      change type.value (((l.put p x).put q y).value D V) (r.value D V) = _
      rw [hc, Junction.value_comm, Junction.value_assoc]
    | @right _ q _ _ hq =>
      obtain ⟨c, hc⟩ := h.value_put D V
      obtain ⟨d, hd⟩ := hq.value_put D V
      refine ⟨type.value c d, fun x y => ?_⟩
      change type.value ((l.put p x).value D V) ((r.put q y).value D V) = _
      rw [hc, hd]
      ac_rfl
  | @right r p sp l h ih =>
    generalize hsq : Spine.leaf = sq at hq
    cases hq with
    | nil => exact absurd hsq (by rw [Expr.spine_two]; exact nofun)
    | @left _ q _ _ hq =>
      obtain ⟨c, hc⟩ := h.value_put D V
      obtain ⟨d, hd⟩ := hq.value_put D V
      refine ⟨type.value c d, fun x y => ?_⟩
      change type.value ((l.put q y).value D V) ((r.put p x).value D V) = _
      rw [hc, hd]
      ac_rfl
    | @right _ q _ _ hq =>
      subst hsq
      obtain ⟨c, hc⟩ := ih hq (fun h => hne (congrArg _ h)) hsp
      refine ⟨type.value (l.value D V) c, fun x y => ?_⟩
      change type.value (l.value D V) (((r.put p x).put q y).value D V) = _
      rw [hc, Junction.value_assoc]

end GetPut

/-! ## Measures -/

/-- How deep the walks over the lists inside the operands of a `type` list go: a walk goes down the
list twice before it turns to the operands. -/
def Expr.cost : Expr σ → Junction → Nat
  | two type' l r, type =>
    if type' = type then max (l.cost type) (r.cost type)
    else 2 * ((two type' l r).spine type').height + 1 + max (l.cost type') (r.cost type')
  | _, _ => 0

section Measures

variable {type : Junction} {e x : Expr σ} {p : Path} {sp : Spine}

@[simp] theorem Expr.cost_two (type : Junction) (l r : Expr σ) :
    (two type l r).cost type = max (l.cost type) (r.cost type) := by
  rw [cost, if_pos rfl]

/-- An operand that is itself a list. -/
theorem Expr.cost_list {type' : Junction} (h : type' ≠ type) (l r : Expr σ) :
    (two type' l r).cost type =
      2 * ((two type' l r).spine type').height + 1 + (two type' l r).cost type' := by
  rw [cost, if_neg h, cost_two]

theorem OnSpine.cost_le (h : OnSpine type e p sp) (hx : e.get p = some x) :
    x.cost type ≤ e.cost type := by
  induction h with
  | nil e => rw [← Option.some.inj hx]
  | left r h ih =>
    rw [Expr.cost_two]
    exact (ih hx).trans (Nat.le_max_left _ _)
  | right l h ih =>
    rw [Expr.cost_two]
    exact (ih hx).trans (Nat.le_max_right _ _)

theorem OnSpine.cost_put_le {b : Nat} (h : OnSpine type e p sp) (he : e.cost type ≤ b)
    (hx : x.cost type ≤ b) : (e.put p x).cost type ≤ b := by
  induction h with
  | nil e => exact hx
  | left r h ih =>
    rw [Expr.cost_two] at he
    change (Expr.two type (Expr.put _ _ x) r).cost type ≤ b
    rw [Expr.cost_two]
    exact max_le (ih ((Nat.le_max_left _ _).trans he)) ((Nat.le_max_right _ _).trans he)
  | right l h ih =>
    rw [Expr.cost_two] at he
    change (Expr.two type l (Expr.put _ _ x)).cost type ≤ b
    rw [Expr.cost_two]
    exact max_le ((Nat.le_max_left _ _).trans he) (ih ((Nat.le_max_right _ _).trans he))

theorem OnSpine.mass_put (h : OnSpine type e p sp) (hx : e.get p = some x) (y : Expr σ) :
    (e.put p y).mass + x.mass = e.mass + y.mass := by
  induction h with
  | nil e =>
    rw [← Option.some.inj hx]
    exact Nat.add_comm _ _
  | left r h ih =>
    have := ih hx
    simp only [Expr.put, Expr.mass]
    omega
  | right l h ih =>
    have := ih hx
    simp only [Expr.put, Expr.mass]
    omega

theorem OnSpine.noYn (h : OnSpine type e p sp) (hx : e.get p = some x) (he : NoYn e) : NoYn x := by
  induction h with
  | nil e => rwa [← Option.some.inj hx]
  | left r h ih => exact ih hx he.1
  | right l h ih => exact ih hx he.2.1

theorem OnSpine.notSymbol (h : OnSpine type e p sp) (hx : e.get p = some x) (he : NotSymbol e) :
    NotSymbol x := by
  induction h with
  | nil e => rwa [← Option.some.inj hx]
  | left r h ih => exact ih hx he.1
  | right l h ih => exact ih hx he.2

theorem OnSpine.notSymbol_put (h : OnSpine type e p sp) (he : NotSymbol e) (hx : NotSymbol x) :
    NotSymbol (e.put p x) := by
  induction h with
  | nil e => exact hx
  | left r h ih => exact ⟨ih he.1, he.2⟩
  | right l h ih => exact ⟨he.1, ih he.2⟩

theorem OnSpine.noYn_operand (h : OnSpine type e p sp) (hp : p ≠ []) (hx : e.get p = some x)
    (he : NoYn e) : x ≠ .symbol .yes ∧ x ≠ .symbol .no := by
  induction h with
  | nil e => exact absurd rfl hp
  | @left l p sp r h ih =>
    cases p with
    | nil =>
      rw [← Option.some.inj hx]
      exact ⟨he.2.2.1, he.2.2.2.1⟩
    | cons side p => exact ih nofun hx he.1
  | @right r p sp l h ih =>
    cases p with
    | nil =>
      rw [← Option.some.inj hx]
      exact ⟨he.2.2.2.2.1, he.2.2.2.2.2⟩
    | cons side p => exact ih nofun hx he.2.1

end Measures
end DebianKernel.FwConfig
