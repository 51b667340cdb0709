import Mathlib.Order.Basic
import Mathlib.Order.Monotone.Defs

/-!
# Taking the same part out of two values

An associative and commutative operation with a unit. A pair of values loses the part `c` when `c`,
put back on both sides, gives the old pair. What is left equal was equal before (`eq_of_eq`).
-/

namespace CommonPart

variable {α : Type*} (op : α → α → α)

/-- `new` is `old` without the part `c` that both sides had. -/
def Loses (c : α) (old new : α × α) : Prop :=
  old.1 = op c new.1 ∧ old.2 = op c new.2

variable {op} {a a' b b' c d : α} {p q r : α × α}

theorem Loses.refl (e : α) [Std.LawfulLeftIdentity op e] (p : α × α) : Loses op e p p :=
  ⟨(Std.LawfulLeftIdentity.left_id p.1).symm, (Std.LawfulLeftIdentity.left_id p.2).symm⟩

/-- Two equal values are a part that both sides have. -/
theorem Loses.all (e : α) [Std.LawfulRightIdentity op e] (a : α) : Loses op a (a, a) (e, e) :=
  ⟨(Std.LawfulRightIdentity.right_id a).symm, (Std.LawfulRightIdentity.right_id a).symm⟩

theorem Loses.eq_of_eq (h : Loses op c p q) (hq : q.1 = q.2) : p.1 = p.2 := by
  rw [h.1, h.2, hq]

section Assoc

variable [Std.Associative op] [Std.Commutative op]

theorem Loses.trans (h : Loses op c p q) (h' : Loses op d q r) : Loses op (op c d) p r := by
  constructor
  · rw [h.1, h'.1]
    ac_rfl
  · rw [h.2, h'.2]
    ac_rfl

/-- A value that the left side has besides is no part of what was lost. -/
theorem Loses.add_left (x : α) (h : Loses op c (a, b) (a', b')) :
    Loses op c (op x a, b) (op x a', b') := by
  refine ⟨?_, h.2⟩
  change op x a = op c (op x a')
  rw [show a = op c a' from h.1]
  ac_rfl

theorem Loses.add_right (x : α) (h : Loses op c (a, b) (a', b')) :
    Loses op c (a, op x b) (a', op x b') := by
  refine ⟨h.1, ?_⟩
  change op x b = op c (op x b')
  rw [show b = op c b' from h.2]
  ac_rfl

end Assoc

end CommonPart
