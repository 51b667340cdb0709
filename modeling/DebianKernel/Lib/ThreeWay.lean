import Mathlib.Data.List.Lex
import Mathlib.Order.Lattice

/-!
# Three-way comparison

`threeWay x y` is -1, 0 or 1 as `x` is smaller than, equal to or greater than `y`.
A comparison function that agrees with `threeWay` on keys of a linear order has all
the laws of a total preorder.

Results: `threeWay_swap`, `threeWay_nonpos`, `threeWay_neg`, `threeWay_eq_zero`, and `threeWay_cons`
for lists, which are compared lexicographically.
-/

section

variable {α : Type*} [LinearOrder α]

def threeWay (x y : α) : Int := if x < y then -1 else if y < x then 1 else 0

theorem threeWay_of_lt {x y : α} (h : x < y) : threeWay x y = -1 := if_pos h

theorem threeWay_of_gt {x y : α} (h : y < x) : threeWay x y = 1 := by
  rw [threeWay, if_neg (lt_asymm h), if_pos h]

@[simp] theorem threeWay_self (x : α) : threeWay x x = 0 := by
  rw [threeWay, if_neg (lt_irrefl x), if_neg (lt_irrefl x)]

theorem threeWay_cases (x y : α) : threeWay x y = -1 ∨ threeWay x y = 0 ∨ threeWay x y = 1 := by
  rcases lt_trichotomy x y with h | rfl | h
  · exact .inl (threeWay_of_lt h)
  · exact .inr (.inl (threeWay_self x))
  · exact .inr (.inr (threeWay_of_gt h))

theorem threeWay_swap (x y : α) : threeWay x y = -threeWay y x := by
  rcases lt_trichotomy x y with h | rfl | h
  · rw [threeWay_of_lt h, threeWay_of_gt h]
  · rw [threeWay_self]
    rfl
  · rw [threeWay_of_gt h, threeWay_of_lt h]
    rfl

theorem threeWay_nonpos {x y : α} : threeWay x y ≤ 0 ↔ x ≤ y := by
  rcases lt_trichotomy x y with h | rfl | h
  · simp [threeWay_of_lt h, h.le]
  · simp
  · simp [threeWay_of_gt h, h]

theorem threeWay_neg {x y : α} : threeWay x y < 0 ↔ x < y := by
  rcases lt_trichotomy x y with h | rfl | h
  · simp [threeWay_of_lt h, h]
  · simp
  · simp [threeWay_of_gt h, lt_asymm h]

theorem threeWay_eq_zero {x y : α} : threeWay x y = 0 ↔ x = y := by
  rcases lt_trichotomy x y with h | rfl | h
  · simp [threeWay_of_lt h, h.ne]
  · simp
  · simp [threeWay_of_gt h, h.ne']

/-- Lists are decided by their first elements, if these differ. -/
theorem threeWay_cons (x y : α) (xs ys : List α) :
    threeWay (x :: xs) (y :: ys) =
      if x < y then -1 else if y < x then 1 else threeWay xs ys := by
  rcases lt_trichotomy x y with h | rfl | h
  · rw [if_pos h, threeWay_of_lt (List.cons_lt_cons_iff.mpr (.inl h))]
  · rw [if_neg (lt_irrefl x), if_neg (lt_irrefl x)]
    rcases lt_trichotomy xs ys with h | rfl | h
    · rw [threeWay_of_lt h, threeWay_of_lt (List.cons_lt_cons_iff.mpr (.inr ⟨rfl, h⟩))]
    · rw [threeWay_self, threeWay_self]
    · rw [threeWay_of_gt h, threeWay_of_gt (List.cons_lt_cons_iff.mpr (.inr ⟨rfl, h⟩))]
  · rw [if_neg (lt_asymm h), if_pos h, threeWay_of_gt (List.cons_lt_cons_iff.mpr (.inl h))]

/-- A common beginning does not count. -/
theorem threeWay_append (zs xs ys : List α) : threeWay (zs ++ xs) (zs ++ ys) = threeWay xs ys := by
  induction zs with
  | nil => rfl
  | cons z zs ih =>
    rw [List.cons_append, List.cons_append, threeWay_cons, if_neg (lt_irrefl z),
      if_neg (lt_irrefl z), ih]

end
