import Mathlib.Data.List.Basic

/-!
# Chains of addresses

Addresses of which each names the next one. `Path next a l b`: whoever starts at `a` passes the
addresses `l` in this order and then stands at `b`.

Results: `path_append`, `path_congr` (what addresses outside of the path name does not matter),
`path_redirect` (the last address names another end).
-/

namespace Chain

variable {α : Type*}

def Path (next : α → α) : α → List α → α → Prop
  | a, [], b => a = b
  | a, x :: l, b => a = x ∧ Path next (next x) l b

variable {next next' : α → α} {a b c x : α} {l m : List α}

@[simp] theorem path_nil : Path next a [] b ↔ a = b := Iff.rfl

@[simp] theorem path_cons : Path next a (x :: l) b ↔ a = x ∧ Path next (next x) l b := Iff.rfl

theorem path_append : Path next a (l ++ m) b ↔ ∃ c, Path next a l c ∧ Path next c m b := by
  induction l generalizing a with
  | nil =>
    constructor
    · exact fun h => ⟨a, rfl, h⟩
    · rintro ⟨c, rfl, h⟩
      exact h
  | cons y l ih =>
    rw [List.cons_append, path_cons, ih]
    constructor
    · rintro ⟨rfl, c, hl, hm⟩
      exact ⟨c, ⟨rfl, hl⟩, hm⟩
    · rintro ⟨c, ⟨rfl, hl⟩, hm⟩
      exact ⟨rfl, c, hl, hm⟩

theorem path_concat : Path next a (l ++ [x]) b ↔ Path next a l x ∧ next x = b := by
  rw [path_append]
  constructor
  · rintro ⟨c, hl, rfl, hb⟩
    exact ⟨hl, hb⟩
  · rintro ⟨hl, hb⟩
    exact ⟨x, hl, rfl, hb⟩

theorem Path.head_eq (h : Path next a (x :: l) b) : a = x := h.1

theorem path_congr (h : ∀ y ∈ l, next y = next' y) : Path next a l b ↔ Path next' a l b := by
  induction l generalizing a with
  | nil => exact Iff.rfl
  | cons y l ih =>
    rw [path_cons, path_cons, h y List.mem_cons_self,
      ih fun z hz => h z (List.mem_cons_of_mem y hz)]

/-- The last address of a path is made to name `c`. -/
theorem path_redirect (h : Path next a (l ++ [x]) b) (hl : ∀ y ∈ l, next y = next' y)
    (hx : next' x = c) : Path next' a (l ++ [x]) c := by
  rw [path_concat] at h ⊢
  exact ⟨(path_congr hl).mp h.1, hx⟩

end Chain
