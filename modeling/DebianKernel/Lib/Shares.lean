import Mathlib.Algebra.BigOperators.Group.Multiset.Basic
import Mathlib.Algebra.Order.BigOperators.Group.Finset
import Mathlib.Data.Finset.BooleanAlgebra
import Mathlib.Data.Multiset.UnionInter
import Mathlib.Tactic.Abel

/-!
# What several holders have together

Finitely many holders, each with a collection of things. A thing that moves from one holder to
another changes the shares but not the total.

Results: `total_change` (one share changes), `not_mem_of_nodup` (no thing is with two holders when
the total has nothing twice).
-/

namespace Shares

variable {ι α : Type*} [Fintype ι] {f g : ι → Multiset α} {i j : ι} {a : α}

def total (f : ι → Multiset α) : Multiset α := ∑ i, f i

theorem mem_total : a ∈ total f ↔ ∃ i, a ∈ f i := by
  rw [total, Multiset.mem_sum]
  constructor
  · rintro ⟨i, -, h⟩
    exact ⟨i, h⟩
  · rintro ⟨i, h⟩
    exact ⟨i, Finset.mem_univ i, h⟩

theorem mem_listSum {β : Type*} {l : List β} {g : β → Multiset α} :
    a ∈ (l.map g).sum ↔ ∃ x ∈ l, a ∈ g x := by
  induction l with
  | nil =>
    rw [List.map_nil, List.sum_nil]
    exact ⟨fun h => absurd h (Multiset.notMem_zero a), fun ⟨_, hx, _⟩ => absurd hx List.not_mem_nil⟩
  | cons x l ih =>
    rw [List.map_cons, List.sum_cons, Multiset.mem_add, ih]
    exact List.exists_mem_cons_iff (a ∈ g ·) x l |>.symm

theorem listSum_mono {β : Type*} {l : List β} {g g' : β → Multiset α} (h : ∀ x ∈ l, g x ≤ g' x) :
    (l.map g).sum ≤ (l.map g').sum := by
  induction l with
  | nil => exact le_refl _
  | cons x l ih =>
    rw [List.map_cons, List.map_cons, List.sum_cons, List.sum_cons]
    exact add_le_add (h x List.mem_cons_self) (ih fun y hy => h y (List.mem_cons_of_mem x hy))

theorem total_mono (h : ∀ i, f i ≤ g i) : total f ≤ total g :=
  Finset.sum_le_sum fun i _ => h i

theorem total_singleton (g : ι → α) : total (fun i => {g i}) = Finset.univ.val.map g := by
  have hmap := Multiset.sum_map_singleton (Finset.univ.val.map g)
  rw [Multiset.map_map] at hmap
  exact hmap

variable [DecidableEq ι]

/-- Only the share of `i` changes. -/
theorem total_change (h : ∀ j ≠ i, f j = g j) : total f + g i = total g + f i := by
  have hrest : ∑ j ∈ Finset.univ.erase i, f j = ∑ j ∈ Finset.univ.erase i, g j :=
    Finset.sum_congr rfl fun j hj => h j (Finset.ne_of_mem_erase hj)
  rw [total, total, ← Finset.add_sum_erase _ f (Finset.mem_univ i),
    ← Finset.add_sum_erase _ g (Finset.mem_univ i), hrest]
  abel

/-- What two holders have is part of the total. -/
theorem add_le_total (f : ι → Multiset α) (h : i ≠ j) : f i + f j ≤ total f := by
  rw [total, ← Finset.add_sum_erase _ f (Finset.mem_univ i)]
  refine add_le_add_right ?_ (f i)
  exact Finset.single_le_sum (fun _ _ => Multiset.zero_le _)
    (Finset.mem_erase.mpr ⟨h.symm, Finset.mem_univ j⟩)

theorem not_mem_of_nodup (hnodup : (total f).Nodup) (h : i ≠ j) (ha : a ∈ f i) : a ∉ f j := by
  have hle := Multiset.nodup_of_le (add_le_total f h) hnodup
  rw [Multiset.nodup_add] at hle
  exact Multiset.disjoint_left.mp hle.2.2 ha

end Shares
