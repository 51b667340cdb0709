import Mathlib.Data.List.Sort

/-!
# What a sort may return

A correct sort by a total preorder returns the elements in some order that respects it. How
it orders elements that compare equal is left open.

Results: `exists_sortedPerm`, `exists_sortedPerm_pair` (two elements can come in each order
that the preorder allows), `map_eq_of_sortedPerm` (two results agree up to equality).
-/

section

variable {α β γ : Type*}

/-- `out` is the list `l` in an order that respects `r`. -/
def SortedPerm (r : α → α → Prop) (l out : List α) : Prop := out.Perm l ∧ out.Pairwise r

/-- Two different elements stand in the list in one order or the other. -/
theorem pair_sublist {l : List α} {a b : α} (ha : a ∈ l) (hb : b ∈ l) (hne : a ≠ b) :
    List.Sublist [a, b] l ∨ List.Sublist [b, a] l := by
  obtain ⟨l₁, l₂, rfl⟩ := List.append_of_mem ha
  rcases List.mem_append.mp hb with hb | hb
  · refine .inr (List.Sublist.append (List.singleton_sublist.mpr hb) ?_)
    exact List.singleton_sublist.mpr List.mem_cons_self
  · rcases List.mem_cons.mp hb with rfl | hb
    · exact absurd rfl hne
    · refine .inl (List.sublist_append_of_sublist_right ?_)
      exact List.Sublist.cons_cons a (List.singleton_sublist.mpr hb)

section

variable {r : α → α → Prop} [DecidableRel r] (htrans : ∀ a b c, r a b → r b c → r a c)
  (htotal : ∀ a b, r a b ∨ r b a)

include htrans htotal

theorem sortedPerm_mergeSort (l : List α) :
    SortedPerm r l (l.mergeSort fun a b => decide (r a b)) := by
  refine ⟨List.mergeSort_perm l _, ?_⟩
  have hsorted := @List.pairwise_mergeSort _ (fun a b => decide (r a b))
    (fun a b c hab hbc => decide_eq_true
      (htrans a b c (of_decide_eq_true hab) (of_decide_eq_true hbc)))
    (fun a b => by simpa using htotal a b) l
  exact hsorted.imp of_decide_eq_true

theorem exists_sortedPerm (l : List α) : ∃ out, SortedPerm r l out :=
  ⟨_, sortedPerm_mergeSort htrans htotal l⟩

/-- Of two elements, one can come first unless the order forbids it. -/
theorem exists_sortedPerm_pair {l : List α} {a b : α} (ha : a ∈ l) (hb : b ∈ l) (hne : a ≠ b)
    (hab : r a b) : ∃ out, SortedPerm r l out ∧ List.Sublist [a, b] out := by
  have hsort : ∀ {l' : List α}, l'.Perm l → List.Sublist [a, b] l' →
      ∃ out, SortedPerm r l out ∧ List.Sublist [a, b] out := by
    intro l' hperm hsub
    obtain ⟨hout, hsorted⟩ := sortedPerm_mergeSort htrans htotal l'
    refine ⟨_, ⟨hout.trans hperm, hsorted⟩, ?_⟩
    exact List.pair_sublist_mergeSort
      (fun a b c hab hbc => decide_eq_true
        (htrans a b c (of_decide_eq_true hab) (of_decide_eq_true hbc)))
      (fun a b => by simpa using htotal a b) (decide_eq_true hab) hsub
  rcases pair_sublist ha hb hne with hsub | hsub
  · exact hsort (List.Perm.refl l) hsub
  · -- in the reversed list, they stand the other way round
    exact hsort (List.reverse_perm l) (List.reverse_sublist.mpr hsub)

end

/-- The results of two sorts have the same keys, place by place. -/
theorem map_eq_of_sortedPerm {r : γ → γ → Prop} (hanti : ∀ a b, r a b → r b a → a = b)
    {f : α → γ} {g : β → γ} {out : List α} {out' : List β} (hperm : (out.map f).Perm (out'.map g))
    (hout : out.Pairwise fun a b => r (f a) (f b))
    (hout' : out'.Pairwise fun a b => r (g a) (g b)) : out.map f = out'.map g :=
  hperm.eq_of_pairwise (fun a b _ _ => hanti a b) (List.pairwise_map.mpr hout)
    (List.pairwise_map.mpr hout')

end
