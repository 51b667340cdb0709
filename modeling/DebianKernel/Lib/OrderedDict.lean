import Mathlib.Data.List.Nodup

/-!
# Insertion-ordered dictionaries

The entries of a dictionary in the order in which their keys were first set. No
key occurs twice, and that is part of the value.

Results: `get?_set_self`, `get?_set_ne`: what one assignment changes;
`get?_eq_some_iff`: lookup and entries; `foldl_set_entries`: a dictionary is rebuilt from
its entries.
-/

structure OrderedDict (κ ν : Type*) where
  entries : List (κ × ν)
  nodup : (entries.map Prod.fst).Nodup

namespace OrderedDict

variable {κ ν : Type*} [DecidableEq κ]

/-! ## Entry lists -/

/-- Replaces the value of `k` in place, or adds the entry at the end. -/
def setEntries (k : κ) (v : ν) : List (κ × ν) → List (κ × ν)
  | [] => [(k, v)]
  | p :: ps => if p.1 = k then (k, v) :: ps else p :: setEntries k v ps

theorem keys_setEntries (k : κ) (v : ν) (l : List (κ × ν)) :
    (setEntries k v l).map Prod.fst =
      if k ∈ l.map Prod.fst then l.map Prod.fst else l.map Prod.fst ++ [k] := by
  induction l with
  | nil => rfl
  | cons p l ih =>
    by_cases hp : p.1 = k
    · simp [setEntries, hp]
    · have hk : ¬ k = p.1 := fun h => hp h.symm
      simp only [setEntries, hp, if_false, List.map_cons, ih, List.mem_cons, hk, false_or]
      split <;> rfl

theorem nodup_setEntries {k : κ} {v : ν} {l : List (κ × ν)} (h : (l.map Prod.fst).Nodup) :
    ((setEntries k v l).map Prod.fst).Nodup := by
  rw [keys_setEntries]
  split
  · exact h
  · next hk => exact List.nodup_append.mpr ⟨h, List.nodup_singleton k, by
      simp only [List.mem_singleton, forall_eq]
      rintro a ha rfl
      exact hk ha⟩

theorem lookup_setEntries_self (k : κ) (v : ν) (l : List (κ × ν)) :
    (setEntries k v l).lookup k = some v := by
  induction l with
  | nil => simp [setEntries]
  | cons p l ih =>
    by_cases hp : p.1 = k
    · simp [setEntries, hp]
    · have hk : (k == p.1) = false := by simpa using fun h : k = p.1 => hp h.symm
      rw [setEntries, if_neg hp, List.lookup_cons, hk, ih]

theorem lookup_setEntries_ne {k k' : κ} (v : ν) (l : List (κ × ν)) (h : k' ≠ k) :
    (setEntries k v l).lookup k' = l.lookup k' := by
  have hbeq : (k' == k) = false := by simpa using h
  induction l with
  | nil => simp only [setEntries, List.lookup_cons, hbeq]
  | cons p l ih =>
    by_cases hp : p.1 = k
    · obtain ⟨_, w⟩ := p
      subst hp
      simp only [setEntries, if_true, List.lookup_cons, hbeq]
    · rw [setEntries, if_neg hp, List.lookup_cons, List.lookup_cons, ih]

theorem mem_setEntries {k : κ} {v : ν} {l : List (κ × ν)} {p : κ × ν}
    (h : p ∈ setEntries k v l) : p = (k, v) ∨ p ∈ l := by
  induction l with
  | nil => exact .inl (List.mem_singleton.mp h)
  | cons q l ih =>
    rw [setEntries] at h
    split at h
    · exact (List.mem_cons.mp h).imp_right (List.mem_cons_of_mem _)
    · rcases List.mem_cons.mp h with rfl | h
      · exact .inr List.mem_cons_self
      · exact (ih h).imp_right (List.mem_cons_of_mem _)

theorem lookup_eq_some_iff {l : List (κ × ν)} (h : (l.map Prod.fst).Nodup) {k : κ} {v : ν} :
    l.lookup k = some v ↔ (k, v) ∈ l := by
  induction l with
  | nil => simp
  | cons p l ih =>
    obtain ⟨k', v'⟩ := p
    rw [List.map_cons, List.nodup_cons] at h
    by_cases hk : k = k'
    · subst hk
      have hno : (k, v) ∉ l := fun hmem => h.1 (List.mem_map.mpr ⟨(k, v), hmem, rfl⟩)
      simp [hno, eq_comm]
    · have hbeq : (k == k') = false := by simpa using hk
      rw [List.lookup_cons, hbeq, ih h.2]
      simp [hk]

theorem setEntries_of_not_mem {k : κ} (v : ν) {l : List (κ × ν)} (h : k ∉ l.map Prod.fst) :
    setEntries k v l = l ++ [(k, v)] := by
  induction l with
  | nil => rfl
  | cons p l ih =>
    rw [List.map_cons, List.mem_cons, not_or] at h
    rw [setEntries, if_neg fun hp => h.1 hp.symm, ih h.2]
    rfl

/-! ## Dictionaries -/

def empty : OrderedDict κ ν := ⟨[], List.nodup_nil⟩

def get? (d : OrderedDict κ ν) (k : κ) : Option ν := d.entries.lookup k

def set (d : OrderedDict κ ν) (k : κ) (v : ν) : OrderedDict κ ν :=
  ⟨setEntries k v d.entries, nodup_setEntries d.nodup⟩

@[simp] theorem get?_empty (k : κ) : (empty : OrderedDict κ ν).get? k = none := rfl

@[simp] theorem get?_set_self (d : OrderedDict κ ν) (k : κ) (v : ν) :
    (d.set k v).get? k = some v :=
  lookup_setEntries_self k v d.entries

theorem get?_set_ne (d : OrderedDict κ ν) {k k' : κ} (v : ν) (h : k' ≠ k) :
    (d.set k v).get? k' = d.get? k' :=
  lookup_setEntries_ne v d.entries h

omit [DecidableEq κ] in
theorem eq_of_entries {d d' : OrderedDict κ ν} (h : d.entries = d'.entries) : d = d' := by
  obtain ⟨entries, _⟩ := d
  obtain ⟨entries', _⟩ := d'
  obtain rfl : entries = entries' := h
  rfl

/-- Setting all entries of a dictionary, in order, gives the dictionary again. -/
theorem foldl_set_entries (d : OrderedDict κ ν) :
    d.entries.foldl (fun d p => d.set p.1 p.2) empty = d := by
  have hstep : ∀ (l : List (κ × ν)) (d₀ : OrderedDict κ ν),
      ((d₀.entries ++ l).map Prod.fst).Nodup →
      (l.foldl (fun d p => d.set p.1 p.2) d₀).entries = d₀.entries ++ l := by
    intro l
    induction l with
    | nil => exact fun d₀ _ => (List.append_nil _).symm
    | cons p l ih =>
      intro d₀ hnodup
      have hset : (d₀.set p.1 p.2).entries = d₀.entries ++ [p] := by
        refine setEntries_of_not_mem p.2 fun hmem => ?_
        rw [List.map_append, List.map_cons] at hnodup
        exact List.disjoint_of_nodup_append hnodup hmem List.mem_cons_self
      rw [List.foldl_cons, ih, hset, List.append_assoc]
      · rfl
      · rw [hset, List.append_assoc]
        exact hnodup
  exact eq_of_entries (hstep d.entries empty d.nodup)

theorem get?_eq_some_iff (d : OrderedDict κ ν) {k : κ} {v : ν} :
    d.get? k = some v ↔ (k, v) ∈ d.entries :=
  lookup_eq_some_iff d.nodup

end OrderedDict
