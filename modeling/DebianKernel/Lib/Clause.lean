import Mathlib.Data.Set.Insert

/-!
# Monotone clauses

A clause is a set of atoms and asks for one of them; a clause set asks for all
of its clauses. No atom is ever negated, so one clause set entails a clause
exactly when it contains a subset of it (`entails_iff`). This is the reading of
dependency lists, firewall allow lists and other lists of alternatives.

Results:
1. `entails_iff`: entailment is inclusion of one clause.
2. `equiv_iff`: two clause sets ask the same exactly when each clause of one
   contains a clause of the other.
3. `replace_iff`: when one clause `M` may stand for two clauses `A` and `B`.
-/

namespace Clause

variable {α : Type*}

/-! ## Definitions -/

/-- The assignment `v` makes an atom of `C` true. -/
def Sat (v : α → Prop) (C : Set α) : Prop := ∃ x ∈ C, v x

/-- The assignment `v` satisfies every clause of `F`. -/
def SatAll (v : α → Prop) (F : Set (Set α)) : Prop := ∀ C ∈ F, Sat v C

/-- Every assignment that satisfies `F` satisfies `D`. -/
def Entails (F : Set (Set α)) (D : Set α) : Prop := ∀ v, SatAll v F → Sat v D

/-- `F` and `G` are satisfied by the same assignments. -/
def Equiv (F G : Set (Set α)) : Prop := ∀ v, SatAll v F ↔ SatAll v G

/-- Some clause of `F` is contained in `D`. -/
def Covers (F : Set (Set α)) (D : Set α) : Prop := ∃ C ∈ F, C ⊆ D

/-! ## Entailment -/

/-- The assignment that is false exactly on `D` refutes `D`, and it refutes a
clause of `F` only when that clause lies inside `D`. -/
theorem entails_iff {F : Set (Set α)} {D : Set α} : Entails F D ↔ Covers F D := by
  constructor
  · intro h
    by_contra hno
    have hF : SatAll (fun x => x ∉ D) F := by
      intro C hC
      by_contra hsat
      refine hno ⟨C, hC, ?_⟩
      intro x hx
      by_contra hxD
      exact hsat ⟨x, hx, hxD⟩
    obtain ⟨x, hx, hnx⟩ := h _ hF
    exact hnx hx
  · rintro ⟨C, hC, hsub⟩ v hv
    obtain ⟨x, hx, hvx⟩ := hv C hC
    exact ⟨x, hsub hx, hvx⟩

theorem equiv_iff {F G : Set (Set α)} :
    Equiv F G ↔ (∀ D ∈ G, Covers F D) ∧ ∀ D ∈ F, Covers G D := by
  constructor
  · intro h
    exact ⟨fun D hD => entails_iff.mp fun v hv => (h v).mp hv D hD,
      fun D hD => entails_iff.mp fun v hv => (h v).mpr hv D hD⟩
  · rintro ⟨hG, hF⟩ v
    exact ⟨fun hv D hD => entails_iff.mpr (hG D hD) v hv,
      fun hv D hD => entails_iff.mpr (hF D hD) v hv⟩

/-! ## Cover rules -/

theorem covers_of_mem {F : Set (Set α)} {D : Set α} (h : D ∈ F) : Covers F D :=
  ⟨D, h, subset_rfl⟩

theorem covers_union {F G : Set (Set α)} {D : Set α} :
    Covers (F ∪ G) D ↔ Covers F D ∨ Covers G D := by
  constructor
  · rintro ⟨C, hC | hC, hsub⟩
    · exact .inl ⟨C, hC, hsub⟩
    · exact .inr ⟨C, hC, hsub⟩
  · rintro (⟨C, hC, hsub⟩ | ⟨C, hC, hsub⟩)
    · exact ⟨C, .inl hC, hsub⟩
    · exact ⟨C, .inr hC, hsub⟩

/-- A clause as a clause set that asks nothing when the clause has no atom. -/
def single (C : Set α) : Set (Set α) := {D | D = C ∧ C.Nonempty}

theorem covers_single {C D : Set α} : Covers (single C) D ↔ C.Nonempty ∧ C ⊆ D := by
  constructor
  · rintro ⟨_, ⟨rfl, hne⟩, hsub⟩
    exact ⟨hne, hsub⟩
  · rintro ⟨hne, hsub⟩
    exact ⟨C, ⟨rfl, hne⟩, hsub⟩

theorem satAll_union {v : α → Prop} {F G : Set (Set α)} :
    SatAll v (F ∪ G) ↔ SatAll v F ∧ SatAll v G := by
  constructor
  · intro h
    exact ⟨fun C hC => h C (.inl hC), fun C hC => h C (.inr hC)⟩
  · rintro ⟨hF, hG⟩ C (hC | hC)
    · exact hF C hC
    · exact hG C hC

theorem satAll_single {v : α → Prop} {C : Set α} :
    SatAll v (single C) ↔ (C.Nonempty → Sat v C) := by
  constructor
  · intro h hne
    exact h C ⟨rfl, hne⟩
  · rintro h _ ⟨rfl, hne⟩
    exact h hne

/-! ## Replacing two clauses by one -/

/-- Beside the clauses `F`, the clause `M` asks the same as `A` and `B` together.
`M` contains `A`: an alternative may be gained by the replacement, never lost. -/
theorem replace_iff {F : Set (Set α)} {A B M : Set α} (hAM : A ⊆ M) :
    Equiv (F ∪ single M) (F ∪ (single A ∪ single B)) ↔
      (B.Nonempty → Covers F B ∨ (M.Nonempty ∧ M ⊆ B)) ∧
      (A.Nonempty → Covers F A ∨ M ⊆ A) ∧
      (M.Nonempty → ¬ A.Nonempty → Covers F M ∨ (B.Nonempty ∧ B ⊆ M)) := by
  have keep : ∀ {G : Set (Set α)}, ∀ D ∈ F, Covers (F ∪ G) D :=
    fun D hD => covers_union.mpr (.inl (covers_of_mem hD))
  rw [equiv_iff]
  constructor
  · rintro ⟨hback, hforth⟩
    refine ⟨?_, ?_, ?_⟩
    · intro hB
      rcases covers_union.mp (hback B (.inr (.inr ⟨rfl, hB⟩))) with h | h
      · exact .inl h
      · exact .inr (covers_single.mp h)
    · intro hA
      rcases covers_union.mp (hback A (.inr (.inl ⟨rfl, hA⟩))) with h | h
      · exact .inl h
      · exact .inr (covers_single.mp h).2
    · intro hM hA
      rcases covers_union.mp (hforth M (.inr ⟨rfl, hM⟩)) with h | h
      · exact .inl h
      · rcases covers_union.mp h with h | h
        · exact absurd (covers_single.mp h).1 hA
        · exact .inr (covers_single.mp h)
  · rintro ⟨hB, hA, hM⟩
    constructor
    · rintro D (hD | ⟨rfl, hne⟩ | ⟨rfl, hne⟩)
      · exact keep D hD
      · rcases hA hne with h | h
        · exact covers_union.mpr (.inl h)
        · exact covers_union.mpr (.inr (covers_single.mpr ⟨hne.mono hAM, h⟩))
      · rcases hB hne with h | h
        · exact covers_union.mpr (.inl h)
        · exact covers_union.mpr (.inr (covers_single.mpr h))
    · rintro D (hD | ⟨rfl, hne⟩)
      · exact keep D hD
      · by_cases hAne : A.Nonempty
        · exact covers_union.mpr (.inr (covers_union.mpr (.inl (covers_single.mpr ⟨hAne, hAM⟩))))
        · rcases hM hne hAne with h | h
          · exact covers_union.mpr (.inl h)
          · exact covers_union.mpr (.inr (covers_union.mpr (.inr (covers_single.mpr h))))

end Clause
