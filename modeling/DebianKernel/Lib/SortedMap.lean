import Mathlib.Data.List.Basic
import Mathlib.Order.Lattice

/-!
# Maps in the order of their keys

A finite map is the list of its entries, in strictly increasing order of the keys. The order
is part of the value, so two maps that find the same are the same.

Results:
1. `find?_insert_self`, `find?_insert_ne`, and the same for `erase`: what one change does.
2. `find?_eq_some_iff`, `ext`: lookup and entries; maps are told apart by what is found.
3. `flatMap_key`, `foldl_key`: what is made of the entries, seen from one key.
-/

structure SortedMap (κ ν : Type*) [LinearOrder κ] where
  entries : List (κ × ν)
  sorted : entries.Pairwise fun p q => p.1 < q.1

namespace SortedMap

variable {κ ν : Type*} [LinearOrder κ]

/-! ## Entry lists -/

/-- Adds an entry at its place, or replaces the one with the same key. -/
def insertEntries (k : κ) (v : ν) : List (κ × ν) → List (κ × ν)
  | [] => [(k, v)]
  | p :: ps =>
    if k < p.1 then (k, v) :: p :: ps
    else if p.1 < k then p :: insertEntries k v ps
    else (k, v) :: ps

theorem mem_insertEntries {k : κ} {v : ν} {l : List (κ × ν)}
    (h : l.Pairwise fun p q => p.1 < q.1) {q : κ × ν} :
    q ∈ insertEntries k v l ↔ q = (k, v) ∨ q.1 ≠ k ∧ q ∈ l := by
  induction l with
  | nil => simp [insertEntries]
  | cons p ps ih =>
    obtain ⟨hp, hps⟩ := List.pairwise_cons.mp h
    rw [insertEntries]
    split
    · next hk =>
      have hne : ∀ r ∈ p :: ps, r.1 ≠ k := by
        intro r hr
        rcases List.mem_cons.mp hr with rfl | hr
        · exact hk.ne'
        · exact (hk.trans (hp r hr)).ne'
      rw [List.mem_cons]
      exact or_congr_right ⟨fun hq => ⟨hne q hq, hq⟩, And.right⟩
    · split
      · next hk =>
        rw [List.mem_cons, ih hps, List.mem_cons]
        constructor
        · rintro (rfl | rfl | ⟨hne, hq⟩)
          · exact .inr ⟨hk.ne, .inl rfl⟩
          · exact .inl rfl
          · exact .inr ⟨hne, .inr hq⟩
        · rintro (rfl | ⟨hne, rfl | hq⟩)
          · exact .inr (.inl rfl)
          · exact .inl rfl
          · exact .inr (.inr ⟨hne, hq⟩)
      · next hlt hgt =>
        obtain rfl : p.1 = k := le_antisymm (not_lt.mp hlt) (not_lt.mp hgt)
        rw [List.mem_cons, List.mem_cons]
        constructor
        · rintro (rfl | hq)
          · exact .inl rfl
          · exact .inr ⟨(hp q hq).ne', .inr hq⟩
        · rintro (rfl | ⟨hne, rfl | hq⟩)
          · exact .inl rfl
          · exact absurd rfl hne
          · exact .inr hq

theorem sorted_insertEntries (k : κ) (v : ν) {l : List (κ × ν)}
    (h : l.Pairwise fun p q => p.1 < q.1) :
    (insertEntries k v l).Pairwise fun p q => p.1 < q.1 := by
  induction l with
  | nil => exact List.pairwise_singleton _ _
  | cons p ps ih =>
    obtain ⟨hp, hps⟩ := List.pairwise_cons.mp h
    rw [insertEntries]
    split
    · next hk =>
      refine List.pairwise_cons.mpr ⟨fun q hq => ?_, h⟩
      rcases List.mem_cons.mp hq with rfl | hq
      · exact hk
      · exact hk.trans (hp q hq)
    · split
      · next hk =>
        refine List.pairwise_cons.mpr ⟨fun q hq => ?_, ih hps⟩
        rcases (mem_insertEntries hps).mp hq with rfl | ⟨-, hq⟩
        · exact hk
        · exact hp q hq
      · next hlt hgt =>
        obtain rfl : p.1 = k := le_antisymm (not_lt.mp hlt) (not_lt.mp hgt)
        exact List.pairwise_cons.mpr ⟨hp, hps⟩

theorem eq_of_mem_keys {l : List (κ × ν)} (h : l.Pairwise fun p q => p.1 < q.1) {p q : κ × ν}
    (hp : p ∈ l) (hq : q ∈ l) (hk : p.1 = q.1) : p = q := by
  induction l with
  | nil => cases hp
  | cons r rs ih =>
    obtain ⟨hr, hrs⟩ := List.pairwise_cons.mp h
    rcases List.mem_cons.mp hp with hpr | hp'
    · rcases List.mem_cons.mp hq with hqr | hq'
      · rw [hpr, hqr]
      · exact absurd hk (hpr ▸ (hr q hq').ne)
    · rcases List.mem_cons.mp hq with hqr | hq'
      · exact absurd hk (hqr ▸ (hr p hp').ne')
      · exact ih hrs hp' hq'

/-! ## Maps -/

def empty : SortedMap κ ν := ⟨[], List.Pairwise.nil⟩

def find? (m : SortedMap κ ν) (k : κ) : Option ν := (m.entries.find? (·.1 = k)).map Prod.snd

def insert (m : SortedMap κ ν) (k : κ) (v : ν) : SortedMap κ ν :=
  ⟨insertEntries k v m.entries, sorted_insertEntries k v m.sorted⟩

def erase (m : SortedMap κ ν) (k : κ) : SortedMap κ ν :=
  ⟨m.entries.filter (·.1 ≠ k), m.sorted.filter _⟩

theorem find?_eq_some_iff {m : SortedMap κ ν} {k : κ} {v : ν} :
    m.find? k = some v ↔ (k, v) ∈ m.entries := by
  rw [find?, Option.map_eq_some_iff]
  constructor
  · rintro ⟨p, hp, rfl⟩
    have hk : p.1 = k := by simpa using List.find?_some hp
    rw [← hk]
    exact List.mem_of_find?_eq_some hp
  · intro hmem
    have hsome : (m.entries.find? (·.1 = k)).isSome = true :=
      List.find?_isSome.mpr ⟨(k, v), hmem, by simp⟩
    obtain ⟨p, hp⟩ := Option.isSome_iff_exists.mp hsome
    have hk : p.1 = k := by simpa using List.find?_some hp
    have hpv := eq_of_mem_keys m.sorted (List.mem_of_find?_eq_some hp) hmem hk
    exact ⟨p, hp, by rw [hpv]⟩

@[simp] theorem find?_empty (k : κ) : (empty : SortedMap κ ν).find? k = none := rfl

@[simp] theorem find?_insert_self (m : SortedMap κ ν) (k : κ) (v : ν) :
    (m.insert k v).find? k = some v :=
  find?_eq_some_iff.mpr ((mem_insertEntries m.sorted).mpr (.inl rfl))

theorem find?_insert_ne (m : SortedMap κ ν) {k k' : κ} (v : ν) (h : k' ≠ k) :
    (m.insert k v).find? k' = m.find? k' := by
  refine Option.ext fun w => ?_
  rw [find?_eq_some_iff, insert, mem_insertEntries m.sorted, find?_eq_some_iff]
  simp [h]

@[simp] theorem find?_erase_self (m : SortedMap κ ν) (k : κ) : (m.erase k).find? k = none := by
  refine Option.eq_none_iff_forall_ne_some.mpr fun w hw => ?_
  rw [find?_eq_some_iff, erase, List.mem_filter] at hw
  simp at hw

theorem find?_erase_ne (m : SortedMap κ ν) {k k' : κ} (h : k' ≠ k) :
    (m.erase k).find? k' = m.find? k' := by
  refine Option.ext fun w => ?_
  rw [find?_eq_some_iff, erase, List.mem_filter, find?_eq_some_iff]
  simp [h]

/-- Maps in which the same is found are the same. -/
theorem ext {m m' : SortedMap κ ν} (h : ∀ k, m.find? k = m'.find? k) : m = m' := by
  have hmem : ∀ p, p ∈ m.entries ↔ p ∈ m'.entries := by
    intro p
    rw [← find?_eq_some_iff, ← find?_eq_some_iff, h]
  have hnodup : ∀ m : SortedMap κ ν, m.entries.Nodup := fun m =>
    m.sorted.imp fun {p q} hpq heq => hpq.ne (congrArg Prod.fst heq)
  have hperm := (List.perm_ext_iff_of_nodup (hnodup m) (hnodup m')).mpr hmem
  have heq : m.entries = m'.entries :=
    hperm.eq_of_pairwise (fun p q _ _ hpq hqp => absurd hpq hqp.asymm) m.sorted m'.sorted
  obtain ⟨entries, _⟩ := m
  obtain ⟨entries', _⟩ := m'
  obtain rfl : entries = entries' := heq
  rfl

/-- What a function makes of the entries, when it makes something of one key only. -/
theorem flatMap_key {β : Type*} (m : SortedMap κ ν) {k : κ} {f : κ × ν → List β}
    (h : ∀ p, p.1 ≠ k → f p = []) :
    m.entries.flatMap f = ((m.find? k).map fun v => f (k, v)).getD [] := by
  obtain ⟨entries, hsorted⟩ := m
  rw [find?]
  induction entries with
  | nil => rfl
  | cons p ps ih =>
    obtain ⟨hp, hps⟩ := List.pairwise_cons.mp hsorted
    rw [List.flatMap_cons, List.find?_cons, ih hps]
    rcases eq_or_ne p.1 k with rfl | hne
    · have hnone : ps.find? (fun q => decide (q.1 = p.1)) = none :=
        List.find?_eq_none.mpr fun q hq => by simpa using (hp q hq).ne'
      rw [hnone]
      simp
    · simp [h p hne, hne]

/-- A fold over the entries, seen from one key: what holds before the key is met, and what
holds from then on. -/
theorem foldl_key {σ : Type*} (m : SortedMap κ ν) {f : σ → κ × ν → σ} {s : σ} (n : κ)
    (Before : σ → Prop) (After : ν → σ → Prop) (hinit : Before s)
    (hbefore : ∀ k v s, k ≠ n → Before s → Before (f s (k, v)))
    (hafter : ∀ k v w s, k ≠ n → After w s → After w (f s (k, v)))
    (hkey : ∀ v s, Before s → After v (f s (n, v))) :
    (∀ v, m.find? n = some v → After v (m.entries.foldl f s)) ∧
      (m.find? n = none → Before (m.entries.foldl f s)) := by
  have hrest : ∀ (l : List (κ × ν)) (v : ν) (s : σ), (∀ p ∈ l, p.1 ≠ n) → After v s →
      After v (l.foldl f s) := by
    intro l
    induction l with
    | nil => exact fun _ _ _ h => h
    | cons p l ih =>
      intro v s hl h
      refine ih v _ (fun q hq => hl q (List.mem_cons_of_mem p hq)) ?_
      exact hafter p.1 p.2 v s (hl p List.mem_cons_self) h
  have hall : ∀ (l : List (κ × ν)) (s : σ), (l.Pairwise fun p q => p.1 < q.1) → Before s →
      (∀ v, (n, v) ∈ l → After v (l.foldl f s)) ∧
        ((∀ p ∈ l, p.1 ≠ n) → Before (l.foldl f s)) := by
    intro l
    induction l with
    | nil => exact fun s _ h => ⟨nofun, fun _ => h⟩
    | cons p l ih =>
      intro s hsorted h
      obtain ⟨hp, hl⟩ := List.pairwise_cons.mp hsorted
      rcases eq_or_ne p.1 n with rfl | hne
      · refine ⟨fun v hv => ?_, fun hno => absurd rfl (hno p List.mem_cons_self)⟩
        have hlater : ∀ q ∈ l, q.1 ≠ p.1 := fun q hq => (hp q hq).ne'
        rcases List.mem_cons.mp hv with hpv | hv
        · rw [← hpv]
          exact hrest l v _ hlater (hkey v s h)
        · exact absurd rfl (hlater (p.1, v) hv)
      · obtain ⟨hmet, hno⟩ := ih (f s p) hl (hbefore p.1 p.2 s hne h)
        refine ⟨fun v hv => hmet v ?_, fun h' => hno fun q hq => h' q (List.mem_cons_of_mem p hq)⟩
        rcases List.mem_cons.mp hv with hpv | hv
        · exact absurd (congrArg Prod.fst hpv).symm hne
        · exact hv
  obtain ⟨hmet, hno⟩ := hall m.entries s m.sorted hinit
  refine ⟨fun v hv => hmet v (find?_eq_some_iff.mp hv), fun hnone => hno fun p hp hpn => ?_⟩
  have hfind := find?_eq_some_iff.mpr hp
  rw [hpn, hnone] at hfind
  cases hfind

end SortedMap
