import Mathlib.Data.List.Basic

/-!
# Lists of optional values

`l.mapM f` is `none` as soon as `f` is for one element of `l`.

Results: `mem_mapM` and `exists_of_mapM`, what the elements of the result and of the list have to
do with each other; `mapM_map_of_forall`, when no element fails; `filter_mapM`.
-/

namespace MapM

theorem mem_mapM {α β : Type} {f : α → Option β} {l : List α} {l' : List β}
    (h : l.mapM f = some l') {b : β} (hb : b ∈ l') : ∃ a ∈ l, f a = some b := by
  induction l generalizing l' with
  | nil =>
    obtain rfl := Option.some.inj h
    cases hb
  | cons a l ih =>
    rw [List.mapM_cons] at h
    obtain ⟨c, hc, h⟩ := Option.bind_eq_some_iff.mp h
    obtain ⟨cs, hcs, h⟩ := Option.bind_eq_some_iff.mp h
    obtain rfl := Option.some.inj h
    rcases List.mem_cons.mp hb with rfl | hb
    · exact ⟨a, List.mem_cons_self, hc⟩
    · obtain ⟨a', ha', hfa'⟩ := ih hcs hb
      exact ⟨a', List.mem_cons_of_mem a ha', hfa'⟩

theorem exists_of_mapM {α β : Type} {f : α → Option β} {l : List α} {l' : List β}
    (h : l.mapM f = some l') {a : α} (ha : a ∈ l) : ∃ b ∈ l', f a = some b := by
  induction l generalizing l' with
  | nil => cases ha
  | cons a' l ih =>
    rw [List.mapM_cons] at h
    obtain ⟨c, hc, h⟩ := Option.bind_eq_some_iff.mp h
    obtain ⟨cs, hcs, h⟩ := Option.bind_eq_some_iff.mp h
    obtain rfl := Option.some.inj h
    rcases List.mem_cons.mp ha with rfl | ha
    · exact ⟨c, List.mem_cons_self, hc⟩
    · obtain ⟨b, hb, hfb⟩ := ih hcs ha
      exact ⟨b, List.mem_cons_of_mem c hb, hfb⟩

theorem mapM_map_of_forall {α β γ : Type} {f : β → Option γ} {g : α → β} {k : α → γ} {l : List α}
    (h : ∀ x ∈ l, f (g x) = some (k x)) : (l.map g).mapM f = some (l.map k) := by
  induction l with
  | nil => rfl
  | cons x l ih =>
    rw [List.map_cons, List.mapM_cons, h x List.mem_cons_self,
      ih fun y hy => h y (List.mem_cons_of_mem _ hy)]
    rfl

theorem filter_mapM {α β : Type} {f : α → Option β} {p : α → Bool} {q : β → Bool}
    (hpq : ∀ a b, f a = some b → q b = p a) {l : List α} {l' : List β}
    (h : l.mapM f = some l') : (l.filter p).mapM f = some (l'.filter q) := by
  induction l generalizing l' with
  | nil =>
    obtain rfl := Option.some.inj h
    rfl
  | cons a l ih =>
    rw [List.mapM_cons] at h
    obtain ⟨b, hb, h⟩ := Option.bind_eq_some_iff.mp h
    obtain ⟨bs, hbs, h⟩ := Option.bind_eq_some_iff.mp h
    obtain rfl := Option.some.inj h
    rw [List.filter_cons, List.filter_cons, hpq a b hb]
    split
    · rw [List.mapM_cons, hb, ih hbs]
      rfl
    · exact ih hbs

end MapM
