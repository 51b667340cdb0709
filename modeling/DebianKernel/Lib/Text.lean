import Mathlib.Data.List.DropRight
import Mathlib.Data.List.Induction

/-!
# Text as a list of characters

A file or a string is the list of its characters. A byte string is the list of
its bytes, each read as the character of that code.
-/

/-- The characters of a file, a line or a string, in order. -/
abbrev Text := List Char

instance : Coe String Text := ⟨String.toList⟩

namespace Text

/-- The six characters of the regular expression class `\s` that are ASCII. What else Unicode
has as white space is a character like others here. -/
def isSpace (c : Char) : Bool :=
  c = ' ' ∨ c = '\t' ∨ c = '\n' ∨ c = '\r' ∨ c = '\x0b' ∨ c = '\x0c'

/-- What a computation over the characters of a text shows of each of them. -/
theorem forall_mem_of_all {t : Text} {p : Char → Prop} [DecidablePred p]
    (h : t.all (p ·) = true) : ∀ c ∈ t, p c :=
  fun c hc => of_decide_eq_true (List.all_eq_true.mp h c hc)

theorem forall_mem_of_option {o : Option Char} {p : Char → Prop} [DecidablePred p]
    (h : o.all (p ·) = true) : ∀ c ∈ o, p c := by
  rintro c rfl
  exact of_decide_eq_true h

/-- The last character outside a class cuts a text in one way. -/
theorem split_unique {p : Char → Bool} {u u' a a' : Text} {c c' : Char}
    (h : u ++ c :: a = u' ++ c' :: a') (ha : ∀ d ∈ a, p d = true) (ha' : ∀ d ∈ a', p d = true)
    (hc : p c = false) (hc' : p c' = false) : u = u' ∧ c = c' ∧ a = a' := by
  rcases List.append_eq_append_iff.mp h with ⟨l, rfl, hl⟩ | ⟨l, rfl, hl⟩
  · cases l with
    | nil => exact ⟨(List.append_nil u).symm, List.cons.inj hl⟩
    | cons d l =>
      obtain ⟨-, rfl⟩ := List.cons.inj hl
      exact absurd (ha c' (List.mem_append_right _ List.mem_cons_self)) (by simp [hc'])
  · cases l with
    | nil =>
      obtain ⟨rfl, rfl⟩ := List.cons.inj hl
      exact ⟨List.append_nil u', rfl, rfl⟩
    | cons d l =>
      obtain ⟨-, rfl⟩ := List.cons.inj hl
      exact absurd (ha' c (List.mem_append_right _ List.mem_cons_self)) (by simp [hc])

/-- A character that occurs once cuts a text in one way. -/
theorem cut_once {u u' a a' : Text} {c : Char} (h : u ++ c :: a = u' ++ c :: a') (hu : c ∉ u)
    (ha : c ∉ a) : u = u' ∧ a = a' := by
  rcases List.append_eq_append_iff.mp h with ⟨l, rfl, hl⟩ | ⟨l, rfl, hl⟩
  · cases l with
    | nil => exact ⟨(List.append_nil u).symm, (List.cons.inj hl).2⟩
    | cons d l =>
      obtain ⟨-, rfl⟩ := List.cons.inj hl
      exact absurd (List.mem_append_right l List.mem_cons_self) ha
  · cases l with
    | nil => exact ⟨List.append_nil u', (List.cons.inj hl).2.symm⟩
    | cons d l =>
      obtain ⟨rfl, -⟩ := List.cons.inj hl
      exact absurd (List.mem_append_right u' List.mem_cons_self) hu

/-- Trailing elements are dropped only behind the last element that stays. -/
theorem rdropWhile_append {p : Char → Bool} {s : Text} (hne : s ≠ [])
    (hs : p (s.getLast hne) = false) (t : Text) :
    (s ++ t).rdropWhile p = s ++ t.rdropWhile p := by
  induction t using List.reverseRecOn with
  | nil =>
    rw [List.append_nil, List.rdropWhile_nil, List.append_nil]
    exact List.rdropWhile_eq_self_iff.mpr fun _ => by rw [hs]; decide
  | append_singleton t c ih =>
    rw [← List.append_assoc, List.rdropWhile_concat, List.rdropWhile_concat, ih]
    split
    · rfl
    · exact List.append_assoc s t [c]

/-- The text without the blanks at both ends. -/
def strip (t : Text) : Text := (t.dropWhile isSpace).rdropWhile isSpace

theorem strip_of_no_space {t : Text} (h : ∀ c ∈ t, isSpace c = false) : strip t = t := by
  have hdrop : t.dropWhile isSpace = t := by
    cases t with
    | nil => rfl
    | cons c t => simp [h c List.mem_cons_self]
  rw [strip, hdrop, List.rdropWhile_eq_self_iff]
  intro hne
  simp [h _ (List.getLast_mem hne)]

/-- Blanks around a text that has none at its ends are taken off. -/
theorem strip_append_of_space {t s : Text} (hhead : ∀ c ∈ t.head?, isSpace c = false)
    (hlast : ∀ c ∈ t.getLast?, isSpace c = false) (hs : ∀ c ∈ s, isSpace c = true) :
    strip (t ++ s) = t := by
  have hblank : s.rdropWhile isSpace = [] := List.rdropWhile_eq_nil_iff.mpr hs
  cases t with
  | nil =>
    rw [List.nil_append, strip, List.dropWhile_eq_nil_iff.mpr hs]
    rfl
  | cons c t =>
    have hdrop : (c :: t ++ s).dropWhile isSpace = c :: t ++ s := by
      rw [List.cons_append, List.dropWhile_cons_of_neg]
      rw [hhead c rfl]
      exact Bool.false_ne_true
    rw [strip, hdrop, rdropWhile_append (List.cons_ne_nil c t), hblank, List.append_nil]
    exact hlast _ (List.getLast?_eq_some_getLast _)

theorem strip_getLast? (t : Text) : ∀ c ∈ (strip t).getLast?, isSpace c = false := by
  intro c hc
  have hne : strip t ≠ [] := by
    intro h
    rw [h] at hc
    cases hc
  rw [Option.mem_def, List.getLast?_eq_some_getLast hne] at hc
  rw [← Option.some.inj hc]
  exact Bool.eq_false_iff.mpr (List.rdropWhile_last_not _ _ hne)

end Text
