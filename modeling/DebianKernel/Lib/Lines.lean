import DebianKernel.Lib.Text

/-!
# Reading a text line by line

`lines t` are the lines of `t` as a file handle returns them: each with its
newline, the last one possibly without.

Results: `flatten_lines`, `lines_append` (a text that ends with a newline is cut
off cleanly), `lines_flatten` (complete lines are read back), `lines_flatten_of_length`
(any lines are, if there are as many).
-/

namespace Text

/-! ## Definitions -/

def lines : Text → List Text
  | [] => []
  | c :: t =>
    if c = '\n' then [c] :: lines t
    else match lines t with
      | [] => [[c]]
      | l :: ls => (c :: l) :: ls

/-- A complete line: a body without newlines and the newline. -/
def IsLine (l : Text) : Prop := ∃ body : Text, '\n' ∉ body ∧ l = body ++ ['\n']

/-- The text is a sequence of complete lines. -/
def Terminated (t : Text) : Prop := t = [] ∨ ∃ p : Text, t = p ++ ['\n']

/-! ## The first line -/

@[simp] theorem lines_nil : lines [] = [] := rfl

theorem lines_cons_newline (t : Text) : lines ('\n' :: t) = ['\n'] :: lines t := rfl

theorem lines_cons {c : Char} (h : c ≠ '\n') (t : Text) :
    lines (c :: t) = (c :: (lines t).headD []) :: (lines t).tail := by
  rw [lines, if_neg h]
  cases lines t <;> rfl

theorem lines_ne_nil {t : Text} (h : t ≠ []) : lines t ≠ [] := by
  cases t with
  | nil => exact absurd rfl h
  | cons c t =>
    by_cases hc : c = '\n'
    · rw [hc, lines_cons_newline]
      exact List.cons_ne_nil _ _
    · rw [lines_cons hc]
      exact List.cons_ne_nil _ _

/-- A body without newlines, followed by a newline, is read as one line. -/
theorem lines_body_newline {body : Text} (h : '\n' ∉ body) (t : Text) :
    lines (body ++ '\n' :: t) = (body ++ ['\n']) :: lines t := by
  induction body with
  | nil => exact lines_cons_newline t
  | cons c body ih =>
    rw [List.mem_cons, not_or] at h
    rw [List.cons_append, lines_cons (Ne.symm h.1), ih h.2]
    rfl

theorem lines_body {body : Text} (h : '\n' ∉ body) (hne : body ≠ []) : lines body = [body] := by
  induction body with
  | nil => exact absurd rfl hne
  | cons c body ih =>
    rw [List.mem_cons, not_or] at h
    rw [lines_cons (Ne.symm h.1)]
    cases body with
    | nil => rfl
    | cons d body => rw [ih h.2 (List.cons_ne_nil _ _)]; rfl

/-- The first line and the rest, or a single line without a newline. -/
theorem lines_cases (t : Text) :
    t = [] ∨ ('\n' ∉ t ∧ t ≠ [] ∧ lines t = [t]) ∨
      ∃ body rest, '\n' ∉ body ∧ t = body ++ '\n' :: rest ∧
        lines t = (body ++ ['\n']) :: lines rest := by
  by_cases hmem : '\n' ∈ t
  · obtain ⟨body, rest, rfl, hbody⟩ := List.eq_append_cons_of_mem hmem
    exact .inr (.inr ⟨body, rest, hbody, rfl, lines_body_newline hbody rest⟩)
  · by_cases hne : t = []
    · exact .inl hne
    · exact .inr (.inl ⟨hmem, hne, lines_body hmem hne⟩)

/-! ## All lines -/

theorem flatten_lines (t : Text) : (lines t).flatten = t := by
  induction t with
  | nil => rfl
  | cons c t ih =>
    by_cases hc : c = '\n'
    · rw [hc, lines_cons_newline, List.flatten_cons, ih]
      rfl
    · rw [lines_cons hc]
      cases hl : lines t with
      | nil => rw [hl] at ih; rw [← ih]; rfl
      | cons l ls => rw [hl] at ih; rw [← ih]; rfl

theorem lines_cons_isLine {l : Text} (h : IsLine l) (t : Text) : lines (l ++ t) = l :: lines t := by
  obtain ⟨body, hbody, rfl⟩ := h
  rw [List.append_assoc]
  exact lines_body_newline hbody t

/-- Complete lines are read back as they were written. -/
theorem lines_flatten {ls : List Text} (h : ∀ l ∈ ls, IsLine l) : lines ls.flatten = ls := by
  induction ls with
  | nil => rfl
  | cons l ls ih =>
    rw [List.flatten_cons, lines_cons_isLine (h l List.mem_cons_self),
      ih fun l' hl' => h l' (List.mem_cons_of_mem _ hl')]

/-- The first lines of a text, put together, are read back as the same lines. -/
theorem lines_flatten_prefix {t : Text} {used rest : List Text} (h : lines t = used ++ rest) :
    lines used.flatten = used := by
  rcases lines_cases t with rfl | ⟨hno, hne, hlines⟩ | ⟨body, tail, hbody, rfl, hlines⟩
  · rw [lines_nil, List.nil_eq, List.append_eq_nil_iff] at h
    rw [h.1]
    rfl
  · rw [hlines] at h
    cases used with
    | nil => rfl
    | cons l used =>
      obtain ⟨rfl, hused⟩ := List.cons.inj h
      obtain ⟨rfl, -⟩ := List.append_eq_nil_iff.mp hused.symm
      rw [List.flatten_singleton, hlines]
  · rw [hlines] at h
    cases used with
    | nil => rfl
    | cons l used =>
      obtain ⟨rfl, hused⟩ := List.cons.inj h
      rw [List.flatten_cons, lines_cons_isLine ⟨body, hbody, rfl⟩, lines_flatten_prefix hused]
termination_by t.length

/-- The lines left of a text are the lines of what is left. -/
theorem lines_flatten_suffix {t : Text} {used rest : List Text} (h : lines t = used ++ rest) :
    lines rest.flatten = rest := by
  induction used generalizing t with
  | nil =>
    rw [List.nil_append] at h
    rw [← h, flatten_lines]
  | cons l used ih =>
    rcases lines_cases t with rfl | ⟨-, -, hlines⟩ | ⟨body, tail, -, -, hlines⟩
    · cases h
    · rw [hlines, List.cons_append] at h
      obtain ⟨-, hrest⟩ := List.cons.inj h
      rw [(List.append_eq_nil_iff.mp hrest.symm).2]
      rfl
    · rw [hlines, List.cons_append] at h
      exact ih (List.cons.inj h).2

theorem terminated_nil : Terminated [] := .inl rfl

theorem terminated_newline (p : Text) : Terminated (p ++ ['\n']) := .inr ⟨p, rfl⟩

theorem Terminated.append {s t : Text} (hs : Terminated s) (ht : Terminated t) :
    Terminated (s ++ t) := by
  rcases ht with rfl | ⟨p, rfl⟩
  · rwa [List.append_nil]
  · exact .inr ⟨s ++ p, by rw [List.append_assoc]⟩

/-- Removing the first line leaves a terminated text terminated. -/
theorem Terminated.rest {body rest : Text} (h : Terminated (body ++ '\n' :: rest)) :
    Terminated rest := by
  cases rest using List.reverseRecOn with
  | nil => exact terminated_nil
  | append_singleton rest c =>
    rcases h with h | ⟨p, hp⟩
    · simp at h
    · have hlast : body ++ '\n' :: (rest ++ [c]) = (body ++ '\n' :: rest) ++ [c] := by simp
      rw [hlast] at hp
      obtain ⟨_, hc⟩ := List.append_inj' hp rfl
      rw [List.singleton_inj.mp hc]
      exact terminated_newline rest

/-- The lines of a terminated text are complete. -/
theorem isLine_of_mem_lines {t : Text} (ht : Terminated t) {l : Text} (hl : l ∈ lines t) :
    IsLine l := by
  rcases lines_cases t with rfl | ⟨hno, hne, _⟩ | ⟨body, rest, hbody, rfl, hlines⟩
  · cases hl
  · rcases ht with rfl | ⟨p, rfl⟩
    · exact absurd rfl hne
    · simp at hno
  · rw [hlines, List.mem_cons] at hl
    cases hl with
    | inl h => exact ⟨body, hbody, h⟩
    | inr h => exact isLine_of_mem_lines ht.rest h
termination_by t.length

/-- Complete lines make a terminated text. -/
theorem terminated_flatten {ls : List Text} (h : ∀ l ∈ ls, IsLine l) : Terminated ls.flatten := by
  induction ls with
  | nil => exact terminated_nil
  | cons l ls ih =>
    obtain ⟨body, -, hl⟩ := h l List.mem_cons_self
    have hterm : Terminated l := .inr ⟨body, hl⟩
    exact hterm.append (ih fun l' hl' => h l' (List.mem_cons_of_mem _ hl'))

theorem lines_append {s : Text} (hs : Terminated s) (t : Text) :
    lines (s ++ t) = lines s ++ lines t := by
  rcases lines_cases s with rfl | ⟨hno, hne, _⟩ | ⟨body, rest, hbody, rfl, hlines⟩
  · rfl
  · rcases hs with rfl | ⟨p, rfl⟩
    · exact absurd rfl hne
    · simp at hno
  · rw [hlines, List.append_assoc, List.cons_append, lines_body_newline hbody,
      lines_append hs.rest, List.cons_append]
termination_by s.length

/-! ## How many lines there are -/

/-- The beginning of a line is put in front of the first line. -/
theorem length_lines_append {l t : Text} (h : '\n' ∉ l) (ht : t ≠ []) :
    (lines (l ++ t)).length = (lines t).length := by
  induction l with
  | nil => rfl
  | cons c l ih =>
    rw [List.mem_cons, not_or] at h
    have hne : lines (l ++ t) ≠ [] := lines_ne_nil (List.append_ne_nil_of_right_ne_nil l ht)
    rw [List.cons_append, lines_cons (Ne.symm h.1), ← ih h.2]
    obtain ⟨l', ls, hls⟩ := List.exists_cons_of_ne_nil hne
    rw [hls]
    rfl

/-- A line of a file: complete, or the beginning of a line that was never finished. -/
def IsLineOrEnd (l : Text) : Prop := IsLine l ∨ '\n' ∉ l ∧ l ≠ []

theorem lineOrEnd_of_mem_lines {t l : Text} (h : l ∈ lines t) : IsLineOrEnd l := by
  rcases lines_cases t with rfl | ⟨hno, hne, hlines⟩ | ⟨body, rest, hbody, rfl, hlines⟩
  · cases h
  · rw [hlines, List.mem_singleton] at h
    exact h ▸ .inr ⟨hno, hne⟩
  · rw [hlines, List.mem_cons] at h
    rcases h with rfl | h
    · exact .inl ⟨body, hbody, rfl⟩
    · exact lineOrEnd_of_mem_lines h
termination_by t.length

theorem length_lines_flatten_le {ls : List Text} (h : ∀ l ∈ ls, IsLineOrEnd l) :
    (lines ls.flatten).length ≤ ls.length := by
  induction ls with
  | nil => exact Nat.le_refl 0
  | cons l ls ih =>
    have hrest := ih fun l' hl' => h l' (List.mem_cons_of_mem _ hl')
    rw [List.flatten_cons]
    rcases h l List.mem_cons_self with hl | ⟨hl, hne⟩
    · rw [lines_cons_isLine hl]
      exact Nat.succ_le_succ hrest
    · rcases eq_or_ne ls.flatten [] with hnil | hflat
      · rw [hnil, List.append_nil, lines_body hl hne]
        exact Nat.succ_le_succ (Nat.zero_le _)
      · rw [length_lines_append hl hflat]
        exact Nat.le_succ_of_le hrest

/-- Lines that are put together are read back when none of them is lost. -/
theorem lines_flatten_of_length {ls : List Text} (h : ∀ l ∈ ls, IsLineOrEnd l)
    (hlength : (lines ls.flatten).length = ls.length) : lines ls.flatten = ls := by
  induction ls with
  | nil => rfl
  | cons l ls ih =>
    have hls : ∀ l ∈ ls, IsLineOrEnd l := fun l' hl' => h l' (List.mem_cons_of_mem _ hl')
    rw [List.flatten_cons] at hlength ⊢
    rcases h l List.mem_cons_self with hl | ⟨hl, hne⟩
    · rw [lines_cons_isLine hl] at hlength ⊢
      rw [ih hls (Nat.succ.inj hlength)]
    · rcases eq_or_ne ls.flatten [] with hnil | hflat
      · rw [hnil, List.append_nil, lines_body hl hne] at hlength ⊢
        have hls' : ls = [] := List.eq_nil_of_length_eq_zero (Nat.succ.inj hlength).symm
        rw [hls']
      · rw [length_lines_append hl hflat] at hlength
        have hle := length_lines_flatten_le hls
        rw [hlength] at hle
        exact absurd hle (Nat.not_succ_le_self _)

/-- Every line but the last one is complete. -/
theorem lines_pairwise (t : Text) : (lines t).Pairwise fun l _ => IsLine l := by
  rcases lines_cases t with rfl | ⟨-, -, hlines⟩ | ⟨body, rest, hbody, rfl, hlines⟩
  · exact List.Pairwise.nil
  · rw [hlines]
    exact List.pairwise_singleton _ _
  · rw [hlines]
    exact List.pairwise_cons.mpr ⟨fun _ _ => ⟨body, hbody, rfl⟩, lines_pairwise rest⟩
termination_by t.length

theorem lines_flatten_of_pairwise {ls : List Text} (h : ∀ l ∈ ls, IsLineOrEnd l)
    (hpairwise : ls.Pairwise fun l _ => IsLine l) : lines ls.flatten = ls := by
  induction ls with
  | nil => rfl
  | cons l ls ih =>
    obtain ⟨hl, hpairwise⟩ := List.pairwise_cons.mp hpairwise
    have hrest := ih (fun l' hl' => h l' (List.mem_cons_of_mem _ hl')) hpairwise
    rw [List.flatten_cons]
    rcases h l List.mem_cons_self with hline | ⟨hno, hne⟩
    · rw [lines_cons_isLine hline, hrest]
    · cases ls with
      | nil => rw [List.flatten_nil, List.append_nil, lines_body hno hne]
      | cons l' ls => rw [lines_cons_isLine (hl l' List.mem_cons_self), hrest]

/-- Texts with a newline at the end have one line each, if all of them have so many. -/
theorem newline_not_mem_of_length {ts : List Text}
    (h : (lines (ts.flatMap (· ++ ['\n']))).length = ts.length) : ∀ t ∈ ts, '\n' ∉ t := by
  have hone : ∀ t : Text, 1 ≤ (lines (t ++ ['\n'])).length ∧
      ((lines (t ++ ['\n'])).length = 1 → '\n' ∉ t) := by
    intro t
    rcases lines_cases (t ++ ['\n']) with hnil | ⟨hno, -⟩ | ⟨body, rest, hbody, heq, hlines⟩
    · simp at hnil
    · simp at hno
    · rw [hlines]
      refine ⟨Nat.succ_le_succ (Nat.zero_le _), fun hlength => ?_⟩
      have hrest : rest = [] := by
        by_contra hne
        exact lines_ne_nil hne (List.eq_nil_of_length_eq_zero (Nat.succ.inj hlength))
      rw [hrest] at heq
      rw [List.append_cancel_right heq]
      exact hbody
  have hle : ∀ ts : List Text, ts.length ≤ (lines (ts.flatMap (· ++ ['\n']))).length := by
    intro ts
    induction ts with
    | nil => exact Nat.le_refl 0
    | cons t ts ih =>
      rw [List.flatMap_cons, lines_append (terminated_newline t), List.length_append,
        List.length_cons, Nat.add_comm]
      exact Nat.add_le_add (hone t).1 ih
  induction ts with
  | nil => simp
  | cons t ts ih =>
    rw [List.flatMap_cons, lines_append (terminated_newline t), List.length_append,
      List.length_cons, Nat.add_comm] at h
    have hts := hle ts
    have ht := (hone t).1
    have hlast : (lines (t ++ ['\n'])).length = 1 := by omega
    have hrest : (lines (ts.flatMap (· ++ ['\n']))).length = ts.length := by omega
    intro t' ht'
    rcases List.mem_cons.mp ht' with rfl | ht'
    · exact (hone _).2 hlast
    · exact ih hrest t' ht'

end Text
