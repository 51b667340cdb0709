import DebianKernel.Lib.Lines

/-!
# Editing a text line by line

`editLines pre rewrite` goes over the lines of a text. A line for which there is a new
line is kept behind the prefix `pre`, and the new line follows it.

Results: `lines_editLines_iff`, the lines of the output are those that were written, if
and only if every line with a new one is complete; `foldl_editLines`, what a reader of
the lines finds in the output.
-/

namespace Text

variable {pre : Text} {rewrite : Text → Option Text}

/-- What is written for a line. -/
def editLine (pre : Text) (rewrite : Text → Option Text) (line : Text) : List Text :=
  match rewrite line with
  | some new => [pre ++ line, new]
  | none => [line]

def editLines (pre : Text) (rewrite : Text → Option Text) (t : Text) : Text :=
  ((lines t).flatMap (editLine pre rewrite)).flatten

/-- Every line with a new one is complete. -/
def EndsEdited (rewrite : Text → Option Text) (t : Text) : Prop :=
  ∀ line ∈ lines t, rewrite line ≠ none → IsLine line

/-- Only the last line of a text can be without a newline. -/
theorem isLine_of_lines_append {t : Text} {ls ls' : List Text} (h : lines t = ls ++ ls')
    (hne : ls' ≠ []) {l : Text} (hl : l ∈ ls) : IsLine l := by
  induction ls generalizing t with
  | nil => cases hl
  | cons l₀ ls ih =>
    rcases lines_cases t with rfl | ⟨-, -, hlines⟩ | ⟨body, rest, hbody, rfl, hlines⟩
    · cases h
    · rw [hlines, List.cons_append] at h
      exact absurd (List.append_eq_nil_iff.mp (List.cons.inj h).2.symm).2 hne
    · rw [hlines, List.cons_append] at h
      obtain ⟨rfl, hrest⟩ := List.cons.inj h
      cases hl with
      | head => exact ⟨body, hbody, rfl⟩
      | tail _ hl => exact ih hrest hl

theorem IsLine.append {p l : Text} (hp : '\n' ∉ p) (hl : IsLine l) : IsLine (p ++ l) := by
  obtain ⟨body, hbody, rfl⟩ := hl
  exact ⟨p ++ body, by simp [hp, hbody], by rw [List.append_assoc]⟩

/-- A line is complete, or it has no newline at all. -/
theorem isLine_or_of_mem_lines {t l : Text} (hl : l ∈ lines t) : IsLine l ∨ '\n' ∉ l := by
  obtain ⟨ls, ls', heq⟩ := List.append_of_mem hl
  rw [List.append_cons] at heq
  by_cases hne : ls' = []
  · subst hne
    have ht := congrArg List.flatten heq
    rw [flatten_lines, List.append_nil, List.flatten_append, List.flatten_singleton] at ht
    have hread := lines_flatten_suffix (heq.trans (List.append_nil _))
    rw [List.flatten_singleton] at hread
    rcases lines_cases l with rfl | ⟨hno, -, -⟩ | ⟨body, rest, hbody, rfl, hlines⟩
    · exact .inr List.not_mem_nil
    · exact .inr hno
    · rw [hlines] at hread
      obtain ⟨hl', -⟩ := List.cons.inj hread
      exact .inl ⟨body, hbody, hl'.symm⟩
  · exact .inl (isLine_of_lines_append heq hne (by simp))

/-- The line of a file, without blanks at the ends, has no newline. -/
theorem newline_strip {file text : Text} (h : text ∈ lines file) : '\n' ∉ strip text := by
  intro hmem
  cases isLine_or_of_mem_lines h with
  | inr hno => exact hno ((List.dropWhile_sublist _).mem ((List.rdropWhile_prefix _ _).mem hmem))
  | inl hline =>
    obtain ⟨body, hbody, rfl⟩ := hline
    unfold strip at hmem
    rw [List.dropWhile_append] at hmem
    split at hmem
    · exact absurd hmem (by decide)
    · rw [List.rdropWhile_concat_pos _ _ _ (by decide)] at hmem
      exact hbody ((List.dropWhile_sublist _).mem ((List.rdropWhile_prefix _ _).mem hmem))

theorem editLines_cons {t l : Text} {rest : Text} (h : lines t = l :: lines rest) :
    editLines pre rewrite t = (editLine pre rewrite l).flatten ++ editLines pre rewrite rest := by
  unfold editLines
  rw [h, List.flatMap_cons, List.flatten_append]

theorem isLine_of_mem_editLine {l : Text} (hpre : '\n' ∉ pre) (hl : IsLine l)
    (hnew : ∀ new, rewrite l = some new → IsLine new) :
    ∀ l' ∈ editLine pre rewrite l, IsLine l' := by
  intro l' hl'
  unfold editLine at hl'
  split at hl'
  · next new hr =>
    rcases List.mem_cons.mp hl' with rfl | hl'
    · exact hl.append hpre
    · rw [List.mem_singleton.mp hl']
      exact hnew new hr
  · rw [List.mem_singleton.mp hl']
    exact hl

theorem lines_editLines {t : Text} (hpre : '\n' ∉ pre)
    (hnew : ∀ line ∈ lines t, ∀ new, rewrite line = some new → IsLine new)
    (h : EndsEdited rewrite t) :
    lines (editLines pre rewrite t) = (lines t).flatMap (editLine pre rewrite) := by
  rcases lines_cases t with rfl | ⟨hno, hne, hlines⟩ | ⟨body, rest, hbody, rfl, hlines⟩
  · rfl
  · have hnone : rewrite t = none := by
      by_contra hr
      obtain ⟨body, -, hbody⟩ := h t (by rw [hlines]; exact List.mem_cons_self) hr
      exact hno (by rw [hbody]; simp)
    have hkept : editLine pre rewrite t = [t] := by
      rw [editLine, hnone]
    rw [editLines, hlines, List.flatMap_singleton, hkept, List.flatten_singleton, hlines]
  · have hline : IsLine (body ++ ['\n']) := ⟨body, hbody, rfl⟩
    unfold EndsEdited at h
    rw [hlines] at hnew h
    have hall := isLine_of_mem_editLine hpre hline (hnew _ List.mem_cons_self)
    have ih := lines_editLines hpre (fun l hl => hnew l (List.mem_cons_of_mem _ hl))
      fun l hl => h l (List.mem_cons_of_mem _ hl)
    rw [editLines_cons hlines, lines_append (terminated_flatten hall), lines_flatten hall, ih,
      hlines, List.flatMap_cons]
termination_by t.length
decreasing_by simp only [*, List.length_append, List.length_cons]; omega

/-- The lines of the output are the ones that were written, if and only if every line
with a new one is complete. -/
theorem lines_editLines_iff {t : Text} (hpre : '\n' ∉ pre)
    (hnew : ∀ line ∈ lines t, ∀ new, rewrite line = some new → IsLine new) :
    lines (editLines pre rewrite t) = (lines t).flatMap (editLine pre rewrite) ↔
      EndsEdited rewrite t := by
  refine ⟨?_, lines_editLines hpre hnew⟩
  intro h line hline hr
  obtain ⟨new, hr⟩ := Option.ne_none_iff_exists'.mp hr
  obtain ⟨ls, ls', heq⟩ := List.append_of_mem hline
  have hedit : editLine pre rewrite line = [pre ++ line, new] := by
    rw [editLine, hr]
  rw [heq, List.flatMap_append, List.flatMap_cons, hedit] at h
  -- the old line stands in front of the new one, so it is complete
  have hcomment : IsLine (pre ++ line) := by
    have hcut : lines (editLines pre rewrite t) =
        (ls.flatMap (editLine pre rewrite) ++ [pre ++ line]) ++
          new :: ls'.flatMap (editLine pre rewrite) := by
      rw [h]
      simp
    exact isLine_of_lines_append hcut (List.cons_ne_nil _ _) (by simp)
  refine (isLine_or_of_mem_lines hline).resolve_right ?_
  intro hno
  obtain ⟨body, -, hbody⟩ := hcomment
  have hmem : '\n' ∈ pre ++ line := by rw [hbody]; simp
  exact (List.mem_append.mp hmem).elim hpre hno

/-! ## Readers -/

/-- A reader of the lines, in the output: it passes over the kept lines, and finds in a
new line the image of what it found in the old one. -/
theorem foldl_editLines {σ : Type*} {read : σ → Text → σ} {image : σ → σ} {t : Text} {s : σ}
    (hlines : lines (editLines pre rewrite t) = (lines t).flatMap (editLine pre rewrite))
    (hread : ∀ line ∈ lines t, ∀ s,
      (editLine pre rewrite line).foldl read (image s) = image (read s line)) :
    (lines (editLines pre rewrite t)).foldl read (image s) = image ((lines t).foldl read s) := by
  rw [hlines]
  generalize lines t = ls at hread
  induction ls generalizing s with
  | nil => rfl
  | cons l ls ih =>
    rw [List.flatMap_cons, List.foldl_append, hread l List.mem_cons_self, List.foldl_cons]
    exact ih fun l' hl' => hread l' (List.mem_cons_of_mem _ hl')

end Text
