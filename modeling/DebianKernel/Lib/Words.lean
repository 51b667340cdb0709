import DebianKernel.Lib.Text

/-!
# The words of a text

`words t` are the maximal runs of visible characters, as a split at white space returns
them.

Results: `isWord_of_mem_words` (a word is not empty and has no white space), `words_append_space`
and `words_of_word` (words put together with blanks are read back), `words_strip`,
`words_append_blank`, `flatten_words`; `Broken.visible_eq`: a text that is broken into lines at
places of a kind keeps its visible characters.
-/

namespace Text

def words : Text → List Text
  | [] => []
  | c :: t =>
    if isSpace c then words t
    else if t.head?.any (!isSpace ·) then (c :: (words t).headD []) :: (words t).tail
    else [c] :: words t

/-- A word: visible characters, at least one. -/
def IsWord (w : Text) : Prop := w ≠ [] ∧ ∀ c ∈ w, isSpace c = false

@[simp] theorem words_nil : words [] = [] := rfl

theorem words_space {c : Char} (hc : isSpace c = true) (t : Text) : words (c :: t) = words t := by
  rw [words, if_pos hc]

theorem words_of_not_space {c : Char} (hc : isSpace c = false) (t : Text) :
    words (c :: t) = if t.head?.any (!isSpace ·) then (c :: (words t).headD []) :: (words t).tail
      else [c] :: words t := by
  rw [words, if_neg (by rw [hc]; exact Bool.false_ne_true)]

theorem words_visible_space {c d : Char} (hc : isSpace c = false) (hd : isSpace d = true)
    (t : Text) : words (c :: d :: t) = [c] :: words t := by
  rw [words_of_not_space hc, if_neg (by simp [hd]), words_space hd]

theorem words_visible {c d : Char} (hc : isSpace c = false) (hd : isSpace d = false) (t : Text) :
    words (c :: d :: t) = (c :: (words (d :: t)).headD []) :: (words (d :: t)).tail := by
  rw [words_of_not_space hc, if_pos (by simp [hd])]

theorem words_single {c : Char} (hc : isSpace c = false) : words [c] = [[c]] := by
  rw [words_of_not_space hc, if_neg (by simp)]
  rfl

theorem words_ne_nil {c : Char} (hc : isSpace c = false) (t : Text) : words (c :: t) ≠ [] := by
  rw [words_of_not_space hc]
  split
  · exact List.cons_ne_nil _ _
  · exact List.cons_ne_nil _ _

/-- The first word of a text that starts with a word. -/
theorem words_append_space {w : Text} (hw : IsWord w) {d : Char} (hd : isSpace d = true)
    (t : Text) : words (w ++ d :: t) = w :: words t := by
  obtain ⟨hne, hall⟩ := hw
  induction w with
  | nil => exact absurd rfl hne
  | cons c w ih =>
    have hc := hall c List.mem_cons_self
    cases w with
    | nil => exact words_visible_space hc hd t
    | cons e w =>
      have htail := ih (List.cons_ne_nil _ _) fun x hx => hall x (List.mem_cons_of_mem _ hx)
      rw [List.cons_append] at htail
      rw [List.cons_append, List.cons_append, words_visible hc (hall e (by simp)), htail]
      rfl

theorem words_of_word {w : Text} (hw : IsWord w) : words w = [w] := by
  obtain ⟨hne, hall⟩ := hw
  induction w with
  | nil => exact absurd rfl hne
  | cons c w ih =>
    have hc := hall c List.mem_cons_self
    cases w with
    | nil => exact words_single hc
    | cons e w =>
      rw [words_visible hc (hall e (by simp)),
        ih (List.cons_ne_nil _ _) fun x hx => hall x (List.mem_cons_of_mem _ hx)]
      rfl

theorem isWord_of_mem_words {t w : Text} (h : w ∈ words t) : IsWord w := by
  induction t generalizing w with
  | nil => cases h
  | cons c t ih =>
    cases hc : isSpace c with
    | true =>
      rw [words_space hc] at h
      exact ih h
    | false =>
      have hsingle : IsWord [c] :=
        ⟨List.cons_ne_nil _ _, fun x hx => by rw [List.mem_singleton.mp hx]; exact hc⟩
      cases t with
      | nil =>
        rw [words_single hc, List.mem_singleton] at h
        rw [h]
        exact hsingle
      | cons d t =>
        cases hd : isSpace d with
        | true =>
          rw [words_visible_space hc hd, List.mem_cons] at h
          rw [words_space hd] at ih
          rcases h with rfl | h
          · exact hsingle
          · exact ih h
        | false =>
          rw [words_visible hc hd, List.mem_cons] at h
          rcases h with rfl | h
          · refine ⟨List.cons_ne_nil _ _, ?_⟩
            intro x hx
            rcases List.mem_cons.mp hx with rfl | hx
            · exact hc
            · cases hws : words (d :: t) with
              | nil => rw [hws] at hx; cases hx
              | cons v ws => rw [hws] at hx ih; exact (ih List.mem_cons_self).2 x hx
          · exact ih (List.mem_of_mem_tail h)

theorem words_append_of_space {s : Text} (hs : ∀ c ∈ s, isSpace c = true) (t : Text) :
    words (t ++ s) = words t := by
  induction t with
  | nil =>
    induction s with
    | nil => rfl
    | cons c s ih =>
      rw [List.nil_append] at ih ⊢
      rw [words_space (hs c List.mem_cons_self)]
      exact ih fun x hx => hs x (List.mem_cons_of_mem _ hx)
  | cons c t ih =>
    cases t with
    | nil =>
      cases s with
      | nil => rfl
      | cons d s =>
        have hd := hs d List.mem_cons_self
        rw [List.nil_append, words_space hd, words_nil] at ih
        rw [List.singleton_append]
        cases hc : isSpace c with
        | true => rw [words_space hc, words_space hd, ih, words_space hc, words_nil]
        | false => rw [words_visible_space hc hd, ih, words_single hc]
    | cons d t =>
      cases hc : isSpace c with
      | true => rw [List.cons_append, words_space hc, words_space hc, ih]
      | false =>
        rw [List.cons_append, words_of_not_space hc, words_of_not_space hc, ih]
        rfl

theorem words_append_left_of_space {s : Text} (hs : ∀ c ∈ s, isSpace c = true) (t : Text) :
    words (s ++ t) = words t := by
  induction s with
  | nil => rfl
  | cons c s ih =>
    rw [List.cons_append, words_space (hs c List.mem_cons_self)]
    exact ih fun x hx => hs x (List.mem_cons_of_mem _ hx)

/-- Blanks at the ends do not matter. -/
theorem words_strip (t : Text) : words (strip t) = words t := by
  have hfront : words (t.dropWhile isSpace) = words t := by
    conv_rhs => rw [← List.takeWhile_append_dropWhile (p := isSpace) (l := t)]
    exact (words_append_left_of_space (fun c hc => List.mem_takeWhile_imp hc) _).symm
  rw [strip, ← hfront]
  conv_rhs => rw [← List.rdropWhile_append_rtakeWhile (p := isSpace) (l := t.dropWhile isSpace)]
  exact (words_append_of_space (fun c hc => List.mem_rtakeWhile_imp hc) _).symm

/-- A blank separates the words on its sides. -/
theorem words_append_blank {d : Char} (hd : isSpace d = true) (s t : Text) :
    words (s ++ d :: t) = words s ++ words t := by
  induction s with
  | nil => exact words_space hd t
  | cons c s ih =>
    rw [List.cons_append]
    cases hc : isSpace c with
    | true => rw [words_space hc, words_space hc, ih]
    | false =>
      cases s with
      | nil =>
        rw [List.nil_append, words_visible_space hc hd, words_single hc]
        rfl
      | cons e s =>
        rw [List.cons_append] at ih ⊢
        cases he : isSpace e with
        | true =>
          rw [words_visible_space hc he, words_visible_space hc he, ← words_space he, ih,
            words_space he]
          rfl
        | false =>
          rw [words_visible hc he, words_visible hc he, ih]
          cases hws : words (e :: s) with
          | nil => exact absurd hws (words_ne_nil he s)
          | cons w ws => rfl

/-- The words are the pieces between the blanks that are not empty. -/
theorem words_eq_splitOnP (t : Text) : words t = (t.splitOnP isSpace).filter (· ≠ []) := by
  induction t with
  | nil => rfl
  | cons c t ih =>
    obtain ⟨y, ys, hys⟩ := List.exists_cons_of_ne_nil (List.splitOnP_ne_nil isSpace t)
    rw [List.splitOnP_cons_eq_if_modifyHead]
    rw [hys] at ih ⊢
    cases hc : isSpace c with
    | true =>
      rw [words_space hc, ih, if_pos rfl]
      simp
    | false =>
      rw [words_of_not_space hc, if_neg Bool.false_ne_true, List.modifyHead_cons, ih]
      cases t with
      | nil =>
        rw [List.splitOnP_nil] at hys
        obtain ⟨rfl, rfl⟩ := List.cons.inj hys
        rfl
      | cons d t =>
        rw [List.splitOnP_cons_eq_if_modifyHead] at hys
        cases hd : isSpace d with
        | true =>
          rw [hd, if_pos rfl] at hys
          obtain ⟨rfl, rfl⟩ := List.cons.inj hys
          simp [hd]
        | false =>
          obtain ⟨z, zs, hzs⟩ := List.exists_cons_of_ne_nil (List.splitOnP_ne_nil isSpace t)
          rw [hd, if_neg Bool.false_ne_true, hzs, List.modifyHead_cons] at hys
          obtain ⟨rfl, rfl⟩ := List.cons.inj hys
          simp [hd]

theorem mem_words_of_around {a w b : Text} (hw : IsWord w)
    (ha : ∀ x ∈ a.getLast?, isSpace x = true) (hb : ∀ x ∈ b.head?, isSpace x = true) :
    w ∈ words (a ++ (w ++ b)) := by
  have hfirst : w ∈ words (w ++ b) := by
    cases b with
    | nil =>
      rw [List.append_nil, words_of_word hw]
      exact List.mem_cons_self
    | cons y b =>
      rw [words_append_space hw (hb y rfl)]
      exact List.mem_cons_self
  rcases List.eq_nil_or_concat' a with rfl | ⟨a, x, rfl⟩
  · exact hfirst
  · have hx : isSpace x = true := ha x (by simp)
    rw [List.append_assoc, List.singleton_append, words_append_blank hx]
    exact List.mem_append_right _ hfirst

/-- Blanks or the ends of the text are around a word. -/
theorem exists_around_of_mem_words {t w : Text} (h : w ∈ words t) : ∃ a b, t = a ++ (w ++ b) ∧
    (∀ x ∈ a.getLast?, isSpace x = true) ∧ ∀ x ∈ b.head?, isSpace x = true := by
  induction hn : t.length using Nat.strongRecOn generalizing t with
  | ind n ih =>
    -- the text is its first word and what is behind a blank, or starts with a blank
    have hlater : ∀ front (y : Char) rest, t = front ++ y :: rest → isSpace y = true →
        w ∈ words rest → ∃ a b, t = a ++ (w ++ b) ∧
          (∀ x ∈ a.getLast?, isSpace x = true) ∧ ∀ x ∈ b.head?, isSpace x = true := by
      rintro front y rest rfl hy hrest
      obtain ⟨a, b, rfl, ha, hb⟩ := ih rest.length (by
        rw [← hn, List.length_append, List.length_cons]
        omega) hrest rfl
      refine ⟨front ++ y :: a, b, by simp, fun x hx => ?_, hb⟩
      rcases List.eq_nil_or_concat' a with rfl | ⟨a, z, rfl⟩
      · rw [List.getLast?_concat] at hx
        rwa [← Option.some.inj hx]
      · rw [← List.cons_append, ← List.append_assoc, List.getLast?_concat] at hx
        exact ha x (by rw [List.getLast?_concat]; exact hx)
    cases t with
    | nil => cases h
    | cons c t =>
      cases hc : isSpace c with
      | true =>
        rw [words_space hc] at h
        exact hlater [] c t rfl hc h
      | false =>
        have hcut := List.takeWhile_append_dropWhile (p := (!isSpace ·)) (l := c :: t)
        have hword : IsWord ((c :: t).takeWhile (!isSpace ·)) := by
          refine ⟨?_, fun x hx => by simpa using List.mem_takeWhile_imp hx⟩
          rw [List.takeWhile_cons_of_pos (by rw [hc]; rfl)]
          exact List.cons_ne_nil _ _
        cases hrest : (c :: t).dropWhile (!isSpace ·) with
        | nil =>
          rw [hrest, List.append_nil] at hcut
          rw [hcut] at hword
          rw [words_of_word hword, List.mem_singleton] at h
          exact ⟨[], [], by rw [h]; simp, by simp, by simp⟩
        | cons y rest =>
          have hy : isSpace y = true := by
            have hhead := List.head?_dropWhile_not (!isSpace ·) (c :: t)
            rw [hrest] at hhead
            simpa using hhead
          rw [hrest] at hcut
          rw [← hcut, words_append_space hword hy, List.mem_cons] at h
          rcases h with rfl | h
          · exact ⟨[], y :: rest, hcut.symm, by simp, fun x hx => by rwa [← Option.some.inj hx]⟩
          · exact hlater _ y rest hcut.symm hy h

def visible (t : Text) : Text := t.filter (!isSpace ·)

theorem visible_append (s t : Text) : visible (s ++ t) = visible s ++ visible t :=
  List.filter_append s t

theorem visible_of_space {s : Text} (hs : ∀ c ∈ s, isSpace c = true) : visible s = [] :=
  List.filter_eq_nil_iff.mpr fun c hc => by rw [hs c hc]; exact Bool.false_ne_true

theorem visible_intercalate (sep : Text) (ts : List Text) :
    visible (sep.intercalate ts) = (visible sep).intercalate (ts.map visible) := by
  induction ts with
  | nil => rfl
  | cons t ts ih =>
    cases ts with
    | nil => simp
    | cons u ts =>
      rw [List.intercalate_cons_cons, visible_append, visible_append, ih]
      exact (List.intercalate_cons_cons ..).symm

theorem intercalate_nil (ts : List Text) : ([] : Text).intercalate ts = ts.flatten := by
  induction ts with
  | nil => rfl
  | cons t ts ih =>
    cases ts with
    | nil => simp
    | cons u ts =>
      rw [List.intercalate_cons_cons, ih, List.append_nil]
      rfl

theorem flatten_words (t : Text) : (words t).flatten = visible t := by
  rw [visible]
  induction t with
  | nil => rfl
  | cons c t ih =>
    cases hc : isSpace c with
    | true => rw [words_space hc, ih, List.filter_cons_of_neg (by simp [hc])]
    | false =>
      rw [List.filter_cons_of_pos (by simp [hc]), ← ih, words_of_not_space hc]
      split
      · cases words t <;> rfl
      · rfl

/-! ## A text broken into lines -/

/-- `ls` are lines of the text behind `s`: the text is the lines in order and blanks that are left
out between them. Where a line starts, `MayBreak` holds of what is before it and what is behind. -/
inductive Broken (MayBreak : Text → Text → Prop) : Text → Text → List Text → Prop
  | done {s t : Text} : (∀ c ∈ t, isSpace c = true) → Broken MayBreak s t []
  | line {s blanks l t : Text} {ls : List Text} : (∀ c ∈ blanks, isSpace c = true) →
    MayBreak (s ++ blanks) (l ++ t) → Broken MayBreak (s ++ blanks ++ l) t ls →
    Broken MayBreak s (blanks ++ (l ++ t)) (l :: ls)

namespace Broken

variable {MayBreak : Text → Text → Prop} {s t : Text} {ls : List Text}

/-- Blanks are left out before the lines. -/
theorem skip {blanks : Text} (hblanks : ∀ c ∈ blanks, isSpace c = true)
    (h : Broken MayBreak (s ++ blanks) t ls) : Broken MayBreak s (blanks ++ t) ls := by
  have hmore : ∀ {more : Text}, (∀ c ∈ more, isSpace c = true) →
      ∀ c ∈ blanks ++ more, isSpace c = true := by
    intro more hspace c hc
    exact (List.mem_append.mp hc).elim (hblanks c) (hspace c)
  cases h with
  | done ht => exact .done (hmore ht)
  | line hspace hbreak h =>
    rw [← List.append_assoc]
    rw [List.append_assoc s] at hbreak h
    exact .line (hmore hspace) hbreak h

/-- No visible character is lost. -/
theorem visible_eq (h : Broken MayBreak s t ls) : visible t = visible ls.flatten := by
  induction h with
  | done ht => exact visible_of_space ht
  | line hspace _ _ ih =>
    rw [visible_append, visible_append, visible_of_space hspace, ih, List.flatten_cons,
      visible_append]
    rfl

/-- A line starts at a visible character. -/
theorem mayBreak_of_visible {x : Char} (hx : isSpace x = false)
    (h : Broken MayBreak s (x :: t) ls) : MayBreak s (x :: t) := by
  generalize ht : x :: t = t' at h
  cases h with
  | done hspace =>
    rw [hspace x (by rw [← ht]; exact List.mem_cons_self)] at hx
    cases hx
  | @line _ blanks l t ls hspace hbreak h =>
    cases blanks with
    | nil => rwa [List.append_nil] at hbreak
    | cons y blanks =>
      obtain ⟨rfl, -⟩ := List.cons.inj ht
      rw [hspace x List.mem_cons_self] at hx
      cases hx

/-- A word that may not be broken is on a line. -/
theorem exists_line {a w b : Text} (h : Broken MayBreak s (a ++ (w ++ b)) ls) (hw : IsWord w)
    (hno : ∀ u v, w = u ++ v → u ≠ [] → v ≠ [] → ¬ MayBreak (s ++ a ++ u) (v ++ b)) :
    ∃ l ∈ ls, w <:+: l := by
  generalize ht : a ++ (w ++ b) = t at h
  induction h generalizing a with
  | done hspace =>
    obtain ⟨x, hx⟩ := List.exists_mem_of_ne_nil w hw.1
    have hblank := hspace x (by rw [← ht]; simp [hx])
    rw [hw.2 x hx] at hblank
    cases hblank
  | @line s blanks l t ls hspace hbreak h ih =>
    obtain ⟨a, rfl, hrest⟩ : ∃ a', a = blanks ++ a' ∧ a' ++ (w ++ b) = l ++ t := by
      rcases List.append_eq_append_iff.mp ht with ⟨m, hm, hwb⟩ | ⟨m, hm, hlt⟩
      · cases m with
        | nil => exact ⟨[], by rw [hm]; simp, by rw [hwb]; rfl⟩
        | cons y m =>
          obtain ⟨x, w, rfl⟩ := List.exists_cons_of_ne_nil hw.1
          obtain rfl : x = y := (List.cons.inj hwb).1
          have hblank := hspace x (by rw [hm]; simp)
          rw [hw.2 x List.mem_cons_self] at hblank
          cases hblank
      · exact ⟨m, hm, hlt.symm⟩
    have hbehind : ∀ k, t = k ++ (w ++ b) → a = l ++ k → ∃ l' ∈ l :: ls, w <:+: l' := by
      rintro k rfl rfl
      obtain ⟨l', hl', hin⟩ := ih (a := k) (fun u v huv hu hv hbad => hno u v huv hu hv (by
        simpa using hbad)) rfl
      exact ⟨l', List.mem_cons_of_mem l hl', hin⟩
    rw [← List.append_assoc] at hrest
    rcases List.append_eq_append_iff.mp hrest with ⟨m, hl, -⟩ | ⟨m, haw, ht'⟩
    · exact ⟨l, List.mem_cons_self, a, m, hl.symm⟩
    · rcases List.append_eq_append_iff.mp haw with ⟨u, hl, hum⟩ | ⟨k, hak, hmk⟩
      · rcases eq_or_ne u [] with rfl | hu
        · exact hbehind [] (by rw [ht', hum]; rfl) (by rw [hl]; simp)
        · cases m with
          | nil =>
            rw [List.append_nil] at hum
            exact ⟨l, List.mem_cons_self, a, [], by rw [hl, hum, List.append_nil]⟩
          | cons x m =>
            -- the line ends within the word
            have hx : isSpace x = false := hw.2 x (by rw [hum]; simp)
            rw [ht', List.cons_append] at h
            refine absurd (h.mayBreak_of_visible hx) ?_
            have hcut := hno u (x :: m) hum hu (List.cons_ne_nil _ _)
            rw [hl]
            simpa using hcut
      · exact hbehind k (by rw [ht', hmk, List.append_assoc]) hak

theorem mem_of_mem (h : Broken MayBreak s t ls) {l : Text} (hl : l ∈ ls) {c : Char} (hc : c ∈ l) :
    c ∈ t := by
  induction h with
  | done => cases hl
  | line _ _ _ ih =>
    rcases List.mem_cons.mp hl with rfl | hl
    · exact List.mem_append_right _ (List.mem_append_left _ hc)
    · exact List.mem_append_right _ (List.mem_append_right _ (ih hl))

end Broken

end Text
