import DebianKernel.DiskId.Lilo

/-!
# Reading lilo.conf piece by piece

The matches of a lossless file follow each other, and each of them depends on no more of
the text behind it than the first character. So the tokens of a text in which some are
replaced can be read off piece by piece.

Results:
1. `fileMatches_append`: what is read in front of a text is read first.
2. `reads_follow`: a match stays the same in front of another text.
3. `tokensRead`: the tokens of a lossless file are read one behind the other.
4. `tokenizes_append`: tokens that are kept are read again in front of any text that
   begins in the same way.
-/

namespace DebianKernel.DiskId

open Text

/-! ## One match in front of a text -/

/-- The matches in a file. -/
def liloFileMatches (file : Text) : List LiloMatch := (lines file).flatMap liloMatches

/-- A character in front of which a word ends. -/
def EndsWord (c : Char) : Prop := isSpace c = true ∨ c = '#' ∨ c = '=' ∨ c = '"'

/-- The text does not go on with the word that is matched. -/
def LiloMatch.Before (m : LiloMatch) (t : Text) : Prop :=
  ∀ body, m.item = .word body false → ∀ c ∈ t.head?, EndsWord c

/-- The match is the first one in a file where the text stands behind it. -/
inductive Reads (m : LiloMatch) (t : Text) : Prop
  | line : IsLine m.text → liloMatch m.text = (m, []) → Reads m t
  | last : t = [] → '\n' ∉ m.text → m.text ≠ [] → liloMatch m.text = (m, []) → Reads m t
  | inside : '\n' ∉ m.text → m.text ≠ [] → m.Before t →
      (∀ r, m.Before r → liloMatch (m.text ++ r) = (m, r)) → Reads m t

/-- The matches are read one behind the other in front of the text. -/
def ReadsAll : List LiloMatch → Text → Prop
  | [], _ => True
  | m :: ms, t => Reads m (ms.flatMap (·.text) ++ t) ∧ ReadsAll ms t

namespace LiloTextLemmas

open LiloLemmas

/-! ### The loop over a line -/

theorem liloMatchesFrom_bound (bound bound' : Nat) (t : Text) (h : t.length ≤ bound)
    (h' : t.length ≤ bound') : liloMatchesFrom bound t = liloMatchesFrom bound' t := by
  have hnil (n : Nat) : liloMatchesFrom n [] = ([], []) := by cases n <;> rfl
  induction bound generalizing bound' t with
  | zero => rw [List.length_eq_zero_iff.mp (Nat.le_zero.mp h), hnil, hnil]
  | succ bound ih =>
    cases bound' with
    | zero => rw [List.length_eq_zero_iff.mp (Nat.le_zero.mp h'), hnil, hnil]
    | succ bound' =>
      rw [liloMatchesFrom, liloMatchesFrom]
      split
      · rfl
      · next hne =>
        have hpos := List.length_pos_iff.mpr hne
        have hlen := length_liloMatch t
        rw [ih bound' (liloMatch t).2 (by omega) (by omega)]

/-- The first match and the matches behind it. -/
theorem liloMatches_cons {line rest : Text} {m : LiloMatch} (h : liloMatch line = (m, rest))
    (hne : m.text ≠ []) :
    liloMatches line = m :: liloMatches rest ∧ liloRest line = liloRest rest := by
  have hlen : m.text.length + rest.length = line.length := by
    have hlen := length_liloMatch line
    rwa [h] at hlen
  have hpos := List.length_pos_iff.mpr hne
  obtain ⟨n, hn⟩ : ∃ n, line.length = n + 1 := ⟨line.length - 1, by omega⟩
  have hfrom : liloMatchesFrom line.length line = (m :: liloMatches rest, liloRest rest) := by
    rw [hn, liloMatchesFrom, h, if_neg hne,
      liloMatchesFrom_bound n rest.length rest (by omega) le_rfl]
    rfl
  unfold liloMatches liloRest at hfrom ⊢
  rw [hfrom]
  exact ⟨rfl, rfl⟩

/-- A line on which nothing is matched. -/
theorem liloMatches_of_nil {line : Text} (h : (liloMatch line).1.text = []) :
    liloMatches line = [] ∧ liloRest line = line := by
  unfold liloMatches liloRest
  cases hlen : line.length with
  | zero => exact ⟨rfl, rfl⟩
  | succ n =>
    rw [liloMatchesFrom, if_pos h]
    exact ⟨rfl, rfl⟩

/-- What holds at each match on the way holds of all matches on a line. -/
theorem forall_liloMatches {P : Text → Prop} {Q : LiloMatch → Prop}
    (step : ∀ t, P t → Q (liloMatch t).1 ∧ P (liloMatch t).2) {t : Text} (h : P t) :
    ∀ m ∈ liloMatches t, Q m := by
  by_cases hne : (liloMatch t).1.text = []
  · rw [(liloMatches_of_nil hne).1]
    exact fun m hm => absurd hm List.not_mem_nil
  · rw [(liloMatches_cons (Prod.eta (liloMatch t)).symm hne).1]
    intro m hm
    rcases List.mem_cons.mp hm with rfl | hm
    · exact (step t h).1
    · exact forall_liloMatches step (step t h).2 m hm
termination_by t.length
decreasing_by
  have hpos := List.length_pos_iff.mpr hne
  have hlen := length_liloMatch t
  omega

/-! ### The lines of a text with something in front -/

/-- The beginning of a line is put in front of the first line. -/
theorem lines_append_first {l t : Text} (h : '\n' ∉ l) (ht : t ≠ []) :
    ∃ first ls, lines t = first :: ls ∧ lines (l ++ t) = (l ++ first) :: ls := by
  obtain ⟨first, ls, hlines⟩ := List.exists_cons_of_ne_nil (lines_ne_nil ht)
  refine ⟨first, ls, hlines, ?_⟩
  induction l with
  | nil => exact hlines
  | cons c l ih =>
    rw [List.mem_cons, not_or] at h
    rw [List.cons_append, lines_cons (Ne.symm h.1), ih h.2]
    rfl

theorem head?_first {t first : Text} {ls : List Text} (h : lines t = first :: ls) :
    first.head? = t.head? := by
  cases t with
  | nil => cases h
  | cons c t =>
    by_cases hc : c = '\n'
    · rw [hc, lines_cons_newline] at h
      rw [hc, ← (List.cons.inj h).1]
      rfl
    · rw [lines_cons hc] at h
      rw [← (List.cons.inj h).1]
      rfl

/-- What is read in front of a text is read first. -/
theorem fileMatches_append {m : LiloMatch} {t : Text} (h : Reads m t) :
    liloFileMatches (m.text ++ t) = m :: liloFileMatches t := by
  unfold liloFileMatches
  cases h with
  | line hline hmatch =>
    have hne : m.text ≠ [] := by
      obtain ⟨body, -, hbody⟩ := hline
      rw [hbody]
      exact List.append_ne_nil_of_right_ne_nil _ (List.cons_ne_nil _ _)
    rw [lines_cons_isLine hline, List.flatMap_cons, (liloMatches_cons hmatch hne).1]
    rfl
  | last hnil hno hne hmatch =>
    rw [hnil, List.append_nil, lines_body hno hne, List.flatMap_singleton,
      (liloMatches_cons hmatch hne).1]
    rfl
  | inside hno hne hbefore hmatch =>
    rcases eq_or_ne t [] with rfl | ht
    · have hfirst := hmatch [] fun _ _ c hc => by cases hc
      rw [List.append_nil] at hfirst ⊢
      rw [lines_body hno hne, List.flatMap_singleton, (liloMatches_cons hfirst hne).1]
      rfl
    · obtain ⟨first, ls, hlines, happend⟩ := lines_append_first hno ht
      have hfirst := hmatch first fun body hbody => by
        rw [head?_first hlines]
        exact hbefore body hbody
      rw [happend, hlines, List.flatMap_cons, List.flatMap_cons, (liloMatches_cons hfirst hne).1]
      rfl

theorem fileMatches_appendAll {ms : List LiloMatch} {t : Text} (h : ReadsAll ms t) :
    liloFileMatches (ms.flatMap (·.text) ++ t) = ms ++ liloFileMatches t := by
  induction ms with
  | nil => rfl
  | cons m ms ih =>
    rw [List.flatMap_cons, List.append_assoc, fileMatches_append h.1, ih h.2]
    rfl

/-! ### Words -/

theorem endsWord_backslash : ¬ EndsWord '\\' := by
  rintro (h | h | h | h) <;> revert h <;> decide

theorem wordSpan_of_endsWord {t : Text} (h : ∀ c ∈ t.head?, EndsWord c) : wordSpan t = ([], t) := by
  cases t with
  | nil => rfl
  | cons c t =>
    have hc : EndsWord c := h c rfl
    have hback : c ≠ '\\' := fun heq => endsWord_backslash (heq ▸ hc)
    rw [wordSpan.eq_3 _ _ fun d r heq => absurd heq hback, if_pos]
    rcases hc with hc | hc | hc | hc <;> simp [hc]

theorem not_endsWord_of_word {w : Text} (h : wordSpan w = (w, [])) :
    ∀ c ∈ w.head?, ¬ EndsWord c := by
  intro c hc hends
  have hspan := wordSpan_of_endsWord (t := w) fun d hd => Option.mem_unique hd hc ▸ hends
  rw [h] at hspan
  rw [(Prod.mk.inj hspan).1] at hc
  cases hc

/-- A text that is one word is read in front of any text that ends the word. -/
theorem wordSpan_append_of {b r : Text} (h : wordSpan b = (b, []))
    (hr : ∀ c ∈ r.head?, EndsWord c) : wordSpan (b ++ r) = (b, r) := by
  fun_induction wordSpan b with
  | case1 => exact wordSpan_of_endsWord hr
  | case2 c t hc => cases h
  | case3 c t hc ih =>
    obtain ⟨hbody, hrest⟩ := Prod.mk.inj h
    have hspan := ih (Prod.ext (List.cons.inj (List.cons.inj hbody).2).2 hrest)
    rw [List.cons_append, List.cons_append, wordSpan, if_neg hc, hspan]
  | case4 c t hback hc => cases h
  | case5 c t hback hc ih =>
    obtain ⟨hbody, hrest⟩ := Prod.mk.inj h
    have hspan := ih (Prod.ext (List.cons.inj hbody).2 hrest)
    have hplain : c ≠ '\\' := fun heq => hc (by simp [heq])
    rw [List.cons_append, wordSpan.eq_3 _ _ fun d r heq => absurd heq hplain, if_neg hc, hspan]

theorem wordSpan_body (t : Text) : wordSpan (wordSpan t).1 = ((wordSpan t).1, []) := by
  fun_induction wordSpan t with
  | case1 => rfl
  | case2 => rfl
  | case3 c t hc ih =>
    dsimp only
    rw [wordSpan, if_neg hc, ih]
  | case4 => rfl
  | case5 c t hback hc ih =>
    have hplain : c ≠ '\\' := fun heq => hc (by simp [heq])
    dsimp only
    rw [wordSpan.eq_3 _ _ fun d r heq => absurd heq hplain, if_neg hc, ih]

theorem wordSpan_rest (t : Text) : wordSpan (wordSpan t).2 = ([], (wordSpan t).2) := by
  fun_induction wordSpan t with
  | case1 => rfl
  | case2 c t hc => rw [wordSpan, if_pos hc]
  | case3 c t hc ih => exact ih
  | case4 c t hback hc => rw [wordSpan.eq_3 _ _ hback, if_pos hc]
  | case5 c t hback hc ih => exact ih

theorem wordSpan_newline (t : Text) : '\n' ∉ (wordSpan t).1 := by
  fun_induction wordSpan t with
  | case1 => exact List.not_mem_nil
  | case2 => exact List.not_mem_nil
  | case3 c t hc ih =>
    rw [not_or] at hc
    simp only [List.mem_cons, not_or]
    exact ⟨by decide, fun heq => hc.2 heq.symm, ih⟩
  | case4 => exact List.not_mem_nil
  | case5 c t hback hc ih =>
    rw [List.mem_cons, not_or]
    refine ⟨fun heq => hc ?_, ih⟩
    rw [← heq]
    exact .inl (by decide)

/-! ### The groups of one match -/

theorem liloMatch_blanks {blanks t : Text} (hblanks : ∀ c ∈ blanks, isSpace c = true)
    (ht : ∀ c ∈ t.head?, isSpace c = false) :
    liloMatch (blanks ++ t) =
      (⟨blanks ++ (liloGroups t).1.text, (liloGroups t).1.item⟩, (liloGroups t).2) := by
  have htake : (blanks ++ t).takeWhile isSpace = blanks := by
    rw [List.takeWhile_append_of_pos hblanks]
    cases t with
    | nil => exact List.append_nil _
    | cons c t => rw [List.takeWhile_cons_of_neg (by simp [ht c rfl]), List.append_nil]
  have hdrop : (blanks ++ t).dropWhile isSpace = t := by
    rw [List.dropWhile_append_of_pos hblanks]
    cases t with
    | nil => rfl
    | cons c t => rw [List.dropWhile_cons_of_neg (by simp [ht c rfl])]
  unfold liloMatch
  rw [htake, hdrop]

theorem liloGroups_word {t : Text} (h : ∀ c ∈ t.head?, c ≠ '#' ∧ c ≠ '=' ∧ c ≠ '"') :
    liloGroups t =
      if (wordSpan t).1 = [] then (⟨[], .blank⟩, t)
      else match lineBreak (wordSpan t).2 with
        | some (brk, rest) => (⟨(wordSpan t).1 ++ brk, .word (wordSpan t).1 true⟩, rest)
        | none => (⟨(wordSpan t).1, .word (wordSpan t).1 false⟩, (wordSpan t).2) := by
  unfold liloGroups
  split
  · exact absurd rfl (h '#' rfl).1
  · exact absurd rfl (h '=' rfl).2.1
  · exact absurd rfl (h '"' rfl).2.2
  · rfl

theorem liloGroups_quote (r : Text) :
    liloGroups ('"' :: r) =
      if '"' ∈ r then
        (⟨'"' :: r.takeWhile (· ≠ '"') ++ ['"'], .quoted (r.takeWhile (· ≠ '"')) false⟩,
          (r.dropWhile (· ≠ '"')).tail)
      else match quoteBreak r with
        | some body => (⟨'"' :: r, .quoted body true⟩, [])
        | none => (⟨[], .blank⟩, '"' :: r) := rfl

theorem liloGroups_quoted {body : Text} (h : '"' ∉ body) (r : Text) :
    liloGroups ('"' :: (body ++ '"' :: r)) = (⟨'"' :: body ++ ['"'], .quoted body false⟩, r) := by
  have hpos : ∀ c ∈ body, decide (c ≠ '"') = true :=
    fun c hc => decide_eq_true fun heq => h (heq ▸ hc)
  have htake : (body ++ '"' :: r).takeWhile (· ≠ '"') = body := by
    rw [List.takeWhile_append_of_pos hpos, List.takeWhile_cons_of_neg (by simp), List.append_nil]
  have hdrop : (body ++ '"' :: r).dropWhile (· ≠ '"') = '"' :: r := by
    rw [List.dropWhile_append_of_pos hpos, List.dropWhile_cons_of_neg (by simp)]
  have hmem : '"' ∈ body ++ '"' :: r := List.mem_append_right _ List.mem_cons_self
  rw [liloGroups_quote, if_pos hmem, htake, hdrop]
  rfl

theorem lineBreak_mem {t brk rest : Text} (h : lineBreak t = some (brk, rest)) :
    '\\' ∈ brk ∧ '\n' ∈ brk := by
  unfold lineBreak at h
  split at h <;> cases h <;> decide

theorem lineBreak_of_endsWord {t : Text} (h : ∀ c ∈ t.head?, EndsWord c) : lineBreak t = none := by
  unfold lineBreak
  split
  · exact absurd (h _ rfl) endsWord_backslash
  · exact absurd (h _ rfl) endsWord_backslash
  · rfl

/-- A word is matched in front of any text that ends it. -/
theorem liloGroups_word_append {body r : Text} (h : wordSpan body = (body, [])) (hne : body ≠ [])
    (hr : ∀ c ∈ r.head?, EndsWord c) :
    liloGroups (body ++ r) = (⟨body, .word body false⟩, r) := by
  have hhead : ∀ c ∈ (body ++ r).head?, c ≠ '#' ∧ c ≠ '=' ∧ c ≠ '"' := by
    intro c hc
    obtain ⟨d, rest, rfl⟩ := List.exists_cons_of_ne_nil hne
    obtain rfl : d = c := Option.some.inj hc
    have hends := not_endsWord_of_word h d rfl
    exact ⟨fun heq => hends (.inr (.inl heq)), fun heq => hends (.inr (.inr (.inl heq))),
      fun heq => hends (.inr (.inr (.inr heq)))⟩
  rw [liloGroups_word hhead, wordSpan_append_of h hr]
  dsimp only
  rw [if_neg hne, lineBreak_of_endsWord hr]

/-- A text at which the loop goes on is matched again whatever stands behind it. -/
theorem liloGroups_inside {t r : Text} {g : LiloMatch} (h : liloGroups t = (g, r))
    (hspace : ∀ c ∈ t.head?, isSpace c = false) (hno : '\n' ∉ g.text) (hr : r ≠ [])
    (hnext : (liloMatch r).1.text ≠ []) :
    g.text ≠ [] ∧ g.Before r ∧ ∀ r', g.Before r' → liloGroups (g.text ++ r') = (g, r') := by
  have happend : g.text ++ r = t := by
    have happend := liloGroups_append t
    rwa [h] at happend
  -- where the groups match nothing the loop stops
  have hstop {s : Text} (hs : ∀ c ∈ s.head?, isSpace c = false)
      (hgroups : (liloGroups s).1.text = []) : (liloMatch s).1.text = [] := by
    have hmatch := @liloMatch_blanks [] s (fun _ hc => by cases hc) hs
    rw [List.nil_append] at hmatch
    rw [hmatch]
    exact hgroups
  have hne : g.text ≠ [] := by
    intro hnil
    rw [hnil, List.nil_append] at happend
    rw [happend] at hnext
    exact hnext (hstop hspace (by rw [h]; exact hnil))
  refine ⟨hne, ?_⟩
  have hother (hitem : ∀ body, g.item ≠ .word body false) (r' : Text) : g.Before r' :=
    fun body hbody => absurd hbody (hitem body)
  unfold liloGroups at h
  split at h
  · cases h
    exact absurd rfl hr
  · cases h
    exact ⟨hother (fun _ hitem => by cases hitem) _, fun _ _ => rfl⟩
  · next s =>
    split at h
    · cases h
      refine ⟨hother (fun _ hitem => by cases hitem) _, fun r' _ => ?_⟩
      have hbody : '"' ∉ s.takeWhile (· ≠ '"') :=
        fun hmem => absurd (List.mem_takeWhile_imp hmem) (by decide)
      have hgroups := liloGroups_quoted hbody r'
      simpa using hgroups
    · split at h
      · cases h
        exact absurd rfl hr
      · cases h
        exact absurd rfl hne
  · dsimp only at h
    split at h
    · cases h
      exact absurd rfl hne
    · next hbody =>
      split at h
      · next hbrk =>
        cases h
        exact absurd (List.mem_append_right _ (lineBreak_mem hbrk).2) hno
      · cases h
        refine ⟨fun body hitem c hc => ?_, fun r' hr' =>
          liloGroups_word_append (wordSpan_body t) hbody (hr' _ rfl)⟩
        by_contra hends
        refine hnext (hstop ?_ ?_)
        · intro d hd
          rw [Option.mem_unique hd hc]
          exact Bool.eq_false_iff.mpr fun hspace => hends (.inl hspace)
        · rw [liloGroups_word, wordSpan_rest, if_pos rfl]
          intro d hd
          rw [Option.mem_unique hd hc]
          exact ⟨fun heq => hends (.inr (.inl heq)), fun heq => hends (.inr (.inr (.inl heq))),
            fun heq => hends (.inr (.inr (.inr heq)))⟩

theorem liloMatch_inside {t r : Text} {m : LiloMatch} (h : liloMatch t = (m, r))
    (hno : '\n' ∉ m.text) (hr : r ≠ []) (hnext : (liloMatch r).1.text ≠ []) :
    m.Before r ∧ ∀ r', m.Before r' → liloMatch (m.text ++ r') = (m, r') := by
  have hblanks : ∀ c ∈ t.takeWhile isSpace, isSpace c = true :=
    fun c hc => List.mem_takeWhile_imp hc
  have hspace : ∀ c ∈ (t.dropWhile isSpace).head?, isSpace c = false := by
    intro c hc
    have hhead := List.head?_dropWhile_not isSpace t
    rw [Option.mem_def.mp hc] at hhead
    simpa using hhead
  have hmatch : liloMatch t = (⟨t.takeWhile isSpace ++ (liloGroups (t.dropWhile isSpace)).1.text,
      (liloGroups (t.dropWhile isSpace)).1.item⟩, (liloGroups (t.dropWhile isSpace)).2) := rfl
  generalize hg : liloGroups (t.dropWhile isSpace) = g at hmatch
  obtain ⟨⟨text, item⟩, rest⟩ := g
  rw [hmatch] at h
  obtain ⟨rfl, rfl⟩ := Prod.mk.inj h
  obtain ⟨hne, hbefore, hother⟩ :=
    liloGroups_inside hg hspace (fun hmem => hno (List.mem_append_right _ hmem)) hr hnext
  refine ⟨hbefore, fun r' hr' => ?_⟩
  have hhead : ∀ c ∈ (text ++ r').head?, isSpace c = false := by
    intro c hc
    refine hspace c ?_
    have happend := liloGroups_append (t.dropWhile isSpace)
    rw [hg] at happend
    rw [← happend]
    obtain ⟨d, text', rfl⟩ := List.exists_cons_of_ne_nil hne
    exact hc
  show liloMatch (t.takeWhile isSpace ++ text ++ r') = _
  rw [List.append_assoc, liloMatch_blanks hblanks hhead, hother r' hr']

/-! ### The matches of a lossless file -/

theorem reads_of_match {t r z : Text} {m : LiloMatch} (h : liloMatch t = (m, r))
    (hne : m.text ≠ []) (hrest : liloRest r = []) (ht : IsLine t ∨ '\n' ∉ t ∧ z = []) :
    Reads m (r ++ z) := by
  have happend : m.text ++ r = t := by
    have happend := liloMatch_append t
    rwa [h] at happend
  rcases eq_or_ne r [] with rfl | hr
  · rw [List.append_nil] at happend
    rw [← happend] at h ht
    rcases ht with hline | ⟨hno, hz⟩
    · exact .line hline h
    · exact .last hz hno hne h
  · have hno : '\n' ∉ m.text := by
      rcases ht with ⟨body, hbody, hline⟩ | ⟨hno, -⟩
      · rw [hline] at happend
        have hdrop := congrArg List.dropLast happend
        rw [List.dropLast_append_of_ne_nil hr, List.dropLast_concat] at hdrop
        exact fun hmem => hbody (hdrop ▸ List.mem_append_left _ hmem)
      · exact fun hmem => hno (happend ▸ List.mem_append_left _ hmem)
    have hnext : (liloMatch r).1.text ≠ [] := by
      intro hnil
      rw [(liloMatches_of_nil hnil).2] at hrest
      exact hr hrest
    obtain ⟨hbefore, hother⟩ := liloMatch_inside h hno hr hnext
    refine .inside hno hne (fun body hbody c hc => hbefore body hbody c ?_) hother
    obtain ⟨d, r', rfl⟩ := List.exists_cons_of_ne_nil hr
    exact hc

theorem readsAll_line {t z : Text} (hrest : liloRest t = [])
    (ht : t = [] ∨ IsLine t ∨ '\n' ∉ t ∧ z = []) : ReadsAll (liloMatches t) z := by
  rcases ht with rfl | ht
  · exact trivial
  · by_cases hne : (liloMatch t).1.text = []
    · rw [(liloMatches_of_nil hne).1]
      exact trivial
    · have hcons := liloMatches_cons (Prod.eta (liloMatch t)).symm hne
      rw [hcons.2] at hrest
      have happend := liloMatches_append (liloMatch t).2
      rw [hrest, List.append_nil] at happend
      rw [hcons.1]
      refine ⟨?_, readsAll_line hrest ?_⟩
      · rw [happend]
        exact reads_of_match (Prod.eta (liloMatch t)).symm hne hrest ht
      · -- what is left of a line is nothing or the end of the line
        have hline := liloMatch_append t
        rcases ht with ⟨body, hbody, hend⟩ | ⟨hno, hz⟩
        · cases hr : (liloMatch t).2 using List.reverseRecOn with
          | nil => exact .inl rfl
          | append_singleton left c =>
            rw [hr, hend, ← List.append_assoc] at hline
            obtain ⟨hleft, hc⟩ := List.append_inj' hline rfl
            rw [List.singleton_inj.mp hc]
            exact .inr (.inl ⟨left, fun hmem => hbody (hleft ▸ List.mem_append_right _ hmem), rfl⟩)
        · exact .inr (.inr ⟨fun hmem => hno (hline ▸ List.mem_append_right _ hmem), hz⟩)
termination_by t.length
decreasing_by
  have hpos := List.length_pos_iff.mpr hne
  have hlen := length_liloMatch t
  omega

theorem readsAll_append_iff {ms ms' : List LiloMatch} {t : Text} :
    ReadsAll (ms ++ ms') t ↔ ReadsAll ms (ms'.flatMap (·.text) ++ t) ∧ ReadsAll ms' t := by
  induction ms with
  | nil => exact ⟨fun h => ⟨trivial, h⟩, fun h => h.2⟩
  | cons m ms ih =>
    show Reads m ((ms ++ ms').flatMap (·.text) ++ t) ∧ ReadsAll (ms ++ ms') t ↔
      (Reads m (ms.flatMap (·.text) ++ (ms'.flatMap (·.text) ++ t)) ∧ _) ∧ _
    rw [List.flatMap_append, List.append_assoc, ih, and_assoc]

/-- The matches of a file follow each other if each line is matched to its end. -/
theorem readsAll_file {file : Text} (h : ∀ line ∈ lines file, liloRest line = []) :
    ReadsAll (liloFileMatches file) [] := by
  have hlines (ls : List Text) (hls : ∀ l ∈ ls, IsLineOrEnd l) (hrest : ∀ l ∈ ls, liloRest l = [])
      (hpairwise : ls.Pairwise fun l _ => IsLine l) : ReadsAll (ls.flatMap liloMatches) [] := by
    induction ls with
    | nil => exact trivial
    | cons line ls ih =>
      obtain ⟨hline, hpairwise⟩ := List.pairwise_cons.mp hpairwise
      have hrest' : ∀ l ∈ ls, liloRest l = [] := fun l hl => hrest l (List.mem_cons_of_mem _ hl)
      rw [List.flatMap_cons]
      refine readsAll_append_iff.mpr ⟨readsAll_line (hrest line List.mem_cons_self) (.inr ?_),
        ih (fun l hl => hls l (List.mem_cons_of_mem _ hl)) hrest' hpairwise⟩
      rw [List.append_nil, (texts_iff ls).1 hrest']
      rcases hls line List.mem_cons_self with hisLine | ⟨hno, -⟩
      · exact .inl hisLine
      · cases ls with
        | nil => exact .inr ⟨hno, rfl⟩
        | cons l ls => exact .inl (hline l List.mem_cons_self)
  exact hlines (lines file) (fun _ hl => lineOrEnd_of_mem_lines hl) h (lines_pairwise file)

end LiloTextLemmas

/-! ## Tokens in front of a text -/

namespace LiloState

/-- The variables between two tokens. -/
def between (tokens : List LiloToken) : LiloState := ⟨tokens, [], none, false⟩

end LiloState

namespace LiloItem

/-- What the groups give to the token. -/
def body : LiloItem → Option Text
  | equals => some ['=']
  | quoted body _ => some body
  | word body _ => some body
  | blank => none

/-- `$token` after the match. -/
def join (token : Option Text) : LiloItem → Option Text
  | word body _ => some (token.getD [] ++ body)
  | blank => token
  | item => item.body

end LiloItem

/-- The value of a token outside a continued quote. -/
def liloValue (text : Text) (token : Option Text) : Option Text :=
  if hasExpansion false text then none else token.map (unescape id)

/-- The matches make one token. -/
structure IsToken (ms : List LiloMatch) (t : LiloToken) : Prop where
  step : ∀ tokens, ms.foldl LiloState.step (.between tokens) = .between (tokens ++ [t])
  text : t.text = ms.flatMap (·.text)
  text_ne : t.text ≠ []
  newline : ∀ v ∈ t.value, '\n' ∉ v

/-- Each token is read in front of the tokens behind it. -/
def TokensRead : List LiloToken → Prop
  | [] => True
  | t :: ts => (∃ ms, IsToken ms t ∧ ReadsAll ms (ts.flatMap (·.text))) ∧ TokensRead ts

/-- Between two tokens, the text gives the tokens and leaves nothing over. -/
def Tokenizes (z : Text) (ts : List LiloToken) : Prop :=
  ∀ tokens, (liloFileMatches z).foldl LiloState.step (.between tokens) = .between (tokens ++ ts)

/-- The second text may stand where the first one stood. -/
structure Follows (z z' : Text) : Prop where
  nil : z = [] → z' = []
  ends : (∀ c ∈ z.head?, EndsWord c) → ∀ c ∈ z'.head?, EndsWord c

namespace LiloTextLemmas

open LiloLemmas

/-! ### One match -/

theorem mem_unescape {t : Text} {c : Char} (h : c ∈ unescape id t) : c ∈ t := by
  fun_induction unescape id t with
  | case1 t ih => grind
  | case2 c' t hc ih => grind
  | case3 c' t hc ih => grind
  | case4 => exact h

theorem liloValue_newline {text : Text} {token : Option Text} (h : ∀ v ∈ token, '\n' ∉ v) :
    ∀ v ∈ liloValue text token, '\n' ∉ v := by
  intro v hv
  unfold liloValue at hv
  split at hv
  · cases hv
  · obtain ⟨v', hv', rfl⟩ := Option.map_eq_some_iff.mp hv
    exact fun hmem => h v' hv' (mem_unescape hmem)

/-- A match that adds to `$text` continues the token or ends it. -/
theorem step_between {tokens : List LiloToken} {text : Text} {token : Option Text} {m : LiloMatch}
    (hadds : text ≠ [] → m.item.addsText = true) (hne : m.text ≠ []) :
    LiloState.step ⟨tokens, text, token, false⟩ m =
      if m.item.continued then ⟨tokens, text ++ m.text, m.item.join token, false⟩
      else .between (tokens ++
        [⟨text ++ m.text, liloValue (text ++ m.text) (m.item.join token)⟩]) := by
  have hfirst (h : m.item.addsText = false) : text = [] := by
    by_contra hno
    rw [hadds hno] at h
    cases h
  obtain ⟨mtext, item⟩ := m
  cases item with
  | equals =>
    rw [hfirst rfl]
    rfl
  | quoted body continued =>
    rw [hfirst rfl]
    cases continued <;> rfl
  | word body continued => cases continued <;> rfl
  | blank => exact if_neg hne

theorem quoteBreak_eq_some {t body : Text} (h : quoteBreak t = some body) :
    ∃ c brk, t = body ++ c :: brk := by
  unfold quoteBreak at h
  split at h
  · next heq =>
    cases h
    exact ⟨'\\', ['\n'], by rw [← List.reverse_reverse t, heq]; simp⟩
  · next heq =>
    cases h
    exact ⟨'\\', ['\r', '\n'], by rw [← List.reverse_reverse t, heq]; simp⟩
  · cases h

/-- The groups have no newline but at the end. -/
theorem body_newline {t : Text} (h : '\n' ∉ t.dropLast) :
    ∀ body ∈ (liloMatch t).1.item.body, '\n' ∉ body := by
  have hinner (u v : Text) (c : Char) (ht : ∃ w, t = w ++ (u ++ c :: v)) : '\n' ∉ u := by
    obtain ⟨w, rfl⟩ := ht
    rw [← List.append_assoc, List.dropLast_append_of_ne_nil (List.cons_ne_nil _ _)] at h
    exact fun hmem => h (List.mem_append_left _ (List.mem_append_right _ hmem))
  have happend := List.takeWhile_append_dropWhile (p := isSpace) (l := t)
  show ∀ body ∈ (liloGroups (t.dropWhile isSpace)).1.item.body, '\n' ∉ body
  intro body hbody
  unfold liloGroups at hbody
  split at hbody
  · cases hbody
  · cases hbody
    decide
  · next r hr =>
    rw [hr] at happend
    split at hbody
    · next hquote =>
      cases hbody
      obtain ⟨c, v, hv⟩ : ∃ c v, r.dropWhile (· ≠ '"') = c :: v := by
        refine List.exists_cons_of_ne_nil fun hnil => ?_
        exact absurd (List.dropWhile_eq_nil_iff.mp hnil _ hquote) (by decide)
      refine hinner _ v c ⟨t.takeWhile isSpace ++ ['"'], ?_⟩
      rw [← hv, List.takeWhile_append_dropWhile, List.append_assoc]
      exact happend.symm
    · split at hbody
      · next hbrk =>
        cases hbody
        obtain ⟨c, v, hv⟩ := quoteBreak_eq_some hbrk
        refine hinner _ v c ⟨t.takeWhile isSpace ++ ['"'], ?_⟩
        rw [← hv, List.append_assoc]
        exact happend.symm
      · cases hbody
  · dsimp only at hbody
    split at hbody
    · cases hbody
    · split at hbody
      all_goals
        cases hbody
        exact wordSpan_newline _

theorem reads_facts {m : LiloMatch} {t : Text} (h : Reads m t) :
    m.text ≠ [] ∧ ∀ body ∈ m.item.body, '\n' ∉ body := by
  have hbody (hno : '\n' ∉ m.text.dropLast) (hmatch : liloMatch m.text = (m, [])) :
      ∀ body ∈ m.item.body, '\n' ∉ body := by
    have hbody := body_newline hno
    rwa [hmatch] at hbody
  cases h with
  | line hline hmatch =>
    obtain ⟨body, hno, hbody'⟩ := hline
    have hdrop : (body ++ ['\n']).dropLast = body := List.dropLast_concat
    rw [← hdrop, ← hbody'] at hno
    refine ⟨?_, hbody hno hmatch⟩
    rw [hbody']
    exact List.append_ne_nil_of_right_ne_nil _ (List.cons_ne_nil _ _)
  | last hnil hno hne hmatch =>
    exact ⟨hne, hbody (fun hmem => hno (List.dropLast_subset _ hmem)) hmatch⟩
  | inside hno hne hbefore hmatch =>
    have hself := hmatch [] fun _ _ c hc => by cases hc
    rw [List.append_nil] at hself
    exact ⟨hne, hbody (fun hmem => hno (List.dropLast_subset _ hmem)) hself⟩

theorem reads_follow {m : LiloMatch} {z z' : Text} (h : Reads m z) (hf : Follows z z') :
    Reads m z' := by
  cases h with
  | line hline hmatch => exact .line hline hmatch
  | last hnil hno hne hmatch => exact .last (hf.nil hnil) hno hne hmatch
  | inside hno hne hbefore hmatch =>
    exact .inside hno hne (fun body hbody => hf.ends (hbefore body hbody)) hmatch

theorem follows_append {z z' : Text} (h : Follows z z') (t : Text) :
    Follows (t ++ z) (t ++ z') := by
  cases t with
  | nil => exact h
  | cons c t => exact ⟨fun hnil => absurd hnil (List.cons_ne_nil _ _), fun hends => hends⟩

theorem readsAll_follow {ms : List LiloMatch} {z z' : Text} (h : ReadsAll ms z)
    (hf : Follows z z') : ReadsAll ms z' := by
  induction ms with
  | nil => exact trivial
  | cons m ms ih => exact ⟨reads_follow h.1 (follows_append hf _), ih h.2⟩

/-! ### The tokens of a lossless file -/

/-- Behind matches that are not the end of a token, the tokens of the others are read. -/
theorem tokens_of_joined {pre ms : List LiloMatch} {token : Option Text}
    (hpre : ∀ tokens, pre.foldl LiloState.step (.between tokens) =
      ⟨tokens, pre.flatMap (·.text), token, false⟩)
    (htoken : ∀ v ∈ token, '\n' ∉ v) (hreads : ReadsAll (pre ++ ms) [])
    (hjoined : Joined (!pre.isEmpty) ms) :
    ∃ ts, TokensRead ts ∧ ts.flatMap (·.text) = (pre ++ ms).flatMap (·.text) ∧
      ∀ tokens, (pre ++ ms).foldl LiloState.step (.between tokens) = .between (tokens ++ ts) := by
  induction ms generalizing pre token with
  | nil =>
    have hnil : pre = [] := by
      have hempty : (!pre.isEmpty) = false := hjoined
      cases pre with
      | nil => rfl
      | cons m pre => cases hempty
    subst hnil
    exact ⟨[], trivial, rfl, fun tokens => by rw [List.append_nil, List.append_nil]; rfl⟩
  | cons m ms ih =>
    obtain ⟨hadds, hjoined⟩ := hjoined
    rw [List.append_cons] at hreads ⊢
    have hmatch := (readsAll_append_iff.mp (readsAll_append_iff.mp hreads).1).2.1
    obtain ⟨hne, hbody⟩ := reads_facts hmatch
    have hadds : pre.flatMap (·.text) ≠ [] → m.item.addsText = true := by
      intro htext
      refine hadds ?_
      cases pre with
      | nil => exact absurd rfl htext
      | cons m' pre => rfl
    have hfold (tokens : List LiloToken) :
        (pre ++ [m]).foldl LiloState.step (.between tokens) =
          LiloState.step ⟨tokens, pre.flatMap (·.text), token, false⟩ m := by
      rw [List.foldl_append, hpre]
      rfl
    have htext : (pre ++ [m]).flatMap (·.text) = pre.flatMap (·.text) ++ m.text := by
      rw [List.flatMap_append, List.flatMap_singleton]
    have hjoin : ∀ v ∈ m.item.join token, '\n' ∉ v := by
      intro v hv
      cases hitem : m.item with
      | word body continued =>
        rw [hitem] at hv hbody
        cases hv
        rw [List.mem_append, not_or]
        refine ⟨?_, hbody body rfl⟩
        cases token with
        | none => exact List.not_mem_nil
        | some t => exact htoken t rfl
      | blank =>
        rw [hitem] at hv
        exact htoken v hv
      | equals =>
        rw [hitem] at hv hbody
        exact hbody v hv
      | quoted body continued =>
        rw [hitem] at hv hbody
        exact hbody v hv
    cases hcontinued : m.item.continued with
    | true =>
      rw [hcontinued] at hjoined
      refine ih ?_ hjoin hreads ?_
      · intro tokens
        rw [hfold, step_between hadds hne, hcontinued, if_pos rfl, htext]
      · have hempty : (!(pre ++ [m]).isEmpty) = true := by cases pre <;> rfl
        rwa [hempty]
    | false =>
      rw [hcontinued] at hjoined
      -- the token ends here
      obtain ⟨hfirst, hrest⟩ := readsAll_append_iff.mp hreads
      obtain ⟨ts, hread, htexts, hts⟩ :=
        @ih [] none (fun _ => rfl) (fun _ hv => by cases hv) hrest hjoined
      let t : LiloToken := ⟨pre.flatMap (·.text) ++ m.text,
        liloValue (pre.flatMap (·.text) ++ m.text) (m.item.join token)⟩
      have hstep (tokens : List LiloToken) :
          (pre ++ [m]).foldl LiloState.step (.between tokens) = .between (tokens ++ [t]) := by
        rw [hfold, step_between hadds hne, hcontinued]
        rfl
      have htoken : IsToken (pre ++ [m]) t :=
        ⟨hstep, htext.symm, List.append_ne_nil_of_right_ne_nil _ hne, liloValue_newline hjoin⟩
      rw [List.nil_append] at htexts hts
      refine ⟨t :: ts, ⟨⟨pre ++ [m], htoken, ?_⟩, hread⟩, ?_, ?_⟩
      · rw [htexts]
        rwa [List.append_nil] at hfirst
      · rw [List.flatMap_cons, htexts, htoken.text, ← List.flatMap_append]
      · intro tokens
        rw [List.foldl_append, hstep]
        exact (hts _).trans (by rw [List.append_assoc]; rfl)

theorem fold_lines (file : Text) :
    liloTokenize file = ((liloFileMatches file).foldl LiloState.step (.between [])).tokens := by
  rw [liloTokenize, (lines_inQuote (lines file) (s := .init) rfl).1]
  rfl

/-- The tokens of a lossless file are read one behind the other. -/
theorem tokensRead {file : Text} (h : (liloTokenize file).flatMap (·.text) = file) :
    TokensRead (liloTokenize file) := by
  obtain ⟨hrest, hjoined⟩ := (texts_eq_file_iff file).mp h
  obtain ⟨ts, hread, -, hfold⟩ := @tokens_of_joined [] (liloFileMatches file) none (fun _ => rfl)
    (fun _ hv => by cases hv) (readsAll_file hrest) hjoined
  have htokens : liloTokenize file = ts := by
    rw [fold_lines]
    exact congrArg LiloState.tokens (hfold [])
  rwa [htokens]

/-! ### Matches of some shapes -/

theorem reads_word {w t : Text} (h : wordSpan w = (w, [])) (hne : w ≠ [])
    (ht : ∀ c ∈ t.head?, EndsWord c) : Reads ⟨w, .word w false⟩ t := by
  have hno : '\n' ∉ w := by
    have hno := wordSpan_newline w
    rwa [h] at hno
  refine .inside hno hne (fun _ _ => ht) fun r hr => ?_
  have hspace : ∀ c ∈ (w ++ r).head?, isSpace c = false := by
    intro c hc
    obtain ⟨d, w', rfl⟩ := List.exists_cons_of_ne_nil hne
    exact Bool.eq_false_iff.mpr fun hspace => not_endsWord_of_word h c hc (.inl hspace)
  have hmatch := @liloMatch_blanks [] (w ++ r) (fun _ hc => by cases hc) hspace
  rwa [liloGroups_word_append h hne (hr w rfl)] at hmatch

theorem reads_equals {blanks : Text} (h : ∀ c ∈ blanks, isSpace c = true) (hno : '\n' ∉ blanks)
    (t : Text) : Reads ⟨blanks ++ ['='], .equals⟩ t := by
  refine .inside ?_ (List.append_ne_nil_of_right_ne_nil _ (List.cons_ne_nil _ _))
    (fun _ hbody => by cases hbody) fun r _ => ?_
  · rw [List.mem_append, not_or]
    exact ⟨hno, by decide⟩
  · have hspace : ∀ c ∈ ('=' :: r).head?, isSpace c = false := fun c hc => Option.some.inj hc ▸ rfl
    have hmatch := liloMatch_blanks h hspace
    rw [List.append_cons] at hmatch
    exact hmatch

theorem reads_quoted {blanks body : Text} (h : ∀ c ∈ blanks, isSpace c = true)
    (hno : '\n' ∉ blanks) (hquote : '"' ∉ body) (hbody : '\n' ∉ body) (t : Text) :
    Reads ⟨blanks ++ ('"' :: body ++ ['"']), .quoted body false⟩ t := by
  refine .inside ?_ (List.append_ne_nil_of_right_ne_nil _ (List.cons_ne_nil _ _))
    (fun _ hbody => by cases hbody) fun r _ => ?_
  · simp only [List.mem_append, List.mem_cons, not_or]
    exact ⟨hno, ⟨by decide, hbody⟩, by decide⟩
  · have hspace : ∀ c ∈ ('"' :: (body ++ '"' :: r)).head?, isSpace c = false :=
      fun c hc => Option.some.inj hc ▸ rfl
    have hmatch := liloMatch_blanks h hspace
    rw [liloGroups_quoted hquote] at hmatch
    simpa using hmatch

/-- Lines that are blanks and comments. -/
theorem fileMatches_blanks {ts : List Text}
    (h : ∀ t ∈ ts, IsLine t ∧ liloMatch t = (⟨t, .blank⟩, [])) (z : Text) :
    liloFileMatches (ts.flatten ++ z) = ts.map (⟨·, .blank⟩) ++ liloFileMatches z := by
  induction ts with
  | nil => rfl
  | cons t ts ih =>
    obtain ⟨hline, hmatch⟩ := h t List.mem_cons_self
    rw [List.flatten_cons, List.append_assoc,
      @fileMatches_append ⟨t, .blank⟩ (ts.flatten ++ z) (.line hline hmatch),
      ih fun t' ht' => h t' (List.mem_cons_of_mem _ ht')]
    rfl

theorem fileMatches_line {line : Text} (h : IsLine line) (z : Text) :
    liloFileMatches (line ++ z) = liloMatches line ++ liloFileMatches z := by
  unfold liloFileMatches
  rw [lines_cons_isLine h, List.flatMap_cons]

/-! ### Putting texts together -/

theorem tokenize_of_tokenizes {z : Text} {ts : List LiloToken} (h : Tokenizes z ts) :
    liloTokenize z = ts := by
  rw [fold_lines, h []]
  rfl

/-- Tokens that are kept are read again in front of a text that begins in the same way. -/
theorem tokenizes_append {ts us vs : List LiloToken} {z : Text} (h : TokensRead (ts ++ us))
    (hf : Follows (us.flatMap (·.text)) z) (hz : Tokenizes z vs) :
    Tokenizes (ts.flatMap (·.text) ++ z) (ts ++ vs) := by
  induction ts with
  | nil => exact hz
  | cons t ts ih =>
    obtain ⟨⟨ms, htoken, hreads⟩, hrest⟩ := h
    have hreads : ReadsAll ms (ts.flatMap (·.text) ++ z) := by
      refine readsAll_follow hreads ?_
      show Follows ((ts ++ us).flatMap (·.text)) _
      rw [List.flatMap_append]
      exact follows_append hf _
    intro tokens
    have hmatches := fileMatches_appendAll hreads
    rw [List.flatMap_cons, List.append_assoc, htoken.text, hmatches, List.foldl_append,
      htoken.step, ih hrest, List.append_assoc]
    rfl

end LiloTextLemmas

end DebianKernel.DiskId
