import DebianKernel.DiskId.ShellGrammar

/-!
# What the scanner reports and what the shell assigns

The comment at `shellvars_next` says that it can parse variable definitions that do not
include substitutions. The scanner and the shell agree exactly on the plain assignments
(`plainAssignment`). They differ on a word with a `#` or an operator in it, on a command
word behind the value, on a backslash before an ordinary character in double quotes, on
a backslash before the closing single quote, on control characters as blanks, and on the
end of a file without a newline.

Results:
1. `out_of_step`: once a backslash has hidden a closing quote, the readings never agree
   again.
2. `shellWord_iff_plain`: on values, the readings agree on the plain values.
3. `reported_assignment_iff`: the shell makes the assignment that the scanner reports, if
   and only if the text is plain.
-/

namespace DebianKernel.DiskId

open Text ShellVarsLemmas ShellScanLemmas ShellGrammarLemmas

/-! ## Plain assignments -/

/-- Only blanks of the shell, and a newline only at the end. -/
def plainEnd : Text → Bool
  | [] => true
  | c :: t => if c = '\n' then t = [] else isBlank c && plainEnd t

/-- The rest of a value on which the scanner and the shell agree. -/
def plainValue : Quoting → Text → Bool
  | .none, [] => true
  | .single, [] => false
  | .double, [] => false
  | .none, c :: t =>
    if c = '\\' then
      match t with
      | [] => false
      | _ :: t => plainValue .none t
    else if c = '\'' then plainValue .single t
    else if c = '"' then plainValue .double t
    else if c = '\n' then t = []
    else if isBlank c then plainEnd t
    -- a special character must follow, as at the end of a line
    else !isSpace c && !isOperator c && c ≠ '#' && c ≠ '$' && c ≠ '`' &&
      (nextSpecial (c :: t)).isSome && plainValue .none t
  | .single, c :: t =>
    if c = '\\' then
      match t with
      | [] => false
      | d :: t => d ≠ '\'' && plainValue .single t
    else if c = '\'' then plainValue .none t
    else plainValue .single t
  | .double, c :: t =>
    if c = '\\' then
      match t with
      | [] => false
      | d :: t => (d = '\n' ∨ d = '$' ∨ d = '`' ∨ d = '"' ∨ d = '\\') && plainValue .double t
    else if c = '"' then plainValue .none t
    else plainValue .double t

/-- The text is an assignment that has only blanks of the shell in front and a plain value. -/
def plainAssignment (t : Text) : Bool :=
  (t.takeWhile isSpace).all isBlank &&
    match assignment t with
    | none => false
    | some (_, w) => plainValue .none w

namespace ShellSoundLemmas

/-! ### Out of step -/

/-- The pieces of text that can occur while the readings differ. -/
inductive Piece
  | squote | dquote | newline | escSquote | escDquote | escBackslash | escNewline

def Piece.text : Piece → Text
  | .squote => ['\''] | .dquote => ['"'] | .newline => ['\n']
  | .escSquote => ['\\', '\''] | .escDquote => ['\\', '"']
  | .escBackslash => ['\\', '\\'] | .escNewline => ['\\', '\n']

/-- What a quote character does: it is kept, or it opens or closes a string. -/
def quotePiece (q quote : Quoting) (kept : Text) : Quoting × Text :=
  if q = quote then (.none, []) else if q = .none then (quote, []) else (q, kept)

/-- The context after a piece and what the scanner keeps of it. -/
def scanPiece (q : Quoting) : Piece → Quoting × Text
  | .squote => quotePiece q .single ['\'']
  | .dquote => quotePiece q .double ['"']
  | .newline => (q, ['\n'])
  | p => if q = .single then (q, p.text) else (q, p.text.tail.filter (· ≠ '\n'))

/-- The context after a piece and what the shell keeps of it. -/
def shellPiece (q : Quoting) : Piece → Quoting × Text
  | .squote => quotePiece q .single ['\'']
  | .dquote => quotePiece q .double ['"']
  | .newline => (q, ['\n'])
  | .escSquote =>
    if q = .single then (.none, ['\\'])
    else if q = .double then (q, ['\\', '\'']) else (q, ['\''])
  | p => if q = .single then (q, p.text) else (q, p.text.tail.filter (· ≠ '\n'))

theorem scanValue_piece {q : Quoting} {p : Piece} (h : q = .none → p.text ≠ ['\n']) (t : Text) :
    scanValue q (p.text ++ t) =
      (scanValue (scanPiece q p).1 t).map ((scanPiece q p).2 ++ ·) := by
  cases p with
  | squote =>
    have hne := nextSpecial_special (show isSpecialChar '\'' = true by decide) t
    cases q with
    | none =>
      exact (scanValue_none (by decide) hne).trans (by simp [isSpace, scanPiece, quotePiece])
    | single => exact (scanValue_single (by decide) hne).trans (by simp [scanPiece, quotePiece])
    | double => exact (scanValue_double (by decide) hne).trans (by simp [scanPiece, quotePiece])
  | dquote =>
    have hne := nextSpecial_special (show isSpecialChar '"' = true by decide) t
    cases q with
    | none =>
      exact (scanValue_none (by decide) hne).trans (by simp [isSpace, scanPiece, quotePiece])
    | single => exact (scanValue_single (by decide) hne).trans (by simp [scanPiece, quotePiece])
    | double => exact (scanValue_double (by decide) hne).trans (by simp [scanPiece, quotePiece])
  | newline =>
    have hne := nextSpecial_special (show isSpecialChar '\n' = true by decide) t
    cases q with
    | none => exact absurd rfl (h rfl)
    | single => exact (scanValue_single (by decide) hne).trans (by simp [scanPiece])
    | double => exact (scanValue_double (by decide) hne).trans (by simp [scanPiece])
  | escSquote =>
    exact (scanValue_escape q '\'' t).trans (by cases q <;> simp [scanPiece, Piece.text])
  | escDquote =>
    exact (scanValue_escape q '"' t).trans (by cases q <;> simp [scanPiece, Piece.text])
  | escBackslash =>
    exact (scanValue_escape q '\\' t).trans (by cases q <;> simp [scanPiece, Piece.text])
  | escNewline =>
    exact (scanValue_escape q '\n' t).trans (by cases q <;> simp [scanPiece, Piece.text])

theorem shellWord_piece {q : Quoting} {p : Piece} (h : q = .none → p.text ≠ ['\n']) (t : Text) :
    shellWord q (p.text ++ t) =
      (shellWord (shellPiece q p).1 t).map ((shellPiece q p).2 ++ ·) := by
  cases p <;> cases q <;>
    simp [Piece.text, shellPiece, quotePiece, shellWord_none, shellWord_single, shellWord_double,
      shellWord_escape_none, shellWord_escape_double, Function.comp_def] at h ⊢

/-- The number of quote characters. -/
def quotes (t : Text) : Nat := t.count '\'' + t.count '"'

/-- One if the condition holds. -/
def one (p : Prop) [Decidable p] : Nat := if p then 1 else 0

/-- The scanner is in context `q` and the shell in context `s`, and the scanner has kept
`d` more than the shell. A quote character is kept or it changes the context, so the
number of them in `d` tells whether the contexts are the same. -/
structure Ahead (q s : Quoting) (d : Text) : Prop where
  pos : 0 < quotes d
  mem : ∀ c ∈ d, c = '\'' ∨ c = '"' ∨ c = '\\' ∨ c = '\n'
  single : d.count '\'' % 2 = (one (q = .single) + one (s = .single)) % 2
  double : d.count '"' % 2 = (one (q = .double) + one (s = .double)) % 2

/-- What a piece does to the number of quote characters that are kept. -/
theorem piece_count (q s : Quoting) (p : Piece) :
    (((scanPiece q p).2.count '\'' + one ((scanPiece q p).1 = .single) + one (q = .single)) % 2 =
      ((shellPiece s p).2.count '\'' + one ((shellPiece s p).1 = .single) +
        one (s = .single)) % 2) ∧
    (((scanPiece q p).2.count '"' + one ((scanPiece q p).1 = .double) + one (q = .double)) % 2 =
      ((shellPiece s p).2.count '"' + one ((shellPiece s p).1 = .double) +
        one (s = .double)) % 2) ∧
    ((scanPiece q p).1 = (shellPiece s p).1 →
      quotes (shellPiece s p).2 ≤ quotes (scanPiece q p).2) := by
  cases q <;> cases s <;> cases p <;> decide

theorem scanPiece_mem (q : Quoting) (p : Piece) :
    ∀ c ∈ (scanPiece q p).2, c = '\'' ∨ c = '"' ∨ c = '\\' ∨ c = '\n' := by
  cases q <;> cases p <;> exact forall_mem_of_all rfl

/-- The shell keeps nothing of a piece, one character, or a backslash and a character. -/
theorem shellPiece_shape (s : Quoting) (p : Piece) :
    (shellPiece s p).2 = [] ∨ (∃ a, (shellPiece s p).2 = [a]) ∨
      ∃ b, (shellPiece s p).2 = ['\\', b] := by
  cases s <;> cases p <;> simp [shellPiece, quotePiece, Piece.text]

/-- What the shell keeps next is at the front of what the scanner has kept. -/
theorem kept_prefix {d k r y : Text} (hpos : 0 < quotes d) (h : d ++ r = k ++ y)
    (hk : k = [] ∨ (∃ a, k = [a]) ∨ ∃ b, k = ['\\', b]) :
    ∃ d', d = k ++ d' ∧ y = d' ++ r := by
  cases d with
  | nil => exact absurd hpos (by decide)
  | cons c d =>
    rcases hk with rfl | ⟨a, rfl⟩ | ⟨b, rfl⟩
    · exact ⟨c :: d, rfl, h.symm⟩
    · simp only [List.cons_append, List.nil_append, List.cons.injEq] at h
      obtain ⟨rfl, rfl⟩ := h
      exact ⟨d, rfl, rfl⟩
    · simp only [List.cons_append, List.nil_append, List.cons.injEq] at h
      obtain ⟨rfl, h⟩ := h
      cases d with
      | nil => exact absurd hpos (by decide)
      | cons c d =>
        simp only [List.cons_append, List.cons.injEq] at h
        obtain ⟨rfl, rfl⟩ := h
        exact ⟨d, rfl, rfl⟩

theorem one_of_ne {q s : Quoting} (h : q ≠ s) :
    (one (q = .single) + one (s = .single)) % 2 = 1 ∨
      (one (q = .double) + one (s = .double)) % 2 = 1 := by
  cases q <;> cases s <;> first | exact absurd rfl h | decide

/-- One piece keeps the scanner ahead. -/
theorem Ahead.step {q s : Quoting} {p : Piece} {d : Text}
    (h : Ahead q s ((shellPiece s p).2 ++ d)) :
    Ahead (scanPiece q p).1 (shellPiece s p).1 (d ++ (scanPiece q p).2) := by
  obtain ⟨hsingle, hdouble, hquotes⟩ := piece_count q s p
  have hs := h.single
  have hd := h.double
  have hpos := h.pos
  unfold quotes at hpos hquotes
  rw [List.count_append] at hs hd
  rw [List.count_append, List.count_append] at hpos
  have hs' : (d ++ (scanPiece q p).2).count '\'' % 2 =
      (one ((scanPiece q p).1 = .single) + one ((shellPiece s p).1 = .single)) % 2 := by
    rw [List.count_append]
    omega
  have hd' : (d ++ (scanPiece q p).2).count '"' % 2 =
      (one ((scanPiece q p).1 = .double) + one ((shellPiece s p).1 = .double)) % 2 := by
    rw [List.count_append]
    omega
  refine ⟨?_, ?_, hs', hd'⟩
  · unfold quotes
    by_cases heq : (scanPiece q p).1 = (shellPiece s p).1
    · have hle := hquotes heq
      rw [List.count_append, List.count_append]
      omega
    · cases one_of_ne heq with
      | inl hodd => omega
      | inr hodd => omega
  · intro c hc
    cases List.mem_append.mp hc with
    | inl hc => exact h.mem c (List.mem_append_right _ hc)
    | inr hc => exact scanPiece_mem q p c hc

/-- A character that is not one of the four is kept by the shell, or it ends the word. -/
theorem shellWord_ordinary {s : Quoting} {c : Char} {t y : Text}
    (hc : ¬(c = '\'' ∨ c = '"' ∨ c = '\\' ∨ c = '\n')) (h : shellWord s (c :: t) = some y) :
    y = [] ∨ ∃ y', y = c :: y' := by
  simp only [not_or] at hc
  obtain ⟨hquote, hdquote, hb, -⟩ := hc
  have hmap {o : Option Text} (h : o.map (c :: ·) = some y) : ∃ y', y = c :: y' := by
    obtain ⟨y', -, rfl⟩ := Option.map_eq_some_iff.mp h
    exact ⟨y', rfl⟩
  cases s with
  | none =>
    rw [shellWord_none hb, if_neg hquote, if_neg hdquote] at h
    split at h
    · cases h
    · split at h
      · split at h <;> cases h
        exact .inl rfl
      · exact .inr (hmap h)
  | single =>
    rw [shellWord_single, if_neg hquote] at h
    exact .inr (hmap h)
  | double =>
    rw [shellWord_double hb, if_neg hdquote] at h
    split at h
    · cases h
    · exact .inr (hmap h)

/-- A backslash pair that the shell reads is one of the pieces, when the word starts with
quote characters, backslashes and newlines. -/
theorem shellWord_pair {s : Quoting} {c : Char} {t d x : Text} (hpos : 0 < quotes d)
    (hd : ∀ c ∈ d, c = '\'' ∨ c = '"' ∨ c = '\\' ∨ c = '\n')
    (h : shellWord s ('\\' :: c :: t) = some (d ++ x)) :
    c = '\'' ∨ c = '"' ∨ c = '\\' ∨ c = '\n' := by
  by_contra hc
  have hkeep {k : Text} (hk : c ∈ k) (hshape : (∃ a, k = [a]) ∨ ∃ b, k = ['\\', b])
      {o : Option Text} (ho : o.map (k ++ ·) = some (d ++ x)) : False := by
    obtain ⟨y, -, hy⟩ := Option.map_eq_some_iff.mp ho
    obtain ⟨d', rfl, -⟩ := kept_prefix hpos hy.symm (.inr hshape)
    exact hc (hd c (List.mem_append_left _ hk))
  have hc' := hc
  simp only [not_or] at hc'
  obtain ⟨hquote, -, -, hnl⟩ := hc'
  cases s with
  | none =>
    rw [shellWord_escape_none, if_neg hnl] at h
    exact hkeep (k := [c]) (by simp) (.inl ⟨c, rfl⟩) h
  | single =>
    rw [shellWord_single, if_neg (by decide), shellWord_single, if_neg hquote, Option.map_map] at h
    exact hkeep (k := ['\\', c]) (by simp) (.inr ⟨c, rfl⟩) h
  | double =>
    rw [shellWord_escape_double, if_neg hnl] at h
    split at h
    · exact hkeep (k := [c]) (by simp) (.inl ⟨c, rfl⟩) h
    · exact hkeep (k := ['\\', c]) (by simp) (.inr ⟨c, rfl⟩) h

theorem shellWord_newline (t : Text) :
    shellWord .none ('\n' :: t) = if t = [] then some [] else none := by
  have hend : shellEnd ('\n' :: t) = decide (t = []) := by
    unfold shellEnd
    rw [if_pos rfl]
  rw [shellWord_none (by decide)]
  simp [hend]

theorem scanValue_newline (t : Text) :
    scanValue .none ('\n' :: t) = if t = [] then some [] else none := by
  rw [scanValue_none (by decide) (nextSpecial_special (by decide) t), if_pos rfl]

theorem Ahead.kept_ne_nil {q s : Quoting} {d : Text} (had : Ahead q s d) (x : Text) :
    d ++ x ≠ [] := by
  intro hnil
  have hpos := had.pos
  rw [(List.append_eq_nil_iff.mp hnil).1] at hpos
  exact absurd hpos (by decide)

/-- A newline outside of quotes ends the word, and then the readings differ. -/
theorem Ahead.newline_quoted {q s : Quoting} {d t x : Text} (had : Ahead q s d)
    (hscan : scanValue q ('\n' :: t) = some x)
    (hshell : shellWord s ('\n' :: t) = some (d ++ x)) : q ≠ .none ∧ s ≠ .none := by
  have hs : s ≠ .none := by
    rintro rfl
    rw [shellWord_newline] at hshell
    split at hshell
    · exact had.kept_ne_nil x (Option.some.inj hshell).symm
    · cases hshell
  refine ⟨?_, hs⟩
  rintro rfl
  rw [scanValue_newline] at hscan
  split at hscan
  · next ht =>
    subst ht
    cases s with
    | none => exact hs rfl
    | single => cases hshell
    | double => cases hshell
  · cases hscan

/-- Once the scanner is ahead, the readings differ. -/
theorem out_of_step {q s : Quoting} {d t x : Text} (had : Ahead q s d)
    (hscan : scanValue q t = some x) (hshell : shellWord s t = some (d ++ x)) : False := by
  generalize hn : t.length = n
  induction n using Nat.strong_induction_on generalizing q s d t x with
  | _ n ih =>
    have hnil := had.kept_ne_nil x
    -- a piece leads to a shorter text on which the scanner is ahead
    have hpiece (p : Piece) (u : Text) (ht : t = p.text ++ u) (hu : u.length < n)
        (hq : q = .none → p.text ≠ ['\n']) (hs : s = .none → p.text ≠ ['\n']) : False := by
      rw [ht, scanValue_piece hq] at hscan
      rw [ht, shellWord_piece hs] at hshell
      obtain ⟨x', hx', rfl⟩ := Option.map_eq_some_iff.mp hscan
      obtain ⟨y', hy', heq⟩ := Option.map_eq_some_iff.mp hshell
      obtain ⟨d', rfl, rfl⟩ := kept_prefix had.pos heq.symm (shellPiece_shape s p)
      refine ih u.length hu had.step hx' ?_ rfl
      rw [hy', List.append_assoc]
    cases t with
    | nil =>
      cases s with
      | none => exact hnil (Option.some.inj hshell).symm
      | single => cases hshell
      | double => cases hshell
    | cons c t =>
      rw [List.length_cons] at hn
      by_cases hb : c = '\\'
      · subst hb
        cases t with
        | nil => cases s <;> cases hshell
        | cons e t =>
          rw [List.length_cons] at hn
          rcases shellWord_pair had.pos had.mem hshell with rfl | rfl | rfl | rfl
          · exact hpiece .escSquote t rfl (by omega) (fun _ => by decide) fun _ => by decide
          · exact hpiece .escDquote t rfl (by omega) (fun _ => by decide) fun _ => by decide
          · exact hpiece .escBackslash t rfl (by omega) (fun _ => by decide) fun _ => by decide
          · exact hpiece .escNewline t rfl (by omega) (fun _ => by decide) fun _ => by decide
      · by_cases hc : c = '\'' ∨ c = '"' ∨ c = '\\' ∨ c = '\n'
        · rcases hc with rfl | rfl | rfl | rfl
          · exact hpiece .squote t rfl (by omega) (fun _ => by decide) fun _ => by decide
          · exact hpiece .dquote t rfl (by omega) (fun _ => by decide) fun _ => by decide
          · exact hb rfl
          · obtain ⟨hq, hs⟩ := had.newline_quoted hscan hshell
            exact hpiece .newline t rfl (by omega) (fun h => absurd h hq) fun h => absurd h hs
        · rcases shellWord_ordinary hc hshell with h | ⟨y', h⟩
          · exact hnil h
          · obtain ⟨d', rfl, -⟩ := kept_prefix (k := [c]) had.pos h (.inr (.inl ⟨c, rfl⟩))
            exact hc (had.mem c List.mem_cons_self)

/-! ### In step -/

theorem shellEnd_of_afterValue {t : Text} (h : afterValue t = true) : shellEnd t = plainEnd t := by
  induction t with
  | nil => rfl
  | cons c t ih =>
    rw [plainEnd]
    unfold shellEnd
    split
    · rfl
    · next hnl =>
      have hnone (hne : nextSpecial (c :: t) ≠ none) :
          (isSpace c = true ∨ special (c :: t) = none) ∧ afterValue t = true := by
        rw [afterValue, if_neg hne, if_neg hnl] at h
        simpa using h
      split
      · next hc =>
        subst hc
        have hsp := special_of_isSpecialChar (show isSpecialChar '#' = true by decide) t
        have := (hnone (nextSpecial_special (by decide) t)).1
        rw [hsp] at this
        simp [isSpace] at this
      · split
        · next hc =>
          subst hc
          cases t with
          | nil => rfl
          | cons d t =>
            have hne : nextSpecial ('\\' :: d :: t) ≠ none := by
              rw [nextSpecial_of_special (special_backslash d t)]
              simp
            have := (hnone hne).1
            rw [special_backslash] at this
            simp [isSpace] at this
        · cases hblank : isBlank c with
          | false => rfl
          | true =>
            have hspace := isSpace_of_isBlank hblank
            have hne := nextSpecial_special (isSpecialChar_of_isSpace hspace) t
            rw [Bool.true_and, Bool.true_and]
            exact ih (hnone hne).2

/-- The characters behind the last special. -/
theorem nextSpecial_eq_none {c : Char} {t : Text} (h : nextSpecial (c :: t) = none) :
    isSpecialChar c = false ∧ c ≠ '$' ∧ (c = '\\' → t = []) ∧ nextSpecial t = none := by
  have hsp : special (c :: t) = none := by
    cases hsp : special (c :: t) with
    | none => rfl
    | some m =>
      obtain ⟨sp, rest⟩ := m
      rw [nextSpecial_of_special hsp] at h
      cases h
  rw [nextSpecial_char hsp, Option.map_eq_none_iff] at h
  refine ⟨?_, ?_, ?_, h⟩
  · by_contra hc
    rw [Bool.not_eq_false] at hc
    rw [special_of_isSpecialChar hc] at hsp
    cases hsp
  · rintro rfl
    cases t with
    | nil => cases hsp
    | cons d t =>
      by_cases hd : d = '(' ∨ d = '{' <;> simp [special, isSpecialChar, isSpace, hd] at hsp
  · rintro rfl
    cases t with
    | nil => rfl
    | cons d t => cases hsp

/-- A quoted string that the scanner does not look at is not closed. -/
theorem plainValue_unread {q : Quoting} (hq : q ≠ .none) {t : Text} (h : nextSpecial t = none) :
    plainValue q t = false := by
  induction t with
  | nil =>
    cases q with
    | none => exact absurd rfl hq
    | single => rfl
    | double => rfl
  | cons c t ih =>
    obtain ⟨hc, -, hb, ht⟩ := nextSpecial_eq_none h
    have hquote : c ≠ '\'' := by
      rintro rfl
      cases hc
    have hdquote : c ≠ '"' := by
      rintro rfl
      cases hc
    cases q with
    | none => exact absurd rfl hq
    | single =>
      unfold plainValue
      split
      · next hc =>
        rw [hb hc]
      · exact ih ht
    | double =>
      unfold plainValue
      split
      · next hc =>
        rw [hb hc]
      · exact ih ht

theorem shellEnd_operator {c : Char} (hc : isOperator c = true) (t : Text) :
    shellEnd (c :: t) = false := by
  simp only [isOperator, decide_eq_true_eq] at hc
  unfold shellEnd
  rcases hc with rfl | rfl | rfl | rfl | rfl | rfl | rfl <;> rfl

theorem shellEnd_blank {c : Char} (hc : isBlank c = true) (t : Text) :
    shellEnd (c :: t) = shellEnd t := by
  simp only [isBlank, decide_eq_true_eq] at hc
  conv => lhs; unfold shellEnd
  rcases hc with rfl | rfl <;> rfl

/-- A character that both readings keep. -/
theorem map_cons_iff {o : Option Text} {c d : Char} {x : Text} :
    o.map (c :: ·) = some (d :: x) ↔ c = d ∧ o = some x := by
  rw [Option.map_eq_some_iff]
  constructor
  · rintro ⟨y, hy, heq⟩
    obtain ⟨rfl, rfl⟩ := List.cons.inj heq
    exact ⟨rfl, hy⟩
  · rintro ⟨rfl, rfl⟩
    exact ⟨x, rfl, rfl⟩

theorem plainValue_none {c : Char} (hb : c ≠ '\\') (t : Text) :
    plainValue .none (c :: t) =
      if c = '\'' then plainValue .single t
      else if c = '"' then plainValue .double t
      else if c = '\n' then decide (t = [])
      else if isBlank c then plainEnd t
      else !isSpace c && !isOperator c && c ≠ '#' && c ≠ '$' && c ≠ '`' &&
        (nextSpecial (c :: t)).isSome && plainValue .none t := by
  conv => lhs; unfold plainValue
  rw [if_neg hb]

theorem plainValue_single {c : Char} (hb : c ≠ '\\') (t : Text) :
    plainValue .single (c :: t) =
      if c = '\'' then plainValue .none t else plainValue .single t := by
  conv => lhs; unfold plainValue
  rw [if_neg hb]

theorem plainValue_double {c : Char} (hb : c ≠ '\\') (t : Text) :
    plainValue .double (c :: t) =
      if c = '"' then plainValue .none t else plainValue .double t := by
  conv => lhs; unfold plainValue
  rw [if_neg hb]

/-- A word does not end, empty, before an ordinary character. -/
theorem shellWord_none_ordinary {c : Char} (hb : c ≠ '\\') (hquote : c ≠ '\'') (hdquote : c ≠ '"')
    (hnl : c ≠ '\n') (hblank : isBlank c = false) (t x : Text) :
    shellWord .none (c :: t) = some x ↔
      c ≠ '$' ∧ c ≠ '`' ∧ isOperator c = false ∧ (shellWord .none t).map (c :: ·) = some x := by
  rw [shellWord_none hb, if_neg hquote, if_neg hdquote]
  by_cases hsub : c = '$' ∨ c = '`'
  · rw [if_pos hsub]
    simp only [reduceCtorEq, false_iff]
    rintro ⟨hd, hbt, -⟩
    exact hsub.elim hd hbt
  · rw [if_neg hsub]
    rw [not_or] at hsub
    cases hop : isOperator c with
    | true =>
      rw [if_pos (by simp), shellEnd_operator hop]
      simp
    | false =>
      rw [if_neg (by simp [hnl, hblank])]
      simp [hsub]

/-- At the end of what the scanner looks at. -/
theorem shellWord_iff_plain_unread {q : Quoting} {t : Text} (h : nextSpecial t = none) :
    shellWord q t = some [] ↔ plainValue q t = true := by
  cases t with
  | nil => cases q <;> simp [shellWord, plainValue]
  | cons c t =>
    obtain ⟨hc, -, hb, -⟩ := nextSpecial_eq_none h
    have hne (d : Char) (hd : isSpecialChar d = true) : c ≠ d := by
      rintro rfl
      rw [hc] at hd
      cases hd
    by_cases hb' : c = '\\'
    · rw [hb', hb hb']
      cases q <;> decide
    cases q with
    | none =>
      have hblank : isBlank c = false := by
        by_contra hbl
        rw [Bool.not_eq_false] at hbl
        rw [isSpecialChar_of_isSpace (isSpace_of_isBlank hbl)] at hc
        cases hc
      have hplain : plainValue .none (c :: t) = false := by
        rw [plainValue_none hb', if_neg (hne _ (by decide)), if_neg (hne _ (by decide)),
          if_neg (hne _ (by decide)), hblank, h]
        simp
      rw [hplain, shellWord_none_ordinary hb' (hne _ (by decide)) (hne _ (by decide))
        (hne _ (by decide)) hblank]
      simp
    | single =>
      rw [shellWord_single, if_neg (hne _ (by decide)), plainValue_unread (by decide) h]
      simp
    | double =>
      rw [shellWord_double hb', if_neg (hne _ (by decide)), plainValue_unread (by decide) h]
      split <;> simp

theorem ahead_of_hidden_quote : Ahead .single .none ['\''] := by
  exact ⟨by decide, forall_mem_of_all rfl, by decide, by decide⟩

/-- On the rest of a value, the shell reads what the scanner reads, if and only if the rest
is plain. -/
def Agree (q : Quoting) (t : Text) : Prop :=
  ∀ ⦃x : Text⦄, scanValue q t = some x → (shellWord q t = some x ↔ plainValue q t = true)

theorem agree_escape {d : Char} {t : Text} (ht : ∀ q, Agree q t) (q : Quoting) :
    Agree q ('\\' :: d :: t) := by
  intro x h
  rw [scanValue_escape] at h
  cases q with
  | none =>
    rw [if_neg (by decide)] at h
    rw [shellWord_escape_none]
    show _ ↔ plainValue .none t = true
    split at h
    · next hd =>
      rw [if_pos hd]
      exact ht .none h
    · next hd =>
      obtain ⟨x', hx', rfl⟩ := Option.map_eq_some_iff.mp h
      rw [if_neg hd, map_cons_iff, ht .none hx']
      simp
  | single =>
    rw [if_pos rfl] at h
    obtain ⟨x', hx', rfl⟩ := Option.map_eq_some_iff.mp h
    have hplain : plainValue .single ('\\' :: d :: t) =
        (decide (d ≠ '\'') && plainValue .single t) := rfl
    rw [hplain, shellWord_single, if_neg (by decide), List.cons_append, map_cons_iff,
      shellWord_single]
    by_cases hd : d = '\''
    · -- the shell closes the string here
      subst hd
      have hdiff : shellWord .none t ≠ some ('\'' :: x') :=
        fun hshell => out_of_step ahead_of_hidden_quote hx' hshell
      simp [hdiff]
    · rw [if_neg hd, List.cons_append, List.nil_append, map_cons_iff, ht .single hx']
      simp [hd]
  | double =>
    rw [if_neg (by decide)] at h
    have hplain : plainValue .double ('\\' :: d :: t) =
        (decide (d = '\n' ∨ d = '$' ∨ d = '`' ∨ d = '"' ∨ d = '\\') &&
          plainValue .double t) := rfl
    rw [hplain, shellWord_escape_double]
    split at h
    · next hd =>
      rw [if_pos hd, ht .double h]
      simp [hd]
    · next hd =>
      obtain ⟨x', hx', rfl⟩ := Option.map_eq_some_iff.mp h
      rw [if_neg hd]
      split
      · next hd' =>
        rw [map_cons_iff, ht .double hx']
        simp [hd']
      · next hd' =>
        -- the shell keeps the backslash
        simp only [not_or] at hd'
        have hne : '\\' ≠ d := Ne.symm hd'.2.2.2
        simp [hd, hd', hne]

section Read

variable {c : Char} {t : Text} (hb : c ≠ '\\') (hread : nextSpecial (c :: t) ≠ none)

include hb hread

theorem agree_single (ht : ∀ q, Agree q t) : Agree .single (c :: t) := by
  intro x h
  rw [scanValue_single hb hread] at h
  rw [shellWord_single, plainValue_single hb]
  split at h
  · next hc =>
    rw [if_pos hc, if_pos hc]
    exact ht .none h
  · next hc =>
    obtain ⟨x', hx', rfl⟩ := Option.map_eq_some_iff.mp h
    rw [if_neg hc, if_neg hc, map_cons_iff, ht .single hx']
    simp

theorem agree_double (ht : ∀ q, Agree q t) : Agree .double (c :: t) := by
  intro x h
  rw [scanValue_double hb hread] at h
  rw [shellWord_double hb, plainValue_double hb]
  split at h
  · next hc =>
    rw [if_pos hc, if_pos hc]
    exact ht .none h
  next hc =>
  split at h
  · cases h
  next hsub =>
  obtain ⟨x', hx', rfl⟩ := Option.map_eq_some_iff.mp h
  have hsub' : ¬(c = '$' ∨ c = '`') := fun h => hsub (h.imp_right .inl)
  rw [if_neg hc, if_neg hc, if_neg hsub', map_cons_iff, ht .double hx']
  simp

omit hread in
/-- Behind a blank, the scanner looks for the end of the line only. -/
theorem agree_blank (hnl : c ≠ '\n') (hspace : isSpace c = true) (hafter : afterValue t = true) :
    shellWord .none (c :: t) = some [] ↔ plainValue .none (c :: t) = true := by
  have hquote : c ≠ '\'' := by
    rintro rfl
    exact absurd hspace (by decide)
  have hdquote : c ≠ '"' := by
    rintro rfl
    exact absurd hspace (by decide)
  cases hblank : isBlank c with
  | true =>
    have hsub : ¬(c = '$' ∨ c = '`') := by
      rintro (rfl | rfl) <;> exact absurd hspace (by decide)
    rw [shellWord_none hb, plainValue_none hb, shellEnd_blank hblank,
      shellEnd_of_afterValue hafter]
    simp [hquote, hdquote, hnl, hsub, hblank]
  | false =>
    rw [shellWord_none_ordinary hb hquote hdquote hnl hblank, plainValue_none hb]
    simp [hquote, hdquote, hnl, hspace, hblank]

theorem agree_none (ht : ∀ q, Agree q t) : Agree .none (c :: t) := by
  intro x h
  rw [scanValue_none hb hread] at h
  split at h
  · next hnl =>
    subst hnl
    rw [shellWord_newline, plainValue_none (by decide)]
    split at h
    · next ht =>
      cases h
      simp [ht]
    · cases h
  next hnl =>
  split at h
  · next hspace =>
    split at h
    · next hafter =>
      cases h
      exact agree_blank hb hnl hspace hafter
    · cases h
  next hspace =>
  have hblank : isBlank c = false := by
    by_contra hbl
    rw [Bool.not_eq_false] at hbl
    exact hspace (isSpace_of_isBlank hbl)
  split at h
  · next hc =>
    subst hc
    split at h
    · cases h
      rw [shellWord_none_ordinary (by decide) (by decide) (by decide) (by decide) hblank,
        plainValue_none (by decide)]
      simp [hblank]
    · cases h
  next hcomment =>
  split at h
  · next hc =>
    rw [shellWord_none hb, plainValue_none hb, if_pos hc, if_pos hc]
    exact ht .single h
  next hquote =>
  split at h
  · next hc =>
    rw [shellWord_none hb, plainValue_none hb, if_neg hquote, if_pos hc, if_neg hquote,
      if_pos hc]
    exact ht .double h
  next hdquote =>
  split at h
  · cases h
  next hsub =>
  simp only [not_or] at hsub
  obtain ⟨x', hx', rfl⟩ := Option.map_eq_some_iff.mp h
  rw [shellWord_none_ordinary hb hquote hdquote hnl hblank, map_cons_iff,
    ht .none hx', plainValue_none hb]
  have hsome := Option.isSome_iff_ne_none.mpr hread
  rw [Bool.not_eq_true] at hspace
  simp [hquote, hdquote, hnl, hblank, hspace, hcomment, hsub, hsome]

end Read

/-- Where the scanner reads a value, the shell reads the same one if and only if the
value is plain. -/
theorem shellWord_iff_plain (q : Quoting) (t : Text) : Agree q t := by
  by_cases hnone : nextSpecial t = none
  · intro x h
    rw [scanValue_unread q hnone] at h
    cases h
    exact shellWord_iff_plain_unread hnone
  cases t with
  | nil => exact absurd rfl hnone
  | cons c t =>
    by_cases hb : c = '\\'
    · subst hb
      cases t with
      | nil => exact absurd rfl hnone
      | cons d t => exact agree_escape (fun q => shellWord_iff_plain q t) q
    have ht (q : Quoting) : Agree q t := shellWord_iff_plain q t
    cases q with
    | none => exact agree_none hb hnone ht
    | single => exact agree_single hb hnone ht
    | double => exact agree_double hb hnone ht
termination_by t.length

end ShellSoundLemmas

open ShellSoundLemmas

/-! ## Reported assignments -/

/-- When the scanner reports a name and a value, the statement is read by the shell as
that assignment, if and only if it is plain. -/
theorem reported_assignment_iff {file text name value : Text} {rest : List Text}
    (h : shellvarsNext (lines file) = some (⟨text, some name, some value⟩, rest)) :
    shellAssignment text = some (name, value) ↔ plainAssignment text = true := by
  obtain ⟨w, hassign, hvalue⟩ := shellvarsNext_alone_iff.mp (shellvarsNext_alone h)
  obtain ⟨p, hp, hname, htext⟩ := assignment_eq_some.mp hassign
  change text = p ++ name ++ '=' :: w at htext
  change assignment text = some (name, w) at hassign
  have hblanks : text.takeWhile isSpace = p := by
    obtain ⟨c, s, rfl, hstart, -⟩ := hname
    rw [htext, List.append_assoc]
    exact (takeWhile_append_of_neg (fun c hc => (hp c hc).1) (isSpace_of_isNameStart hstart) _).1
  unfold plainAssignment
  rw [hblanks, hassign, htext, shellAssignment_eq_some (fun c hc => (hp c hc).1) hname,
    shellWord_iff_plain _ _ hvalue]
  simp

theorem reported_assignment_quoted :
    shellAssignment "A=\"b c\"'d'\n" = some (("A" : Text), ("b cd" : Text)) := by
  have h : shellvarsNext (lines "A=\"b c\"'d'\nB=1\n") =
      some ((⟨"A=\"b c\"'d'\n", some "A", some "b cd"⟩, ["B=1\n"]) : Statement × List Text) := by
    decide +kernel
  exact (reported_assignment_iff h).mpr (by decide +kernel)

/-- The line `FOO=a#b` is reported as the assignment of `a`, and the shell assigns `a#b`. -/
theorem reports_other_value :
    shellvarsNext (lines "FOO=a#b\n") = some (⟨"FOO=a#b\n", some "FOO", some "a"⟩, []) ∧
      shellAssignment "FOO=a#b\n" ≠ some (("FOO" : Text), ("a" : Text)) := by
  decide +kernel

end DebianKernel.DiskId
