import DebianKernel.DiskId.ShellScan

/-!
# Quoting a shell value

`shellvars_quote` puts a value in single quotes, and `shellvars_next` reads it back.
The two are inverse exactly when each single quote of the value has a backslash in
front of it and no backslash is left over (`paired`): the replacement of the quoting
loses its backslash, and the scanner lets a backslash protect the character behind it
also in single quotes.

Results:
1. `shellvarsNext_quoted`: a paired value is read back, whatever follows.
2. `scanValue_bounded`: what can be read when the quotes are out of step.
3. `quote_roundtrip_iff`: a value is read back if and only if it is paired.
-/

namespace DebianKernel.DiskId

open Text ShellVarsLemmas ShellScanLemmas

/-! ## Paired values -/

/-- Backslashes pair with the character behind them, and a single quote stands only in
such a pair. -/
def paired : Text → Bool
  | [] => true
  | ['\\'] => false
  | '\\' :: _ :: t => paired t
  | c :: t => c ≠ '\'' && paired t

/-- The body of the quoted value. -/
def quoteBody (value : Text) : Text :=
  value.flatMap fun c => if c = '\'' then ['\'', '\'', '\''] else [c]

/-- What follows the body: the closing quote and the newline. -/
def quoteEnd : Text := ['\'', '\n']

/-- The statement `NAME=value`, quoted, on a line of its own. -/
def quotedStatement (name value : Text) : Text :=
  name ++ '=' :: shellvarsQuote value ++ ['\n']

namespace ShellQuoteLemmas

@[simp] theorem quoteBody_quote (t : Text) :
    quoteBody ('\'' :: t) = '\'' :: '\'' :: '\'' :: quoteBody t := rfl

theorem quoteBody_cons {c : Char} (h : c ≠ '\'') (t : Text) :
    quoteBody (c :: t) = c :: quoteBody t := by
  show (if c = '\'' then ['\'', '\'', '\''] else [c]) ++ quoteBody t = c :: quoteBody t
  rw [if_neg h]
  rfl

theorem nextSpecial_quoteEnd (t : Text) : nextSpecial (t ++ quoteEnd) ≠ none :=
  nextSpecial_append_special (by decide) t ['\n']

theorem paired_cons {c : Char} (hb : c ≠ '\\') (t : Text) :
    paired (c :: t) = (decide (c ≠ '\'') && paired t) := by
  rw [paired]
  · intro h
    exact absurd h hb
  · intro d t' h
    exact absurd h hb

/-! ### Reading a quoted value -/

theorem scanValue_single_open (t : Text) :
    scanValue .single ('\'' :: t) = scanValue .none t := by
  rw [scanValue_single (by decide) (nextSpecial_special (by decide) t), if_pos rfl]

theorem scanValue_none_open (t : Text) :
    scanValue .none ('\'' :: t) = scanValue .single t := by
  rw [scanValue_none (by decide) (nextSpecial_special (by decide) t)]
  rfl

theorem scanValue_single_pair (d : Char) (t : Text) :
    scanValue .single ('\\' :: d :: t) = (scanValue .single t).map (['\\', d] ++ ·) := by
  rw [scanValue_escape, if_pos rfl]

theorem scanValue_single_keep {c : Char} {t : Text} (hb : c ≠ '\\') (hq : c ≠ '\'')
    (hne : nextSpecial (c :: t) ≠ none) :
    scanValue .single (c :: t) = (scanValue .single t).map (c :: ·) := by
  rw [scanValue_single hb hne, if_neg hq]

/-- Two quotes in a row, in single quotes: the string is closed and opened again. -/
theorem scanValue_single_reopen (t : Text) :
    scanValue .single ('\'' :: '\'' :: t) = scanValue .single t := by
  rw [scanValue_single_open, scanValue_none_open]

/-- A backslash pair of the value, which is one also after the quoting. -/
theorem scanValue_quoted_pair (d : Char) (t : Text) :
    scanValue .single (quoteBody ('\\' :: d :: t) ++ quoteEnd) =
      (scanValue .single (quoteBody t ++ quoteEnd)).map (['\\', d] ++ ·) := by
  rw [quoteBody_cons (by decide)]
  by_cases hd : d = '\''
  · subst hd
    rw [quoteBody_quote]
    show scanValue .single ('\\' :: '\'' :: '\'' :: '\'' :: (quoteBody t ++ quoteEnd)) = _
    rw [scanValue_single_pair, scanValue_single_reopen]
  · rw [quoteBody_cons hd]
    exact scanValue_single_pair d _

/-! ### Out of step -/

/-- The number of characters that are not newlines. -/
def solid (t : Text) : Nat := t.countP (· ≠ '\n')

theorem solid_cons (c : Char) (t : Text) :
    solid (c :: t) = solid t + if c = '\n' then 0 else 1 := by
  unfold solid
  rw [List.countP_cons]
  by_cases hc : c = '\n' <;> simp [hc]

/-- A bound on what is read from the quoted form of `u`: fewer double quotes, or as many
and not more other characters. In single quotes one more is possible, since the closing
quote can be read after a backslash; in double quotes only the double quotes count. -/
def Bounded (q : Quoting) (x u : Text) : Prop :=
  x.count '"' < u.count '"' ∨
    x.count '"' = u.count '"' ∧
      (q ≠ .double → solid x ≤ solid u + if q = .single then 1 else 0)

theorem bounded_nil (q : Quoting) (u : Text) : Bounded q [] u := by
  by_cases h : u.count '"' = 0
  · exact .inr ⟨h.symm, fun _ => Nat.zero_le _⟩
  · exact .inl (Nat.pos_of_ne_zero h)

/-- A character that is read as itself. -/
theorem Bounded.keep {q : Quoting} {x u : Text} (h : Bounded q x u) (c : Char) :
    Bounded q (c :: x) (c :: u) := by
  unfold Bounded
  simp only [List.count_cons, solid_cons]
  cases h with
  | inl h => exact .inl (by omega)
  | inr h => exact .inr ⟨by omega, fun hq => by have := h.2 hq; omega⟩

/-- A character that is left out, and is no double quote. -/
theorem Bounded.skip {q : Quoting} {x u : Text} (h : Bounded q x u) {c : Char} (hc : c ≠ '"') :
    Bounded q x (c :: u) := by
  unfold Bounded
  rw [List.count_cons_of_ne (Ne.symm (Ne.symm hc)), solid_cons]
  cases h with
  | inl h => exact .inl h
  | inr h => exact .inr ⟨h.1, fun hq => by have := h.2 hq; omega⟩

/-- A single quote of the value opens or closes single quotes. -/
theorem Bounded.quote {q q' : Quoting} {x u : Text} (h : Bounded q' x u)
    (hq : q = .none ∧ q' = .single ∨ q = .single ∧ q' = .none) : Bounded q x ('\'' :: u) := by
  unfold Bounded
  rw [List.count_cons_of_ne (by decide), solid_cons, if_neg (by decide)]
  cases h with
  | inl h => exact .inl h
  | inr h =>
    refine .inr ⟨h.1, ?_⟩
    intro _
    rcases hq with ⟨rfl, rfl⟩ | ⟨rfl, rfl⟩
    · exact h.2 (by decide)
    · exact Nat.le_add_right_of_le (Nat.le_add_right_of_le (h.2 (by decide)))

/-- A double quote that opens or closes double quotes. -/
theorem Bounded.dquote {q q' : Quoting} {x u : Text} (h : Bounded q' x u) :
    Bounded q x ('"' :: u) := by
  unfold Bounded at *
  rw [List.count_cons_self]
  exact .inl (by omega)

/-- Single quotes do not count in double quotes. -/
theorem Bounded.quote_kept {x u : Text} (h : Bounded .double x u) :
    Bounded .double ('\'' :: x) u := by
  unfold Bounded
  rw [List.count_cons_of_ne (by decide)]
  cases h with
  | inl h => exact .inl h
  | inr h => exact .inr ⟨h.1, fun hq => absurd rfl hq⟩

theorem scanValue_double_quote (t : Text) :
    scanValue .double ('\'' :: t) = (scanValue .double t).map ('\'' :: ·) := by
  rw [scanValue_double (by decide) (nextSpecial_special (by decide) t)]
  rfl

theorem map_eq_some_cons {o : Option Text} {c : Char} {x : Text} (h : o.map (c :: ·) = some x) :
    ∃ y, o = some y ∧ x = c :: y := by
  obtain ⟨y, hy, rfl⟩ := Option.map_eq_some_iff.mp h
  exact ⟨y, hy, rfl⟩

/-- The two quotes that the quoting adds are read in pairs, or kept. -/
theorem bounded_of_quotes {q : Quoting} {t x u : Text}
    (h : scanValue q ('\'' :: '\'' :: t) = some x)
    (hb : ∀ y, scanValue q t = some y → Bounded q y u) : Bounded q x u := by
  cases q with
  | none =>
    rw [scanValue_none_open, scanValue_single_open] at h
    exact hb x h
  | single =>
    rw [scanValue_single_reopen] at h
    exact hb x h
  | double =>
    rw [scanValue_double_quote, scanValue_double_quote] at h
    obtain ⟨y, hy, rfl⟩ := map_eq_some_cons h
    obtain ⟨z, hz, rfl⟩ := map_eq_some_cons hy
    exact (hb z hz).quote_kept.quote_kept

theorem quoteBody_pair (d : Char) (u : Text) :
    quoteBody ('\\' :: d :: u) ++ quoteEnd = '\\' :: d ::
      ((if d = '\'' then ['\'', '\''] else []) ++ (quoteBody u ++ quoteEnd)) := by
  rw [quoteBody_cons (by decide)]
  by_cases hd : d = '\''
  · subst hd
    rfl
  · rw [quoteBody_cons hd, if_neg hd]
    rfl

/-- The bound on what the scanner makes of the quoted form of `u`, from any context. -/
def ScansBounded (u : Text) : Prop :=
  ∀ ⦃q : Quoting⦄ ⦃x : Text⦄, scanValue q (quoteBody u ++ quoteEnd) = some x → Bounded q x u

/-- A pair is read in one step, and then the quotes that follow a single quote. -/
theorem scansBounded_pair {u : Text} (hu : ScansBounded u) (d : Char) :
    ScansBounded ('\\' :: d :: u) := by
  intro q x h
  have hrest (y : Text) (hy : scanValue q ((if d = '\'' then ['\'', '\''] else []) ++
      (quoteBody u ++ quoteEnd)) = some y) : Bounded q y u := by
    by_cases hd : d = '\''
    · rw [if_pos hd] at hy
      exact bounded_of_quotes hy fun z hz => hu hz
    · rw [if_neg hd] at hy
      exact hu hy
  rw [quoteBody_pair, scanValue_escape] at h
  split at h
  · obtain ⟨y, hy, rfl⟩ := Option.map_eq_some_iff.mp h
    exact ((hrest y hy).keep d).keep '\\'
  · split at h
    · next hd => exact ((hrest x h).skip (by rw [hd]; decide)).skip (by decide)
    · obtain ⟨y, hy, rfl⟩ := map_eq_some_cons h
      exact ((hrest y hy).keep d).skip (by decide)

theorem scansBounded_quote {u : Text} (hu : ScansBounded u) : ScansBounded ('\'' :: u) := by
  intro q x h
  have hrest {q' : Quoting} {y : Text}
      (hy : scanValue q' ('\'' :: '\'' :: (quoteBody u ++ quoteEnd)) = some y) :
      Bounded q' y u := bounded_of_quotes hy fun z hz => hu hz
  rw [quoteBody_quote] at h
  cases q with
  | none => exact (hrest ((scanValue_none_open _).symm.trans h)).quote (by simp)
  | single => exact (hrest ((scanValue_single_open _).symm.trans h)).quote (by simp)
  | double =>
    obtain ⟨y, hy, rfl⟩ := map_eq_some_cons ((scanValue_double_quote _).symm.trans h)
    exact ((hrest hy).skip (by decide)).quote_kept

theorem scansBounded_char {c : Char} {u : Text} (hb : c ≠ '\\') (hquote : c ≠ '\'')
    (hu : ScansBounded u) : ScansBounded (c :: u) := by
  intro q x h
  have hne : nextSpecial (c :: (quoteBody u ++ quoteEnd)) ≠ none :=
    nextSpecial_quoteEnd (c :: quoteBody u)
  rw [quoteBody_cons hquote, List.cons_append] at h
  cases q with
  | single =>
    rw [scanValue_single_keep hb hquote hne] at h
    obtain ⟨y, hy, rfl⟩ := map_eq_some_cons h
    exact (hu hy).keep c
  | double =>
    rw [scanValue_double hb hne] at h
    split at h
    · next hc =>
      subst hc
      exact (hu h).dquote
    · split at h
      · cases h
      · obtain ⟨y, hy, rfl⟩ := map_eq_some_cons h
        exact (hu hy).keep c
  | none =>
    rw [scanValue_none hb hne, if_neg hquote] at h
    split at h
    · split at h
      · next hnil => simp [quoteEnd] at hnil
      · cases h
    split at h
    · split at h <;> cases h
      exact bounded_nil _ _
    split at h
    · split at h <;> cases h
      exact bounded_nil _ _
    split at h
    · next hc =>
      subst hc
      exact (hu h).dquote
    split at h
    · cases h
    · obtain ⟨y, hy, rfl⟩ := map_eq_some_cons h
      exact (hu hy).keep c

theorem scanValue_bounded (u : Text) : ScansBounded u := by
  cases u with
  | nil =>
    intro q x h
    cases q <;> cases h <;> exact .inr (by decide)
  | cons c u =>
    by_cases hb : c = '\\'
    · subst hb
      cases u with
      | nil =>
        intro q x h
        cases q <;> cases h <;> exact .inr (by decide)
      | cons d u => exact scansBounded_pair (scanValue_bounded u) d
    by_cases hquote : c = '\''
    · rw [hquote]
      exact scansBounded_quote (scanValue_bounded u)
    · exact scansBounded_char hb hquote (scanValue_bounded u)
termination_by u.length

/-- Only a paired value is read back. -/
theorem paired_of_scanValue {value : Text}
    (h : scanValue .single (quoteBody value ++ quoteEnd) = some value) : paired value = true := by
  cases value with
  | nil => rfl
  | cons c t =>
    by_cases hb : c = '\\'
    · subst hb
      cases t with
      | nil => exact absurd h (by decide)
      | cons d t =>
        rw [scanValue_quoted_pair, Option.map_eq_some_iff] at h
        obtain ⟨y, hy, heq⟩ := h
        have hyt : y = t := (List.cons.inj (List.cons.inj heq).2).2
        rw [hyt] at hy
        show paired t = true
        exact paired_of_scanValue hy
    · have hquote : c ≠ '\'' := by
        rintro rfl
        rw [quoteBody_quote] at h
        have hbound : Bounded .none ('\'' :: t) t :=
          bounded_of_quotes ((scanValue_single_open _).symm.trans h)
            fun z hz => scanValue_bounded _ hz
        unfold Bounded at hbound
        rw [List.count_cons_of_ne (by decide), solid_cons, if_neg (by decide)] at hbound
        cases hbound with
        | inl hlt => exact absurd hlt (Nat.lt_irrefl _)
        | inr hle => exact absurd (hle.2 (by decide)) (Nat.not_succ_le_self _)
      rw [paired_cons hb, decide_eq_true hquote, Bool.true_and]
      have hne : nextSpecial (c :: (quoteBody t ++ quoteEnd)) ≠ none :=
        nextSpecial_quoteEnd (c :: quoteBody t)
      rw [quoteBody_cons hquote, List.cons_append, scanValue_single_keep hb hquote hne] at h
      obtain ⟨y, hy, heq⟩ := map_eq_some_cons h
      rw [← (List.cons.inj heq).2] at hy
      exact paired_of_scanValue hy
termination_by value.length

/-! ### A quoted statement in front of a text -/

theorem quotedStatement_eq (name value : Text) :
    quotedStatement name value = name ++ '=' :: '\'' :: (quoteBody value ++ quoteEnd) := by
  simp [quotedStatement, shellvarsQuote, quoteBody, quoteEnd]

/-- The scanner reads a paired value up to the newline behind it. -/
theorem scan_quoted {value : Text} (h : paired value = true) (name acc t : Text) :
    scan (valueState .single name acc) (quoteBody value ++ quoteEnd ++ t) =
      ({ valueState .none name (acc ++ value) with inValue := false }, t) := by
  fun_induction paired value generalizing acc with
  | case1 =>
    show scan _ ('\'' :: '\n' :: t) = _
    rw [scan_step (special_of_isSpecialChar (by decide) _) (handle_quote .none name acc (by simp)),
      scan_special (nextSpecial_of_special (special_of_isSpecialChar (by decide) t))]
    rfl
  | case2 => cases h
  | case3 d u ih =>
    rw [quoteBody_pair, List.cons_append, List.cons_append, scan_escape, if_pos rfl]
    by_cases hd : d = '\''
    · subst hd
      show scan _ ('\'' :: '\'' :: (quoteBody u ++ quoteEnd ++ t)) = _
      rw [scan_step (special_of_isSpecialChar (by decide) _) (handle_quote .none name _ (by simp)),
        scan_step (special_of_isSpecialChar (by decide) _) (handle_quote .single name _ (by simp)),
        ih h, List.append_assoc]
      rfl
    · rw [if_neg hd, List.nil_append, ih h, List.append_assoc]
      rfl
  | case4 c u hlone hpair ih =>
    rw [Bool.and_eq_true, decide_eq_true_eq] at h
    have hb : c ≠ '\\' := by
      rintro rfl
      cases u with
      | nil => exact hlone rfl rfl
      | cons d u => exact hpair d u rfl rfl
    have hne : nextSpecial (c :: (quoteBody u ++ quoteEnd ++ t)) ≠ none := by
      rw [List.append_assoc]
      exact nextSpecial_append_special (c := '\'') (by decide) (c :: quoteBody u) ('\n' :: t)
    rw [quoteBody_cons h.1, List.cons_append, List.cons_append]
    have hkeep : scan (valueState .single name acc) (c :: (quoteBody u ++ quoteEnd ++ t)) =
        scan (valueState .single name (acc ++ [c])) (quoteBody u ++ quoteEnd ++ t) := by
      by_cases hd : c = '$'
      · rw [hd, scan_single_dollar]
      · exact scan_keep hb hd hne rfl fun _ => handle_keep_single name acc h.1
    rw [hkeep, ih h.2, List.append_assoc]
    rfl

/-- The statement of a paired value is read also when a text follows it. -/
theorem shellvarsNext_quoted {name value : Text} (hname : IsName name)
    (h : paired value = true) (t : Text) :
    shellvarsNext (lines (quotedStatement name value ++ t)) =
      some (⟨quotedStatement name value, some name, some value⟩, lines t) := by
  have hassign : assignment (quotedStatement name value ++ t) =
      some (name, '\'' :: (quoteBody value ++ quoteEnd ++ t)) := by
    rw [quotedStatement_eq]
    exact assignment_eq_some.mpr ⟨[], fun c hc => absurd hc List.not_mem_nil, hname, by simp⟩
  cases hl : lines (quotedStatement name value ++ t) with
  | nil =>
    rw [assignment, hl] at hassign
    cases hassign
  | cons line file =>
    rw [assignment_cons hl, Option.map_eq_some_iff] at hassign
    obtain ⟨⟨name', rest⟩, hm, heq⟩ := hassign
    simp only [Prod.mk.injEq] at heq
    obtain ⟨rfl, hrest⟩ := heq
    have hstart : startValue .initial line = (valueState .none name' [], rest) := by
      rw [startValue, hm]
      rfl
    obtain ⟨text, hnext⟩ := nextLines_start hl
    have hopen : scan (valueState .none name' []) ('\'' :: (quoteBody value ++ quoteEnd ++ t)) =
        ({ valueState .none name' value with inValue := false }, t) := by
      rw [scan_step (special_of_isSpecialChar (by decide) _)
          (handle_quote .single name' _ (by simp)),
        scan_quoted h]
      rfl
    rw [hstart, hrest, hopen] at hnext
    -- the text read is what the rest leaves
    obtain ⟨used, hused, htext, -⟩ := nextLines_used hnext
    have hquoted : text = quotedStatement name' value := by
      have hflat := congrArg List.flatten hused
      rw [flatten_lines, List.flatten_append, flatten_lines, List.append_cancel_right_eq] at hflat
      rw [htext, hflat, List.nil_append]
    rw [hquoted] at hnext
    rw [← hl, shellvarsNext_of_nextLines hnext (by simp [quotedStatement])]
    rfl

end ShellQuoteLemmas

open ShellQuoteLemmas

/-! ## The round trip -/

/-- The scanner reads a quoted value back as one statement, if and only if the value is
paired. -/
theorem quote_roundtrip_iff {name : Text} (hname : IsName name) (value : Text) :
    shellvarsNext (lines (quotedStatement name value)) =
        some (⟨quotedStatement name value, some name, some value⟩, []) ↔
      paired value = true := by
  constructor
  · intro h
    have hassign : assignment (quotedStatement name value) =
        some (name, '\'' :: (quoteBody value ++ quoteEnd)) := by
      rw [quotedStatement_eq]
      exact assignment_eq_some.mpr ⟨[], fun c hc => absurd hc List.not_mem_nil, hname, rfl⟩
    rw [shellvarsNext_alone_iff, hassign] at h
    obtain ⟨w, hw, hvalue⟩ := h
    cases hw
    rw [scanValue_none_open] at hvalue
    exact paired_of_scanValue hvalue
  · intro h
    have hread := shellvarsNext_quoted hname h []
    rwa [List.append_nil] at hread

theorem quote_roundtrip_kernel_options :
    shellvarsNext (lines (quotedStatement "GRUB_CMDLINE_LINUX" "root=/dev/hda1 $x")) =
      some (⟨quotedStatement "GRUB_CMDLINE_LINUX" "root=/dev/hda1 $x",
        some "GRUB_CMDLINE_LINUX", some "root=/dev/hda1 $x"⟩, []) :=
  (quote_roundtrip_iff
    ⟨'G', "RUB_CMDLINE_LINUX", rfl, by decide, forall_mem_of_all rfl⟩ _).mpr (by decide)

/-- The value `it's` is not read back. -/
theorem quote_loses_quote :
    IsName "A" ∧ shellvarsNext (lines (quotedStatement "A" "it's")) ≠
      some (⟨quotedStatement "A" "it's", some "A", some "it's"⟩, []) :=
  ⟨⟨'A', [], rfl, by decide, forall_mem_of_all rfl⟩, by decide⟩

end DebianKernel.DiskId
