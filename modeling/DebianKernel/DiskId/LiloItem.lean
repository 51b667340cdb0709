import DebianKernel.DiskId.LiloText

/-!
# Rewritten items of lilo.conf

A rewritten item is printed as a comment with the old item and the new one in quotes, with
each backslash doubled. Reading it back undoes the doubling, but quotes and dollar signs
are printed as they are, and `elilo_update` prints a boot device without quotes.

Results:
1. `unescape_double`: doubling is undone.
2. `fileMatches_item`, `item_tokens`: what is read of the text that is printed.
3. `line_read`, `line_not_read`: a value is read back if it is `Printable`, and else
   another value is read, or none at all.
-/

namespace DebianKernel.DiskId

open Text

/-! ## The two updates -/

inductive LiloLoader
  | lilo
  | elilo
  deriving DecidableEq

namespace LiloLoader

/-- `lilo_update` and `elilo_update`. -/
def update : LiloLoader → Text → DeviceMap → Option Text
  | lilo => liloUpdate
  | elilo => eliloUpdate

/-- The function that they pass on. -/
def replace : LiloLoader → LiloReplace
  | lilo => fun _ _ _ => none
  | elilo => fun name value new =>
    if name = "boot" then some ("# boot=" ++ value ++ "\nboot=" ++ new ++ ['\n']) else none

theorem update_eq (loader : LiloLoader) (old : Text) (map : DeviceMap) :
    loader.update old map = liloUpdateWith loader.replace old map := by
  cases loader <;> rfl

end LiloLoader

/-- The value can be read back from where it is printed: between quotes, or as a word for
the boot device of elilo. -/
def Printable (loader : LiloLoader) (name new : Text) : Prop :=
  if loader = .elilo ∧ name = "boot" then '=' ∉ new
  else '"' ∉ new ∧ hasExpansion false new = false

instance (loader : LiloLoader) (name new : Text) : Decidable (Printable loader name new) :=
  inferInstanceAs (Decidable (if loader = .elilo ∧ name = "boot" then '=' ∉ new
    else '"' ∉ new ∧ hasExpansion false new = false))

namespace LiloItemLemmas

open LiloLemmas LiloTextLemmas

/-! ### Doubled backslashes -/

theorem double_cons (c : Char) (t : Text) :
    doubleBackslashes (c :: t) = (if c = '\\' then ['\\', '\\'] else [c]) ++ doubleBackslashes t :=
  List.flatMap_cons

theorem double_append (s t : Text) :
    doubleBackslashes (s ++ t) = doubleBackslashes s ++ doubleBackslashes t :=
  List.flatMap_append

theorem mem_double {t : Text} {c : Char} : c ∈ doubleBackslashes t ↔ c ∈ t := by
  induction t with
  | nil => exact Iff.rfl
  | cons d t ih =>
    rw [double_cons, List.mem_append, ih, List.mem_cons]
    split
    · next hd => simp [hd]
    · rw [List.mem_singleton]

theorem double_of_plain {t : Text} (h : '\\' ∉ t) : doubleBackslashes t = t := by
  induction t with
  | nil => rfl
  | cons c t ih =>
    rw [List.mem_cons, not_or] at h
    rw [double_cons, if_neg (Ne.symm h.1), ih h.2]
    rfl

theorem unescape_cons {c : Char} (hc : c ≠ '\\') (t : Text) :
    unescape id (c :: t) = c :: unescape id t := by
  rw [unescape]
  exact fun _ _ heq => absurd heq hc

/-- What is doubled is undone when the value is read. -/
theorem unescape_double (t : Text) : unescape id (doubleBackslashes t) = t := by
  induction t with
  | nil => rfl
  | cons c t ih =>
    rw [double_cons]
    split
    · next hc =>
      show '\\' :: unescape id (doubleBackslashes t) = _
      rw [ih, hc]
    · next hc =>
      show unescape id (c :: doubleBackslashes t) = _
      rw [unescape_cons hc, ih]

theorem unescape_of_plain {t : Text} (h : '\\' ∉ t) : unescape id t = t := by
  have hdouble := unescape_double t
  rwa [double_of_plain h] at hdouble

theorem hasExpansion_double (escaped : Bool) (t : Text) :
    hasExpansion escaped (doubleBackslashes t) = hasExpansion escaped t := by
  induction t generalizing escaped with
  | nil => rfl
  | cons c t ih =>
    rw [double_cons]
    split
    · next hc =>
      show (_ || (_ || hasExpansion true (doubleBackslashes t))) = _
      rw [ih, hc]
      simp [hasExpansion]
    · show (_ || hasExpansion _ (doubleBackslashes t)) = _
      rw [ih]
      rfl

theorem hasExpansion_of_plain {t : Text} (h : '$' ∉ t) (escaped : Bool) :
    hasExpansion escaped t = false := by
  induction t generalizing escaped with
  | nil => rfl
  | cons c t ih =>
    rw [List.mem_cons, not_or] at h
    rw [hasExpansion, ih h.2]
    simp [Ne.symm h.1]

theorem hasExpansion_append {t s : Text} (hs : '$' ∉ s) (escaped : Bool) :
    hasExpansion escaped (t ++ s) = hasExpansion escaped t := by
  induction t generalizing escaped with
  | nil => exact hasExpansion_of_plain hs escaped
  | cons c t ih =>
    show (_ || hasExpansion _ (t ++ s)) = _
    rw [ih]
    rfl

/-! ### Matches that end their token -/

/-- The token of a match that stands alone. -/
def aloneToken (m : LiloMatch) : LiloToken := ⟨m.text, liloValue m.text m.item.body⟩

theorem fold_alone {ms : List LiloMatch} (h : ∀ m ∈ ms, m.text ≠ [] ∧ m.item.continued = false)
    (tokens : List LiloToken) :
    ms.foldl LiloState.step (.between tokens) = .between (tokens ++ ms.map aloneToken) := by
  induction ms generalizing tokens with
  | nil => rw [List.map_nil, List.append_nil]; rfl
  | cons m ms ih =>
    obtain ⟨hne, hcontinued⟩ := h m List.mem_cons_self
    have hjoin : m.item.join none = m.item.body := by cases m.item <;> rfl
    have hstep : LiloState.step (.between tokens) m = .between (tokens ++ [aloneToken m]) := by
      refine (step_between (fun hnil => absurd rfl hnil) hne).trans ?_
      rw [hcontinued, hjoin]
      rfl
    rw [List.foldl_cons, hstep, ih fun m' hm' => h m' (List.mem_cons_of_mem _ hm'),
      List.append_assoc]
    rfl

/-! ### The text of an item -/

/-- The names of the items that can be rewritten. -/
def liloNames : List Text := ["boot", "root", "addappend", "append", "literal"]

theorem liloNames_facts : ∀ name ∈ liloNames, wordSpan name = (name, []) ∧ name ≠ [] ∧
    hasExpansion false name = false ∧ '"' ∉ name ∧ '\n' ∉ name ∧ '\\' ∉ name ∧ name ≠ "=" := by
  decide

end LiloItemLemmas

namespace LiloLoader

/-- The boot device of elilo is printed without quotes. -/
def bare (loader : LiloLoader) (name : Text) : Bool := loader = elilo ∧ name = "boot"

/-- The blanks and the comment in front of a rewritten item. -/
def lead (loader : LiloLoader) (name value : Text) : List Text :=
  if loader.bare name then ["# boot=" ++ value ++ "\n"]
  else ["\n", "# " ++ name ++ " = " ++ value ++ "\n"]

def equalsText (loader : LiloLoader) (name : Text) : Text :=
  if loader.bare name then "=" else " ="

/-- What is printed behind the equals sign. -/
def valueLine (loader : LiloLoader) (name new : Text) : Text :=
  if loader.bare name then doubleBackslashes new ++ "\n"
  else " \"" ++ doubleBackslashes new ++ "\"\n"

/-- The matches in a rewritten item. -/
def itemMatches (loader : LiloLoader) (name value new : Text) : List LiloMatch :=
  (loader.lead name value).map (⟨·, .blank⟩) ++
    (⟨name, .word name false⟩ :: ⟨loader.equalsText name, .equals⟩ ::
      liloMatches (loader.valueLine name new))

theorem replace_boot (value new : Text) :
    elilo.replace "boot" value new =
      some ("# boot=" ++ value ++ "\nboot=" ++ new ++ ['\n']) := by
  unfold replace
  exact if_pos rfl

theorem itemText_eq (loader : LiloLoader) (old name value new : Text) :
    liloItemText loader.replace old name value (some new) =
      (loader.lead name value).flatten ++ (name ++ (loader.equalsText name ++
        loader.valueLine name new)) := by
  unfold lead equalsText valueLine
  cases hbare : loader.bare name with
  | true =>
    obtain ⟨rfl, rfl⟩ := of_decide_eq_true hbare
    rw [liloItemText, replace_boot, if_pos rfl, if_pos rfl, if_pos rfl, Option.getD_some,
      List.flatten_singleton]
    simp only [List.append_assoc]
    rfl
  | false =>
    have hreplace : loader.replace name value (doubleBackslashes new) = none := by
      cases loader with
      | lilo => rfl
      | elilo => exact if_neg fun hname => of_decide_eq_false hbare ⟨rfl, hname⟩
    rw [liloItemText, hreplace, if_neg Bool.false_ne_true, if_neg Bool.false_ne_true,
      if_neg Bool.false_ne_true, Option.getD_none, List.flatten_cons, List.flatten_singleton]
    simp only [List.append_assoc]
    rfl

end LiloLoader

namespace LiloItemLemmas

open LiloLemmas LiloTextLemmas

/-! ### The matches in a rewritten item -/

theorem isLine_append {s t : Text} (hs : '\n' ∉ s) (ht : IsLine t) : IsLine (s ++ t) := by
  obtain ⟨body, hbody, rfl⟩ := ht
  refine ⟨s ++ body, ?_, (List.append_assoc _ _ _).symm⟩
  rw [List.mem_append, not_or]
  exact ⟨hs, hbody⟩

theorem isLine_newline : IsLine ("\n" : Text) := ⟨[], List.not_mem_nil, rfl⟩

theorem lead_blank (loader : LiloLoader) {name value : Text} (hname : '\n' ∉ name)
    (hvalue : '\n' ∉ value) :
    ∀ t ∈ loader.lead name value, IsLine t ∧ liloMatch t = (⟨t, .blank⟩, []) := by
  unfold LiloLoader.lead
  split
  · intro t ht
    obtain rfl := List.mem_singleton.mp ht
    rw [List.append_assoc]
    exact ⟨isLine_append (by decide) (isLine_append hvalue isLine_newline), rfl⟩
  · intro t ht
    rcases List.mem_cons.mp ht with rfl | ht
    · exact ⟨isLine_newline, rfl⟩
    · obtain rfl := List.mem_singleton.mp ht
      simp only [List.append_assoc]
      exact ⟨isLine_append (by decide) (isLine_append hname
        (isLine_append (by decide) (isLine_append hvalue isLine_newline))), rfl⟩

theorem valueLine_isLine (loader : LiloLoader) (name : Text) {new : Text} (hnew : '\n' ∉ new) :
    IsLine (loader.valueLine name new) := by
  have hdouble : '\n' ∉ doubleBackslashes new := fun hmem => hnew (mem_double.mp hmem)
  unfold LiloLoader.valueLine
  split
  · exact isLine_append hdouble isLine_newline
  · rw [List.append_assoc]
    exact isLine_append (by decide) (isLine_append hdouble ⟨"\"", by decide, rfl⟩)

theorem reads_equalsText (loader : LiloLoader) (name t : Text) :
    Reads ⟨loader.equalsText name, .equals⟩ t ∧
      ∀ c ∈ (loader.equalsText name ++ t).head?, EndsWord c := by
  unfold LiloLoader.equalsText
  split
  · exact ⟨@reads_equals [] (fun _ hc => by cases hc) List.not_mem_nil t,
      fun c hc => Option.some.inj hc ▸ .inr (.inr (.inl rfl))⟩
  · exact ⟨@reads_equals [' '] (forall_mem_of_all rfl) (by decide) t,
      fun c hc => Option.some.inj hc ▸ .inl rfl⟩

theorem fileMatches_item (loader : LiloLoader) {name value new : Text} (hname : name ∈ liloNames)
    (hvalue : '\n' ∉ value) (hnew : '\n' ∉ new) (old z : Text) :
    liloFileMatches (liloItemText loader.replace old name value (some new) ++ z) =
      loader.itemMatches name value new ++ liloFileMatches z := by
  obtain ⟨hword, hne, -, -, hno, -⟩ := liloNames_facts name hname
  obtain ⟨hequals, hends⟩ := reads_equalsText loader name (loader.valueLine name new ++ z)
  rw [loader.itemText_eq, List.append_assoc, fileMatches_blanks (lead_blank loader hno hvalue),
    List.append_assoc name, List.append_assoc (loader.equalsText name)]
  rw [fileMatches_append (reads_word hword hne hends), fileMatches_append hequals,
    fileMatches_line (valueLine_isLine loader name hnew), LiloLoader.itemMatches, List.append_assoc]
  rfl

/-! ### The rest of a value line -/

/-- What is left of a line with a quoted value: the end of the value and its quote, or the
newline. -/
def LineEnd (t : Text) : Prop :=
  (∃ q, t = doubleBackslashes q ++ ['"', '\n']) ∨ t = ['\n'] ∨ t = []

/-- The match ends its token, and its groups hold doubled backslashes and no quote. -/
def EndsToken (item : LiloItem) : Prop :=
  item.continued = false ∧ ∀ body ∈ item.body, ∃ a, '"' ∉ a ∧ body = doubleBackslashes a

theorem wordSpan_double (q : Text) :
    ∃ a b, '"' ∉ a ∧ wordSpan (doubleBackslashes q ++ ['"', '\n']) =
      (doubleBackslashes a, doubleBackslashes b ++ ['"', '\n']) := by
  induction q with
  | nil => exact ⟨[], [], List.not_mem_nil, rfl⟩
  | cons c q ih =>
    obtain ⟨a, b, ha, hspan⟩ := ih
    rw [double_cons, List.append_assoc]
    by_cases hc : c = '\\'
    · refine ⟨'\\' :: a, b, ?_, ?_⟩
      · rw [List.mem_cons, not_or]
        exact ⟨by decide, ha⟩
      · rw [if_pos hc]
        show wordSpan ('\\' :: '\\' :: (doubleBackslashes q ++ ['"', '\n'])) = _
        rw [wordSpan, if_neg (by decide), hspan]
        rfl
    · rw [if_neg hc]
      show ∃ a b, '"' ∉ a ∧ wordSpan (c :: (doubleBackslashes q ++ ['"', '\n'])) = _
      rw [wordSpan.eq_3 _ _ fun d r heq => absurd heq hc]
      split
      · refine ⟨[], c :: q, List.not_mem_nil, ?_⟩
        rw [double_cons, if_neg hc]
        rfl
      · next hplain =>
        refine ⟨c :: a, b, ?_, ?_⟩
        · rw [List.mem_cons, not_or]
          exact ⟨fun heq => hplain (.inr (.inr (.inr (.inl heq.symm)))), ha⟩
        · rw [hspan, double_cons, if_neg hc]
          rfl

theorem lineBreak_double (q : Text) : lineBreak (doubleBackslashes q ++ ['"', '\n']) = none := by
  cases q with
  | nil => rfl
  | cons c q =>
    rw [double_cons, List.append_assoc]
    split
    · rfl
    · next hc =>
      show lineBreak (c :: (doubleBackslashes q ++ ['"', '\n'])) = none
      unfold lineBreak
      split
      · next heq => exact absurd (List.cons.inj heq).1 hc
      · next heq => exact absurd (List.cons.inj heq).1 hc
      · rfl

theorem endsToken_blank : EndsToken .blank := ⟨rfl, fun _ hbody => by cases hbody⟩

theorem groups_double (q : Text) :
    EndsToken (liloGroups (doubleBackslashes q ++ ['"', '\n'])).1.item ∧
      LineEnd (liloGroups (doubleBackslashes q ++ ['"', '\n'])).2 := by
  have hword (hhead : ∀ c ∈ (doubleBackslashes q ++ ['"', '\n']).head?,
      c ≠ '#' ∧ c ≠ '=' ∧ c ≠ '"') :
      EndsToken (liloGroups (doubleBackslashes q ++ ['"', '\n'])).1.item ∧
        LineEnd (liloGroups (doubleBackslashes q ++ ['"', '\n'])).2 := by
    obtain ⟨a, b, ha, hspan⟩ := wordSpan_double q
    rw [liloGroups_word hhead, hspan]
    dsimp only
    split
    · exact ⟨endsToken_blank, .inl ⟨q, rfl⟩⟩
    · rw [lineBreak_double]
      exact ⟨⟨rfl, fun body hbody => ⟨a, ha, (Option.some.inj hbody).symm⟩⟩, .inl ⟨b, rfl⟩⟩
  cases q with
  | nil => exact ⟨endsToken_blank, .inl ⟨[], rfl⟩⟩
  | cons c q =>
    by_cases hback : c = '\\'
    · refine hword fun d hd => ?_
      rw [double_cons, if_pos hback] at hd
      obtain rfl := Option.some.inj hd
      decide
    · have hcons : doubleBackslashes (c :: q) ++ ['"', '\n'] =
          c :: (doubleBackslashes q ++ ['"', '\n']) := by
        rw [double_cons, if_neg hback]
        rfl
      by_cases hhash : c = '#'
      · rw [hcons, hhash]
        exact ⟨endsToken_blank, .inr (.inr rfl)⟩
      by_cases hequals : c = '='
      · rw [hcons, hequals]
        exact ⟨⟨rfl, fun body hbody => ⟨['='], by decide, (Option.some.inj hbody).symm⟩⟩,
          .inl ⟨q, rfl⟩⟩
      by_cases hquote : c = '"'
      · rw [hcons, hquote]
        by_cases hmem : '"' ∈ q
        · -- the value has another quote, which closes this one
          obtain ⟨a, b, rfl, ha⟩ := List.eq_append_cons_of_mem hmem
          have hdouble : '"' ∉ doubleBackslashes a := fun hmem => ha (mem_double.mp hmem)
          have hclosed := liloGroups_quoted hdouble (doubleBackslashes b ++ ['"', '\n'])
          have htext : doubleBackslashes (a ++ '"' :: b) ++ ['"', '\n'] =
              doubleBackslashes a ++ '"' :: (doubleBackslashes b ++ ['"', '\n']) := by
            rw [double_append, double_cons, if_neg (by decide), List.append_assoc]
            rfl
          rw [htext, hclosed]
          exact ⟨⟨rfl, fun body hbody => ⟨a, ha, (Option.some.inj hbody).symm⟩⟩, .inl ⟨b, rfl⟩⟩
        · have hdouble : '"' ∉ doubleBackslashes q := fun h => hmem (mem_double.mp h)
          rw [liloGroups_quoted hdouble]
          exact ⟨⟨rfl, fun body hbody => ⟨q, hmem, (Option.some.inj hbody).symm⟩⟩, .inr (.inl rfl)⟩
      · refine hword fun d hd => ?_
        rw [hcons] at hd
        obtain rfl := Option.some.inj hd
        exact ⟨hhash, hequals, hquote⟩

theorem dropWhile_double (q : Text) :
    ∃ q', (doubleBackslashes q ++ ['"', '\n']).dropWhile isSpace =
      doubleBackslashes q' ++ ['"', '\n'] := by
  induction q with
  | nil => exact ⟨[], rfl⟩
  | cons c q ih =>
    rw [double_cons, List.append_assoc]
    split
    · next hc => exact ⟨'\\' :: q, rfl⟩
    · next hc =>
      rw [List.singleton_append, List.dropWhile_cons]
      split
      · exact ih
      · refine ⟨c :: q, ?_⟩
        rw [double_cons, if_neg hc]
        rfl

theorem match_lineEnd {t : Text} (h : LineEnd t) :
    EndsToken (liloMatch t).1.item ∧ LineEnd (liloMatch t).2 := by
  rcases h with ⟨q, rfl⟩ | rfl | rfl
  · obtain ⟨q', hdrop⟩ := dropWhile_double q
    have hgroups := groups_double q'
    rw [← hdrop] at hgroups
    exact hgroups
  · exact ⟨endsToken_blank, .inr (.inr rfl)⟩
  · exact ⟨endsToken_blank, .inr (.inr rfl)⟩

/-- What is read of the end of a value line ends its tokens, and no quote is read. -/
theorem matches_lineEnd {t : Text} (h : LineEnd t) : ∀ m ∈ liloMatches t, EndsToken m.item :=
  forall_liloMatches (fun _ => match_lineEnd) h

/-- Without quotes and backslashes, no match is continued. -/
theorem matches_plain {t : Text} (h : '"' ∉ t ∧ '\\' ∉ t) :
    ∀ m ∈ liloMatches t, m.item.continued = false := by
  have hgroups (t : Text) (h : '"' ∉ t ∧ '\\' ∉ t) : (liloGroups t).1.item.continued = false := by
    unfold liloGroups
    split
    · rfl
    · rfl
    · exact absurd List.mem_cons_self h.1
    · dsimp only
      split
      · rfl
      · split
        · next brk rest hbrk =>
          have happend := wordSpan_append t
          rw [lineBreak_eq_some hbrk] at happend
          rw [← happend] at h
          have hback := List.mem_append_left rest (lineBreak_mem hbrk).1
          exact absurd (List.mem_append_right _ hback) h.2
        · rfl
  refine forall_liloMatches (P := fun t => '"' ∉ t ∧ '\\' ∉ t) (fun t ht => ⟨?_, ?_⟩) h
  · refine hgroups _ ⟨fun hmem => ht.1 ?_, fun hmem => ht.2 ?_⟩
    · exact (List.dropWhile_suffix _).subset hmem
    · exact (List.dropWhile_suffix _).subset hmem
  · have happend := liloMatch_append t
    exact ⟨fun hmem => ht.1 (happend ▸ List.mem_append_right _ hmem),
      fun hmem => ht.2 (happend ▸ List.mem_append_right _ hmem)⟩

/-! ### The value of a rewritten item -/

/-- A path that is one word, but for equals signs. -/
structure PlainPath (t : Text) : Prop where
  root : t.head? = some '/'
  plain : ∀ c ∈ t, isSpace c = false ∧ c ≠ '"' ∧ c ≠ '\\' ∧ c ≠ '#' ∧ c ≠ '$'

/-- What is known of the new values of the items of a name. -/
structure LiloNewValue (loader : LiloLoader) (name new : Text) : Prop where
  newline : '\n' ∉ new
  path : loader.bare name = true → PlainPath new

theorem wordSpan_plain {t : Text}
    (h : ∀ c ∈ t, isSpace c = false ∧ c ≠ '"' ∧ c ≠ '\\' ∧ c ≠ '#' ∧ c ≠ '$') (hequals : '=' ∉ t) :
    wordSpan t = (t, []) := by
  induction t with
  | nil => rfl
  | cons c t ih =>
    obtain ⟨hspace, hquote, hback, hhash, -⟩ := h c List.mem_cons_self
    rw [List.mem_cons, not_or] at hequals
    rw [wordSpan.eq_3 _ _ fun d r heq => absurd heq hback, if_neg,
      ih (fun c' hc' => h c' (List.mem_cons_of_mem _ hc')) hequals.2]
    rintro (hc | hc | hc | hc | hc)
    · rw [hspace] at hc
      cases hc
    · exact hhash hc
    · exact hequals.1 hc.symm
    · exact hquote hc
    · exact hback hc

theorem liloValue_plain {t : Text} (h : ∀ c ∈ t, c ≠ '\\' ∧ c ≠ '$') :
    liloValue t (some t) = some t := by
  unfold liloValue
  rw [if_neg, Option.map_some, unescape_of_plain fun hmem => (h _ hmem).1 rfl]
  rw [hasExpansion_of_plain fun hmem => (h _ hmem).2 rfl]
  exact Bool.false_ne_true

/-- The value of a quoted text in which each backslash is doubled. -/
theorem liloValue_quoted (v : Text) :
    liloValue (" \"" ++ doubleBackslashes v ++ ['"']) (some (doubleBackslashes v)) =
      if hasExpansion false v then none else some v := by
  have htext : hasExpansion false (" \"" ++ doubleBackslashes v ++ ['"']) =
      hasExpansion false v := by
    rw [hasExpansion_append (by decide), ← hasExpansion_double false v]
    rfl
  unfold liloValue
  rw [htext, Option.map_some, unescape_double]

/-- The tokens of a value line. -/
def lineTokens (loader : LiloLoader) (name new : Text) : List LiloToken :=
  (liloMatches (loader.valueLine name new)).map aloneToken

theorem valueLine_quoted {loader : LiloLoader} {name : Text} (hbare : loader.bare name = false)
    (new : Text) :
    loader.valueLine name new = doubleBackslashes (" \"" ++ new) ++ ['"', '\n'] := by
  unfold LiloLoader.valueLine
  rw [hbare, if_neg Bool.false_ne_true, double_append]
  rfl

theorem valueLine_bare {loader : LiloLoader} {name new : Text} (hbare : loader.bare name = true)
    (hnew : PlainPath new) : loader.valueLine name new = new ++ ['\n'] := by
  unfold LiloLoader.valueLine
  rw [hbare, if_pos rfl, double_of_plain fun hmem => (hnew.plain _ hmem).2.2.1 rfl]
  rfl

/-- No match on a value line is continued on the next line. -/
theorem valueLine_alone {loader : LiloLoader} {name new : Text} (h : LiloNewValue loader name new) :
    ∀ m ∈ liloMatches (loader.valueLine name new), m.text ≠ [] ∧ m.item.continued = false := by
  refine fun m hm => ⟨text_ne_nil hm, ?_⟩
  cases hbare : loader.bare name with
  | true =>
    have hnew := h.path hbare
    rw [valueLine_bare hbare hnew] at hm
    refine matches_plain ?_ m hm
    simp only [List.mem_append, List.mem_singleton, not_or]
    exact ⟨⟨fun hmem => (hnew.plain _ hmem).2.1 rfl, by decide⟩,
      fun hmem => (hnew.plain _ hmem).2.2.1 rfl, by decide⟩
  | false =>
    rw [valueLine_quoted hbare] at hm
    exact (matches_lineEnd (.inl ⟨_, rfl⟩) m hm).1

/-- No match in a rewritten item is continued. -/
theorem itemMatches_alone {loader : LiloLoader} {name value new : Text} (hname : name ∈ liloNames)
    (h : LiloNewValue loader name new) :
    ∀ m ∈ loader.itemMatches name value new, m.text ≠ [] ∧ m.item.continued = false := by
  intro m hm
  unfold LiloLoader.itemMatches at hm
  rcases List.mem_append.mp hm with hm | hm
  · obtain ⟨t, ht, rfl⟩ := List.mem_map.mp hm
    refine ⟨?_, rfl⟩
    unfold LiloLoader.lead at ht
    split at ht
    · obtain rfl := List.mem_singleton.mp ht
      exact List.cons_ne_nil _ _
    · rcases List.mem_cons.mp ht with rfl | ht
      · exact List.cons_ne_nil _ _
      · obtain rfl := List.mem_singleton.mp ht
        exact List.cons_ne_nil _ _
  · rcases List.mem_cons.mp hm with rfl | hm
    · exact ⟨(liloNames_facts name hname).2.1, rfl⟩
    · rcases List.mem_cons.mp hm with rfl | hm
      · refine ⟨?_, rfl⟩
        unfold LiloLoader.equalsText
        split <;> exact List.cons_ne_nil _ _
      · exact valueLine_alone h m hm

theorem liloMatches_newline : liloMatches ['\n'] = [⟨['\n'], .blank⟩] := rfl

/-- The matches on a line, by what is read first. -/
theorem liloMatches_append_line {m : LiloMatch} {t : Text} (h : Reads m t)
    (hline : IsLine (m.text ++ t)) (ht : IsLine t) :
    liloMatches (m.text ++ t) = m :: liloMatches t := by
  have hlone {l : Text} (hl : IsLine l) : liloFileMatches l = liloMatches l := by
    have hfile := fileMatches_line hl []
    rw [List.append_nil] at hfile
    exact hfile.trans (List.append_nil _)
  rw [← hlone hline, fileMatches_append h, hlone ht]

/-- A quoted value without quotes is one token. -/
theorem line_quoted {loader : LiloLoader} {name new : Text} (hbare : loader.bare name = false)
    (hnewline : '\n' ∉ new) (hquote : '"' ∉ new) :
    lineTokens loader name new =
      [⟨" \"" ++ doubleBackslashes new ++ ['"'], if hasExpansion false new then none else some new⟩,
        ⟨['\n'], none⟩] := by
  have hreads := @reads_quoted [' '] (doubleBackslashes new) (forall_mem_of_all rfl) (by decide)
    (fun hmem => hquote (mem_double.mp hmem)) (fun hmem => hnewline (mem_double.mp hmem)) ['\n']
  have htext : loader.valueLine name new =
      [' '] ++ ('"' :: doubleBackslashes new ++ ['"']) ++ ['\n'] := by
    rw [valueLine_quoted hbare, double_append]
    simp [doubleBackslashes]
  have hline := valueLine_isLine loader name hnewline
  unfold lineTokens
  rw [htext] at hline ⊢
  rw [liloMatches_append_line hreads hline isLine_newline, liloMatches_newline, ← liloValue_quoted]
  rfl

/-- A printable value is read back. -/
theorem line_read {loader : LiloLoader} {name new : Text} (h : LiloNewValue loader name new)
    (hprint : Printable loader name new) :
    ∃ t u, lineTokens loader name new = [t, u] ∧ t.value = some new ∧ u.value = none := by
  unfold Printable at hprint
  unfold lineTokens
  have hblank : IsLine ['\n'] := isLine_newline
  cases hbare : loader.bare name with
  | true =>
    have hnew := h.path hbare
    rw [if_pos (of_decide_eq_true hbare)] at hprint
    have hword := wordSpan_plain hnew.plain hprint
    have hne : new ≠ [] := by
      intro hnil
      have hroot := hnew.root
      rw [hnil] at hroot
      cases hroot
    have hreads : Reads ⟨new, .word new false⟩ ['\n'] :=
      reads_word hword hne fun c hc => Option.some.inj hc ▸ .inl rfl
    have hmatches := liloMatches_append_line hreads (isLine_append h.newline hblank) hblank
    rw [valueLine_bare hbare hnew, hmatches, liloMatches_newline]
    refine ⟨_, _, rfl, ?_, rfl⟩
    exact liloValue_plain fun c hc => ⟨(hnew.plain c hc).2.2.1, (hnew.plain c hc).2.2.2.2⟩
  | false =>
    rw [if_neg (of_decide_eq_false hbare)] at hprint
    rw [← lineTokens, line_quoted hbare h.newline hprint.1, hprint.2]
    exact ⟨_, _, rfl, rfl, rfl⟩

/-- A value with a quote or with a dollar sign that no backslash stands before. -/
def Foreign (v : Text) : Prop := '"' ∈ v ∨ hasExpansion false v = true

/-- Of a value that is not printable, another value is read, or none at all. -/
theorem line_not_read {loader : LiloLoader} {name new : Text} (h : LiloNewValue loader name new)
    (hprint : ¬ Printable loader name new) {us vs : List Text}
    (heq : (lineTokens loader name new).filterMap (·.value) ++ us = new :: vs) :
    Foreign new ∧ us = new :: vs := by
  unfold Printable at hprint
  unfold lineTokens at heq
  cases hbare : loader.bare name with
  | true =>
    -- the word ends at the first equals sign
    have hnew := h.path hbare
    rw [if_pos (of_decide_eq_true hbare), not_not] at hprint
    obtain ⟨a, b, rfl, ha⟩ := List.eq_append_cons_of_mem hprint
    have hplain := fun c hc => hnew.plain c (List.mem_append_left ('=' :: b) hc)
    have hne : a ≠ [] := by
      rintro rfl
      exact absurd (Option.some.inj hnew.root) (by decide)
    have hreads : Reads ⟨a, .word a false⟩ ('=' :: (b ++ ['\n'])) :=
      reads_word (wordSpan_plain hplain ha) hne
        fun c hc => Option.some.inj hc ▸ .inr (.inr (.inl rfl))
    have hlast : '\n' ∉ '=' :: b := fun hmem => h.newline (List.mem_append_right _ hmem)
    have hrest : IsLine ('=' :: (b ++ ['\n'])) := isLine_append hlast isLine_newline
    have hline := valueLine_isLine loader name h.newline
    rw [valueLine_bare hbare hnew, List.append_assoc] at heq hline
    have hmatches := liloMatches_append_line hreads hline hrest
    have hvalue : (aloneToken ⟨a, .word a false⟩).value = some a :=
      liloValue_plain fun c hc => ⟨(hplain c hc).2.2.1, (hplain c hc).2.2.2.2⟩
    rw [List.cons_append, hmatches, List.map_cons, List.filterMap_cons_some hvalue] at heq
    rw [(List.cons.inj heq).1] at ha
    exact absurd hprint ha
  | false =>
    rw [if_neg (of_decide_eq_false hbare)] at hprint
    by_cases hquote : '"' ∈ new
    · refine ⟨.inl hquote, ?_⟩
      rw [valueLine_quoted hbare] at heq
      cases hvalues : ((liloMatches (doubleBackslashes (" \"" ++ new) ++ ['"', '\n'])).map
          aloneToken).filterMap (·.value) with
      | nil =>
        rw [hvalues] at heq
        exact heq
      | cons v values =>
        rw [hvalues, List.cons_append] at heq
        obtain ⟨rfl, -⟩ := List.cons.inj heq
        -- the value that is read ends at a quote
        have hmem : v ∈ v :: values := List.mem_cons_self
        rw [← hvalues] at hmem
        obtain ⟨t, ht, hvalue⟩ := List.mem_filterMap.mp hmem
        obtain ⟨m, hm, rfl⟩ := List.mem_map.mp ht
        obtain ⟨-, hbody⟩ := matches_lineEnd (.inl ⟨_, rfl⟩) m hm
        unfold aloneToken liloValue at hvalue
        dsimp only at hvalue
        split at hvalue
        · cases hvalue
        · obtain ⟨body, hbody', rfl⟩ := Option.map_eq_some_iff.mp hvalue
          obtain ⟨a, ha, rfl⟩ := hbody body hbody'
          rw [unescape_double] at hquote
          exact absurd hquote ha
    · -- the dollar sign makes the value undefined
      have hdollar : hasExpansion false new = true := by
        by_contra hno
        exact hprint ⟨hquote, Bool.eq_false_iff.mpr hno⟩
      refine ⟨.inr hdollar, ?_⟩
      rw [← lineTokens, line_quoted hbare h.newline hquote, hdollar] at heq
      exact heq

/-! ### All tokens of a rewritten item -/

theorem liloValue_none (text : Text) : liloValue text none = none := by
  unfold liloValue
  split <;> rfl

/-- The tokens of a rewritten item. -/
theorem item_tokens (loader : LiloLoader) {name : Text} (hname : name ∈ liloNames)
    (value new : Text) :
    (loader.itemMatches name value new).map aloneToken =
      ((loader.lead name value).map fun t => LiloToken.mk t none) ++
        LiloToken.mk name (some name) :: LiloToken.mk (loader.equalsText name) (some ['=']) ::
          lineTokens loader name new := by
  obtain ⟨-, -, hexpansion, -, -, hback, -⟩ := liloNames_facts name hname
  have hlead : (loader.lead name value).map (aloneToken ∘ fun t => LiloMatch.mk t .blank) =
      (loader.lead name value).map fun t => LiloToken.mk t none := by
    refine List.map_congr_left fun t _ => ?_
    exact congrArg (LiloToken.mk t) (liloValue_none t)
  have hvalue : liloValue name (some name) = some name := by
    unfold liloValue
    rw [hexpansion, if_neg Bool.false_ne_true, Option.map_some, unescape_of_plain hback]
  have hequals : liloValue (loader.equalsText name) (some ['=']) = some ['='] := by
    unfold LiloLoader.equalsText
    split <;> rfl
  unfold LiloLoader.itemMatches
  rw [List.map_append, List.map_map, hlead, List.map_cons, List.map_cons]
  show _ ++ LiloToken.mk name (liloValue name (some name)) ::
    LiloToken.mk (loader.equalsText name) (liloValue (loader.equalsText name) (some ['='])) :: _ = _
  rw [hvalue, hequals]
  rfl

theorem item_values (loader : LiloLoader) {name : Text} (hname : name ∈ liloNames)
    (value new : Text) :
    ((loader.itemMatches name value new).map aloneToken).filterMap (·.value) =
      name :: ['='] :: (lineTokens loader name new).filterMap (·.value) := by
  have hlead : ((loader.lead name value).map fun t => LiloToken.mk t none).filterMap (·.value) =
      [] := by
    rw [List.filterMap_eq_nil_iff]
    intro t ht
    obtain ⟨text, -, rfl⟩ := List.mem_map.mp ht
    rfl
  rw [item_tokens loader hname, List.filterMap_append, hlead]
  rfl

end LiloItemLemmas

end DebianKernel.DiskId
