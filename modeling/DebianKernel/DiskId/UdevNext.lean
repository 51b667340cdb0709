import DebianKernel.Lib.Lines
import DebianKernel.Lib.Pattern

/-!
# Reading udev rules

`udev_next` of `postinst` reads one rule. A rule ends with the first line that is not blank,
not a comment and does not end in a backslash; its text is cut into pieces, and each piece
has at most one key.

Results:
1. `pieces_text`: nothing of the text is lost.
2. `udevRules_complete`, `udevRules_open`: the lines that make a rule.
3. `Readable`, `udevLine_of_readable`: pieces with keys that are put together in one line
   are read back as the same pieces.
-/

namespace DebianKernel.DiskId

open Text Pattern

/-! ## Lines -/

/-- A key of a rule, with its operator and its value. -/
structure UdevKey where
  key : Text
  op : Text
  value : Text
  deriving DecidableEq

/-- A piece of the text of a rule. -/
structure UdevPiece where
  text : Text
  key : Option UdevKey
  deriving DecidableEq

/-- `/^\s*(?:#|$)/`. -/
def commentRe : Pattern Unit := do
  let _ ← run isSpace
  alt (lit "#") atEnd

def isComment (text : Text) : Bool := (first commentRe text).isSome

/-- `[^\s=+!:]|[+!:](?!=)`. -/
def isKeyChar (c : Char) (rest : Text) : Bool :=
  (¬ isSpace c ∧ ¬ ("=+!:" : Text).contains c) ∨ ("+!:" : Text).contains c ∧ rest.head? ≠ some '='

/-- `[\s,]*((?:[^\s=+!:]|[+!:](?!=))+)\s*([=+!:]?=)"([^"]*)"`. -/
def udevKeyRe : Pattern UdevKey := do
  let _ ← run fun c => isSpace c ∨ c = ','
  let key ← runIf1 isKeyChar
  let _ ← run isSpace
  let op ← opt (one fun c => ("=+!:" : Text).contains c)
  lit ['=']
  lit ['"']
  let value ← run (· ≠ '"')
  lit ['"']
  pure ⟨key, op.toList ++ ['='], value⟩

namespace UdevLemmas

/-- What a key consumes. -/
theorem mem_udevKeyRe {t rest : Text} {k : UdevKey} (h : (k, rest) ∈ udevKeyRe t) :
    ∃ lead op : Text, t = lead ++ '=' :: (op ++ '"' :: (k.value ++ '"' :: rest)) ∧
      (op = [] ∨ op = ['=']) ∧ '=' ∉ lead ∧ '"' ∉ k.value := by
  obtain ⟨blanks, s₁, h₁, h⟩ := mem_bind.mp h
  obtain ⟨key, s₂, h₂, h⟩ := mem_bind.mp h
  obtain ⟨spaces, s₃, h₃, h⟩ := mem_bind.mp h
  obtain ⟨op, s₄, h₄, h⟩ := mem_bind.mp h
  obtain ⟨_, s₅, h₅, h⟩ := mem_bind.mp h
  obtain ⟨_, s₆, h₆, h⟩ := mem_bind.mp h
  obtain ⟨value, s₇, h₇, h⟩ := mem_bind.mp h
  obtain ⟨_, s₈, h₈, h⟩ := mem_bind.mp h
  obtain ⟨rfl, rfl⟩ := mem_pure.mp h
  obtain ⟨rfl, hblanks⟩ := mem_run.mp h₁
  obtain ⟨rfl, -, hkey⟩ := mem_runIf1 h₂
  obtain ⟨rfl, hspaces⟩ := mem_run.mp h₃
  obtain rfl := mem_lit.mp h₅
  obtain rfl := mem_lit.mp h₆
  obtain ⟨rfl, hvalue⟩ := mem_run.mp h₇
  obtain rfl := mem_lit.mp h₈
  have hno : '=' ∉ blanks ++ key ++ spaces := by
    intro hmem
    rcases List.mem_append.mp hmem with hmem | hmem
    · rcases List.mem_append.mp hmem with hmem | hmem
      · exact absurd (hblanks _ hmem) (by decide)
      · obtain ⟨s, hs⟩ := hkey _ hmem
        exact absurd hs (by simp [isKeyChar])
    · exact absurd (hspaces _ hmem) (by decide)
  have hquote : '"' ∉ value := fun hmem => absurd (hvalue _ hmem) (by decide)
  rcases mem_opt.mp h₄ with ⟨c, rfl, hc⟩ | ⟨rfl, rfl⟩
  · obtain ⟨rfl, hc⟩ := mem_one.mp hc
    by_cases heq : c = '='
    · subst heq
      exact ⟨blanks ++ key ++ spaces, ['='], by simp, .inr rfl, hno, hquote⟩
    · refine ⟨blanks ++ key ++ spaces ++ [c], [], by simp, .inl rfl, ?_, hquote⟩
      rw [List.mem_append, List.mem_singleton, not_or]
      exact ⟨hno, Ne.symm heq⟩
  · exact ⟨blanks ++ key ++ spaces, [], by simp, .inl rfl, hno, hquote⟩

theorem length_udevKeyRe {t rest : Text} {k : UdevKey} (h : first udevKeyRe t = some (k, rest)) :
    rest.length < t.length := by
  obtain ⟨lead, op, rfl, -⟩ := mem_udevKeyRe (mem_of_first h)
  simp only [List.length_append, List.length_cons]
  omega

end UdevLemmas

/-- The keys of a line, and the text behind the last one. -/
def udevKeys (t : Text) : List UdevPiece × Text :=
  match _h : first udevKeyRe t with
  | some (key, rest) =>
    (⟨t.take (t.length - rest.length), some key⟩ :: (udevKeys rest).1, (udevKeys rest).2)
  | none => ([], t)
termination_by t.length
decreasing_by all_goals exact UdevLemmas.length_udevKeyRe _h

/-- The pieces of a line. -/
def udevLine (text : Text) : List UdevPiece :=
  if isComment text then [⟨text, none⟩]
  else (udevKeys text).1 ++ [⟨(udevKeys text).2, none⟩]

/-- `/\\\n$/`. -/
def isContinued (text : Text) : Bool := (['\\', '\n'] : Text).isSuffixOf text

/-! ## Rules -/

/-- `udev_next`, with the lines that are left in the file. -/
def udevNext : List Text → List UdevPiece × List Text
  | [] => ([], [])
  | text :: file =>
    if isComment text ∨ isContinued text then
      (udevLine text ++ (udevNext file).1, (udevNext file).2)
    else (udevLine text, file)

theorem UdevLemmas.length_udevNext (file : List Text) : (udevNext file).2.length ≤ file.length := by
  induction file with
  | nil => exact Nat.le_refl _
  | cons text file ih =>
    rw [udevNext]
    split
    · exact Nat.le_succ_of_le ih
    · exact Nat.le_succ _

/-- The results of the calls of `udev_next`, up to the first empty one. -/
def udevRules (file : List Text) : List (List UdevPiece) :=
  if (udevNext file).1 = [] then []
  else (udevNext file).1 :: udevRules (udevNext file).2
termination_by file.length
decreasing_by
  cases file with
  | nil => exact absurd rfl ‹_›
  | cons text file =>
    rw [udevNext]
    split
    · exact Nat.lt_succ_of_le (UdevLemmas.length_udevNext file)
    · exact Nat.lt_succ_self _

/-- The rule goes on behind the line. -/
def opens (text : Text) : Bool := isComment text ∨ isContinued text

/-- The text of a rule. -/
def pieceText (keys : List UdevPiece) : Text := keys.flatMap UdevPiece.text

/-- The pieces of the lines of a rule. -/
def ruleOf (file : List Text) : List UdevPiece := file.flatMap udevLine

namespace UdevLemmas

theorem udevKeys_some {t rest : Text} {k : UdevKey} (h : first udevKeyRe t = some (k, rest)) :
    udevKeys t = (⟨t.take (t.length - rest.length), some k⟩ :: (udevKeys rest).1,
      (udevKeys rest).2) := by
  rw [udevKeys]
  split
  · next k' rest' h' =>
    rw [h] at h'
    cases h'
    rfl
  · next h' =>
    rw [h] at h'
    cases h'

theorem udevKeys_none {t : Text} (h : first udevKeyRe t = none) : udevKeys t = ([], t) := by
  rw [udevKeys]
  split
  · next k' rest' h' =>
    rw [h] at h'
    cases h'
  · rfl

/-- The text of a key is cut off at the front. -/
theorem take_udevKeyRe {t rest : Text} {k : UdevKey} (h : first udevKeyRe t = some (k, rest)) :
    t = t.take (t.length - rest.length) ++ rest := by
  obtain ⟨lead, op, hmem, -⟩ := mem_udevKeyRe (mem_of_first h)
  obtain ⟨w, rfl⟩ : ∃ w, t = w ++ rest := ⟨lead ++ '=' :: (op ++ '"' :: (k.value ++ ['"'])), by
    rw [hmem]
    simp⟩
  rw [List.length_append, Nat.add_sub_cancel, List.take_left]

theorem udevKeys_text (t : Text) : pieceText (udevKeys t).1 ++ (udevKeys t).2 = t := by
  induction hn : t.length using Nat.strongRecOn generalizing t with
  | ind n ih =>
    cases h : first udevKeyRe t with
    | none =>
      rw [udevKeys_none h]
      rfl
    | some m =>
      obtain ⟨k, rest⟩ := m
      have hlt := length_udevKeyRe h
      rw [udevKeys_some h, pieceText, List.flatMap_cons, List.append_assoc]
      exact (congrArg _ (ih _ (hn ▸ hlt) rest rfl)).trans (take_udevKeyRe h).symm

theorem udevLine_text (t : Text) : pieceText (udevLine t) = t := by
  rw [udevLine]
  split
  · exact List.append_nil t
  · rw [pieceText, List.flatMap_append]
    exact (congrArg _ (List.append_nil _)).trans (udevKeys_text t)

theorem ruleOf_text (file : List Text) : pieceText (ruleOf file) = file.flatten := by
  rw [pieceText, ruleOf, List.flatMap_assoc]
  induction file with
  | nil => rfl
  | cons text file ih =>
    rw [List.flatMap_cons, ih, List.flatten_cons]
    exact congrArg (· ++ _) (udevLine_text text)

theorem ruleOf_append (file file' : List Text) :
    ruleOf (file ++ file') = ruleOf file ++ ruleOf file' :=
  List.flatMap_append

theorem ruleOf_singleton (t : Text) : ruleOf [t] = udevLine t := List.append_nil _

theorem udevLine_ne_nil (t : Text) : udevLine t ≠ [] := by
  rw [udevLine]
  split
  · exact List.cons_ne_nil _ _
  · exact List.append_ne_nil_of_right_ne_nil _ (List.cons_ne_nil _ _)

theorem udevNext_append {file : List Text} (hopen : ∀ t ∈ file, opens t = true)
    (rest : List Text) :
    udevNext (file ++ rest) = (ruleOf file ++ (udevNext rest).1, (udevNext rest).2) := by
  induction file with
  | nil => rfl
  | cons text file ih =>
    rw [List.cons_append, udevNext, if_pos (by simpa [opens] using hopen text List.mem_cons_self),
      ih fun t ht => hopen t (List.mem_cons_of_mem _ ht), ruleOf, ruleOf, List.flatMap_cons,
      List.append_assoc]

/-- A rule that is followed by others. -/
theorem udevRules_complete {file : List Text} {text : Text}
    (hopen : ∀ t ∈ file, opens t = true) (htext : opens text = false) (rest : List Text) :
    udevRules (file ++ text :: rest) = ruleOf (file ++ [text]) :: udevRules rest := by
  have hnext : udevNext (file ++ text :: rest) = (ruleOf (file ++ [text]), rest) := by
    rw [udevNext_append hopen, udevNext, if_neg (by simpa [opens] using htext), ruleOf, ruleOf,
      List.flatMap_append]
    simp
  rw [udevRules, hnext, if_neg]
  rw [ruleOf, List.flatMap_append]
  refine List.append_ne_nil_of_right_ne_nil _ ?_
  rw [List.flatMap_singleton]
  exact udevLine_ne_nil text

theorem udevRules_nil : udevRules [] = [] := by
  rw [udevRules]
  rfl

/-- The last rule of a file may be unfinished. -/
theorem udevRules_open {file : List Text} (hne : file ≠ [])
    (hopen : ∀ t ∈ file, opens t = true) : udevRules file = [ruleOf file] := by
  have hnext : udevNext file = (ruleOf file, []) := by
    have h := udevNext_append hopen []
    rw [List.append_nil] at h
    rw [h]
    exact Prod.ext (List.append_nil _) rfl
  rw [udevRules, hnext, if_neg, udevRules_nil]
  obtain ⟨text, file, rfl⟩ := List.exists_cons_of_ne_nil hne
  rw [ruleOf, List.flatMap_cons]
  exact List.append_ne_nil_of_left_ne_nil (udevLine_ne_nil text) _

/-- The lines of a rule that is finished. -/
def IsRule (file : List Text) : Prop :=
  ∃ front text, file = front ++ [text] ∧ (∀ t ∈ front, opens t = true) ∧ opens text = false

/-- A file is a sequence of rules and the lines behind the last one. -/
theorem exists_rules (file : List Text) :
    ∃ groups : List (List Text), file.rdropWhile opens = groups.flatten ∧
      ∀ g ∈ groups, IsRule g := by
  have hsplit : ∀ file : List Text, ∃ (groups : List (List Text)) (left : List Text),
      file = groups.flatten ++ left ∧ (∀ g ∈ groups, IsRule g) ∧ ∀ t ∈ left, opens t = true := by
    intro file
    induction file with
    | nil => exact ⟨[], [], rfl, nofun, nofun⟩
    | cons text file ih =>
      obtain ⟨groups, left, rfl, hgroups, hleft⟩ := ih
      cases htext : opens text with
      | false =>
        refine ⟨[text] :: groups, left, rfl, fun g hg => ?_, hleft⟩
        rcases List.mem_cons.mp hg with rfl | hg
        · exact ⟨[], text, rfl, nofun, htext⟩
        · exact hgroups g hg
      | true =>
        cases groups with
        | nil => exact ⟨[], text :: left, rfl, nofun, List.forall_mem_cons.mpr ⟨htext, hleft⟩⟩
        | cons g groups =>
          refine ⟨(text :: g) :: groups, left, rfl, fun g' hg' => ?_, hleft⟩
          rcases List.mem_cons.mp hg' with rfl | hg'
          · obtain ⟨front, t, rfl, hfront, ht⟩ := hgroups g List.mem_cons_self
            exact ⟨text :: front, t, rfl, List.forall_mem_cons.mpr ⟨htext, hfront⟩, ht⟩
          · exact hgroups g' (List.mem_cons_of_mem _ hg')
  obtain ⟨groups, left, heq, hgroups, hleft⟩ := hsplit (file.rdropWhile opens)
  cases List.eq_nil_or_concat left with
  | inl hnil =>
    rw [hnil, List.append_nil] at heq
    exact ⟨groups, heq, hgroups⟩
  | inr hconcat =>
    obtain ⟨left, t, rfl⟩ := hconcat
    have ht := hleft t (by simp)
    have hlast := List.rdropWhile_last_not opens file (by rw [heq]; simp)
    simp [heq, ht] at hlast

theorem udevRules_groups {groups : List (List Text)} (h : ∀ g ∈ groups, IsRule g)
    (rest : List Text) :
    udevRules (groups.flatten ++ rest) = groups.map ruleOf ++ udevRules rest := by
  induction groups with
  | nil => rfl
  | cons g groups ih =>
    obtain ⟨front, text, rfl, hfront, htext⟩ := h g List.mem_cons_self
    rw [List.flatten_cons, List.append_assoc, List.append_assoc, List.singleton_append,
      udevRules_complete hfront htext, ih fun g hg => h g (List.mem_cons_of_mem _ hg)]
    rfl

theorem udevNext_text (file : List Text) :
    pieceText (udevNext file).1 ++ (udevNext file).2.flatten = file.flatten := by
  induction file with
  | nil => rfl
  | cons text file ih =>
    rw [udevNext, List.flatten_cons, ← udevLine_text text]
    split
    · rw [← ih, pieceText, List.flatMap_append, List.append_assoc, udevLine_text]
      exact congrArg (· ++ _) (udevLine_text text)
    · rw [udevLine_text]

theorem udevNext_eq_nil {file : List Text} (h : (udevNext file).1 = []) : file = [] := by
  cases file with
  | nil => rfl
  | cons text file =>
    rw [udevNext] at h
    split at h
    · exact absurd (List.append_eq_nil_iff.mp h).1 (udevLine_ne_nil text)
    · exact absurd h (udevLine_ne_nil text)

/-- No text is lost. -/
theorem udevRules_text (file : List Text) : (udevRules file).flatMap pieceText = file.flatten := by
  induction file using udevRules.induct with
  | case1 file h =>
    rw [udevNext_eq_nil h, udevRules_nil]
    rfl
  | case2 file h ih =>
    rw [udevRules, if_neg h, List.flatMap_cons, ih, udevNext_text]

end UdevLemmas

/-! ## Pieces that are put together -/

/-- The piece is one key, whatever follows it. -/
def Readable (piece : UdevPiece) : Prop :=
  ∃ k, piece.key = some k ∧ ∀ rest, first udevKeyRe (piece.text ++ rest) = some (k, rest)

namespace UdevLemmas

/-- What a search for a key has before it: the text up to the closing quote of a value. -/
def KeyEnd (t : Text) : Prop :=
  ∃ lead op value : Text, t = lead ++ '=' :: (op ++ '"' :: (value ++ ['"'])) ∧
    (op = [] ∨ op = ['=']) ∧ '=' ∉ lead

theorem KeyEnd.ne_nil {t : Text} (h : KeyEnd t) : t ≠ [] := by
  obtain ⟨lead, op, value, rfl, -⟩ := h
  exact List.append_ne_nil_of_right_ne_nil _ (List.cons_ne_nil _ _)

theorem KeyEnd.mem {t : Text} (h : KeyEnd t) : '=' ∈ t := by
  obtain ⟨lead, op, value, rfl, -⟩ := h
  exact List.mem_append_right _ List.mem_cons_self

theorem KeyEnd.of_append {w t : Text} (h : KeyEnd (w ++ t)) (hw : '=' ∉ w) : KeyEnd t := by
  obtain ⟨lead, op, value, heq, hop, hlead⟩ := h
  rcases List.append_eq_append_iff.mp heq with ⟨l, rfl, rfl⟩ | ⟨l, rfl, hl⟩
  · exact ⟨l, op, value, rfl, hop, fun hmem => hlead (List.mem_append_right _ hmem)⟩
  · cases l with
    | nil => exact ⟨[], op, value, hl.symm, hop, List.not_mem_nil⟩
    | cons c l =>
      obtain ⟨rfl, -⟩ := List.cons.inj hl
      exact absurd (List.mem_append_right _ List.mem_cons_self) hw

/-- The key is found without a look behind the closing quote. -/
theorem local_udevKeyRe {t : Text} (h : KeyEnd t) : Local udevKeyRe t := by
  refine local_bind (local_run ⟨'=', h.mem, by decide⟩) fun blanks s hs => ?_
  obtain ⟨rfl, hblanks⟩ := mem_run.mp hs
  replace h := h.of_append fun hmem => absurd (hblanks _ hmem) (by decide)
  refine local_bind (local_runIf1 ⟨'=', h.mem, fun s => by simp [isKeyChar]⟩ ?_)
    fun key s hs => ?_
  · intro c s r hne
    obtain ⟨d, s, rfl⟩ := List.exists_cons_of_ne_nil hne
    rfl
  obtain ⟨rfl, -, hkey⟩ := mem_runIf1 hs
  replace h := h.of_append fun hmem => by
    obtain ⟨s, hs⟩ := hkey _ hmem
    exact absurd hs (by simp [isKeyChar])
  refine local_bind (local_run ⟨'=', h.mem, by decide⟩) fun spaces s hs => ?_
  obtain ⟨rfl, hspaces⟩ := mem_run.mp hs
  replace h := h.of_append fun hmem => absurd (hspaces _ hmem) (by decide)
  refine local_bind (local_opt (local_one h.ne_nil)) fun op s hs => ?_
  -- the first `=` belongs to the operator
  have hop : ∃ op value : Text, (op = [] ∨ op = ['=']) ∧
      (s = op ++ '"' :: (value ++ ['"']) ∨ KeyEnd s) := by
    rcases mem_opt.mp hs with ⟨c, -, hc⟩ | ⟨-, rfl⟩
    · obtain ⟨rfl, -⟩ := mem_one.mp hc
      obtain ⟨lead, op, value, heq, hop, hlead⟩ := h
      cases lead with
      | nil => exact ⟨op, value, hop, .inl (List.cons.inj heq).2⟩
      | cons d lead =>
        exact ⟨op, value, hop, .inr ⟨lead, op, value, (List.cons.inj heq).2, hop,
          fun hmem => hlead (List.mem_cons_of_mem _ hmem)⟩⟩
    · obtain ⟨lead, op, value, heq, hop, hlead⟩ := h
      exact ⟨op, value, hop, .inr ⟨lead, op, value, heq, hop, hlead⟩⟩
  have hne : s ≠ [] := by
    obtain ⟨op, value, -, rfl | h⟩ := hop
    · exact List.append_ne_nil_of_right_ne_nil _ (List.cons_ne_nil _ _)
    · exact h.ne_nil
  refine local_bind (local_lit hne) fun _ s' hs' => ?_
  obtain rfl := mem_lit.mp hs'
  have hquote : ∃ op value : Text, s' = op ++ '"' :: (value ++ ['"']) ∧ (op = [] ∨ op = ['=']) := by
    obtain ⟨op, value, hop, heq | ⟨lead, op', value', heq, hop', hlead⟩⟩ := hop
    · rcases hop with rfl | rfl
      · exact absurd (List.cons.inj heq).1 (by decide)
      · exact ⟨[], value, (List.cons.inj heq).2, .inl rfl⟩
    · cases lead with
      | nil => exact ⟨op', value', (List.cons.inj heq).2, hop'⟩
      | cons d lead =>
        obtain ⟨rfl, -⟩ := List.cons.inj heq
        exact absurd List.mem_cons_self hlead
  obtain ⟨op', value, rfl, hop'⟩ := hquote
  refine local_bind (local_lit (List.append_ne_nil_of_right_ne_nil _ (List.cons_ne_nil _ _)))
    fun _ s hs => ?_
  have hvalue : s = value ++ ['"'] := by
    rcases hop' with rfl | rfl
    · exact (List.cons.inj (mem_lit.mp hs)).2.symm
    · exact absurd (List.cons.inj (mem_lit.mp hs)).1 (by decide)
  subst hvalue
  refine local_bind (local_run ⟨'"', List.mem_append_right _ List.mem_cons_self, by decide⟩)
    fun value' s hs => ?_
  obtain ⟨heq, hvalue'⟩ := mem_run.mp hs
  have hne : s ≠ [] := by
    rintro rfl
    rw [List.append_nil] at heq
    have hquote := hvalue' '"' (heq ▸ List.mem_append_right _ List.mem_cons_self)
    exact absurd hquote (by decide)
  exact local_bind (local_lit hne) fun _ s _ => local_pure _ s

theorem readable_of_first {t rest : Text} {k : UdevKey} (h : first udevKeyRe t = some (k, rest)) :
    Readable ⟨t.take (t.length - rest.length), some k⟩ := by
  obtain ⟨lead, op, heq, hop, hlead, -⟩ := mem_udevKeyRe (mem_of_first h)
  have htake := take_udevKeyRe h
  generalize t.take (t.length - rest.length) = w at htake
  have hw : w = lead ++ '=' :: (op ++ '"' :: (k.value ++ ['"'])) := by
    have hrest : w ++ rest = lead ++ '=' :: (op ++ '"' :: (k.value ++ ['"'])) ++ rest := by
      rw [← htake, heq]
      simp
    exact List.append_cancel_right hrest
  have hlocal := local_udevKeyRe ⟨lead, op, k.value, hw, hop, hlead⟩
  rw [htake, hlocal.first_append] at h
  obtain ⟨⟨k', s⟩, hfirst, hs⟩ := Option.map_eq_some_iff.mp h
  simp only [Prod.mk.injEq, List.append_left_eq_self] at hs
  obtain ⟨rfl, rfl⟩ := hs
  refine ⟨k', rfl, fun r => ?_⟩
  rw [hlocal.first_append, hfirst]
  rfl

theorem readable_udevKeys (t : Text) : ∀ piece ∈ (udevKeys t).1, Readable piece := by
  induction hn : t.length using Nat.strongRecOn generalizing t with
  | ind n ih =>
    cases h : first udevKeyRe t with
    | none =>
      rw [udevKeys_none h]
      nofun
    | some m =>
      obtain ⟨k, rest⟩ := m
      rw [udevKeys_some h]
      intro piece hpiece
      rcases List.mem_cons.mp hpiece with rfl | hpiece
      · exact readable_of_first h
      · exact ih _ (hn ▸ length_udevKeyRe h) rest rfl piece hpiece

/-- Keys that are put together are read back. -/
theorem udevKeys_of_readable {pieces : List UdevPiece} (h : ∀ piece ∈ pieces, Readable piece) :
    udevKeys (pieceText pieces ++ ['\n']) = (pieces, ['\n']) := by
  induction pieces with
  | nil => exact udevKeys_none (by decide)
  | cons piece pieces ih =>
    obtain ⟨k, hk, hfirst⟩ := h piece List.mem_cons_self
    have htail := ih fun p hp => h p (List.mem_cons_of_mem _ hp)
    rw [pieceText] at htail
    rw [pieceText, List.flatMap_cons, List.append_assoc, udevKeys_some (hfirst _),
      List.length_append, Nat.add_sub_cancel, List.take_left, htail, ← hk]

/-- The text of a key ends with a quote. -/
theorem text_of_readable {piece : UdevPiece} (h : Readable piece) :
    ∃ w : Text, piece.text = w ++ ['"'] ∧
      ∀ k, piece.key = some k → '"' ∉ k.value ∧ ∀ c ∈ k.value, c ∈ piece.text := by
  obtain ⟨k, hk, hfirst⟩ := h
  obtain ⟨lead, op, heq, -, -, hquote⟩ := mem_udevKeyRe (mem_of_first (hfirst []))
  rw [List.append_nil] at heq
  refine ⟨lead ++ '=' :: (op ++ '"' :: k.value), by rw [heq]; simp, fun k' hk' => ?_⟩
  rw [hk] at hk'
  cases hk'
  refine ⟨hquote, fun c hc => ?_⟩
  rw [heq]
  simp [hc]

theorem readable_ruleOf {file : List Text} {piece : UdevPiece} (h : piece ∈ ruleOf file)
    (hkey : piece.key ≠ none) : Readable piece := by
  obtain ⟨t, -, hpiece⟩ := List.mem_flatMap.mp h
  rw [udevLine] at hpiece
  split at hpiece
  · rw [List.mem_singleton.mp hpiece] at hkey
    exact absurd rfl hkey
  · rcases List.mem_append.mp hpiece with hpiece | hpiece
    · exact readable_udevKeys t piece hpiece
    · rw [List.mem_singleton.mp hpiece] at hkey
      exact absurd rfl hkey

/-- A key does not contain the end of its line. -/
theorem newline_ruleOf {file : List Text} (hfile : ∀ t ∈ file, IsLine t) {piece : UdevPiece}
    (h : piece ∈ ruleOf file) (hkey : piece.key ≠ none) : '\n' ∉ piece.text := by
  obtain ⟨w, hw, -⟩ := text_of_readable (readable_ruleOf h hkey)
  obtain ⟨t, ht, hpiece⟩ := List.mem_flatMap.mp h
  obtain ⟨body, hbody, hline⟩ := hfile t ht
  obtain ⟨pre, post, hsplit⟩ := List.append_of_mem hpiece
  have htext := udevLine_text t
  rw [hsplit, pieceText, List.flatMap_append, List.flatMap_cons, hw, hline] at htext
  -- the quote is not the last character of the line
  rcases List.eq_nil_or_concat (post.flatMap UdevPiece.text) with hpost | ⟨post', c, hpost⟩
  · rw [hpost, List.append_nil, ← List.append_assoc] at htext
    exact absurd (List.append_inj_right' htext rfl) (by decide)
  · have hin : pre.flatMap UdevPiece.text ++ (w ++ ['"'] ++ post') = body := by
      have hend : pre.flatMap UdevPiece.text ++ (w ++ ['"'] ++ post') ++ [c] = body ++ ['\n'] := by
        rw [← htext, hpost]
        simp
      exact List.append_inj_left' hend rfl
    intro hmem
    rw [hw] at hmem
    exact hbody (hin ▸ List.mem_append_right _ (List.mem_append_left _ hmem))

/-! Lines that are comments -/

theorem isComment_eq_false {t : Text} :
    isComment t = false ↔ ∃ c, (t.dropWhile isSpace).head? = some c ∧ c ≠ '#' := by
  rw [← Bool.not_eq_true, isComment, first_isSome]
  constructor
  · intro h
    cases hd : t.dropWhile isSpace with
    | nil =>
      refine absurd ⟨((), []), mem_bind.mpr ⟨t, [], ?_, ?_⟩⟩ h
      · exact mem_run.mpr ⟨(List.append_nil t).symm, List.dropWhile_eq_nil_iff.mp hd⟩
      · decide
    | cons c s =>
      refine ⟨c, rfl, ?_⟩
      rintro rfl
      refine h ⟨((), s), mem_bind.mpr ⟨t.takeWhile isSpace, '#' :: s, mem_run.mpr ⟨?_, ?_⟩, ?_⟩⟩
      · rw [← hd, List.takeWhile_append_dropWhile]
      · exact fun c hc => List.mem_takeWhile_imp hc
      · exact List.mem_append_left _ (mem_lit.mpr rfl)
  · rintro ⟨c, hc, hne⟩ ⟨⟨_, r⟩, hmem⟩
    obtain ⟨w, s, hw, hs⟩ := mem_bind.mp hmem
    obtain ⟨rfl, hspace⟩ := mem_run.mp hw
    have hdrop : (w ++ s).dropWhile isSpace = s.dropWhile isSpace := by
      rw [List.dropWhile_append, List.dropWhile_eq_nil_iff.mpr hspace]
      rfl
    rw [hdrop] at hc
    rcases List.mem_append.mp hs with hs | hs
    · rw [mem_lit.mp hs] at hc
      exact hne (Option.some.inj hc).symm
    · rw [atEnd, look] at hs
      split at hs
      · next hend =>
        rcases of_decide_eq_true hend with rfl | rfl <;> cases hc
      · cases hs

/-- A text that is not a comment stays so when it is continued. -/
theorem isComment_append {t : Text} (h : isComment t = false) (s : Text) :
    isComment (t ++ s) = false := by
  obtain ⟨c, hc, hne⟩ := isComment_eq_false.mp h
  refine isComment_eq_false.mpr ⟨c, ?_, hne⟩
  rw [List.dropWhile_append]
  split
  · next hnil =>
    rw [List.isEmpty_iff.mp hnil] at hc
    cases hc
  · rw [List.head?_append, hc]
    rfl

/-- The first key of a line that is not a comment. -/
theorem isComment_of_append {t s : Text} {c : Char} (h : isComment (t ++ s) = false)
    (hc : c ∈ t) (hspace : isSpace c = false) : isComment t = false := by
  obtain ⟨d, hd, hne⟩ := isComment_eq_false.mp h
  refine isComment_eq_false.mpr ⟨d, ?_, hne⟩
  rw [List.dropWhile_append] at hd
  split at hd
  · next hnil =>
    have hall := List.dropWhile_eq_nil_iff.mp (List.isEmpty_iff.mp hnil) c hc
    rw [hspace] at hall
    cases hall
  · next hnil =>
    cases hw : t.dropWhile isSpace with
    | nil => exact absurd (by rw [hw]; rfl) hnil
    | cons e w =>
      rw [hw] at hd
      exact hd

theorem isComment_udevKeys {t : Text} (h : isComment t = false) :
    ∀ piece ∈ (udevKeys t).1.head?, isComment piece.text = false := by
  intro piece hpiece
  have htext := udevKeys_text t
  obtain ⟨pieces, hpieces⟩ := List.head?_eq_some_iff.mp hpiece
  rw [hpieces, pieceText, List.flatMap_cons, List.append_assoc] at htext
  obtain ⟨w, hw, -⟩ := text_of_readable (readable_udevKeys t piece (List.mem_of_head? hpiece))
  rw [← htext] at h
  exact isComment_of_append h (c := '"') (hw ▸ List.mem_append_right _ List.mem_cons_self) rfl

/-! A line of keys -/

/-- A line that consists of keys is a rule. -/
theorem udevLine_of_readable {pieces : List UdevPiece} (h : ∀ piece ∈ pieces, Readable piece)
    (hne : pieces ≠ []) (hcomment : ∀ piece ∈ pieces.head?, isComment piece.text = false) :
    opens (pieceText pieces ++ ['\n']) = false ∧
      udevLine (pieceText pieces ++ ['\n']) = pieces ++ [⟨['\n'], none⟩] := by
  have hno : isComment (pieceText pieces ++ ['\n']) = false := by
    obtain ⟨piece, pieces, rfl⟩ := List.exists_cons_of_ne_nil hne
    rw [pieceText, List.flatMap_cons, List.append_assoc]
    exact isComment_append (hcomment piece rfl) _
  have hcontinued : isContinued (pieceText pieces ++ ['\n']) = false := by
    obtain ⟨pieces, piece, rfl⟩ := (List.eq_nil_or_concat pieces).resolve_left hne
    obtain ⟨w, hw, -⟩ := text_of_readable (h piece (by simp))
    rw [isContinued, ← Bool.not_eq_true, List.isSuffixOf_iff_suffix]
    rintro ⟨u, hu⟩
    rw [List.concat_eq_append, pieceText, List.flatMap_append, List.flatMap_singleton, hw,
      show (['\\', '\n'] : Text) = ['\\'] ++ ['\n'] from rfl, ← List.append_assoc] at hu
    have hlast := List.append_inj_left' hu rfl
    rw [← List.append_assoc] at hlast
    exact absurd (List.append_inj_right' hlast rfl) (by decide)
  refine ⟨by rw [opens, hno, hcontinued]; rfl, ?_⟩
  rw [udevLine, if_neg (by rw [hno]; exact Bool.false_ne_true), udevKeys_of_readable h]

end UdevLemmas

end DebianKernel.DiskId
