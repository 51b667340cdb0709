import DebianKernel.Lib.Lines
import DebianKernel.Lib.Words

/-!
# The devices in mdadm.conf

`mdadm_list` of the postinst: the words of the lines `DEVICE`, which it looks up as devices.
The expression that cuts them out takes a blank together with the character behind it, so a
comment is seen only behind an odd number of blanks, and the end of the line is not seen at
all.

Results:
1. `keywordRest_spec`: the lines that start with the keyword, and what follows it.
2. `devices_cases`: what is cut out of a line, next to what precedes its comment.
3. `mdadm_list_exact_iff`: the files of which exactly the words are returned.
-/

namespace DebianKernel.DiskId

open Text

namespace Mdadm

/-! ## The source -/

/-- `[ \t]`. -/
def isSpaceOrTab (c : Char) : Bool := c = ' ' ∨ c = '\t'

/-- The text behind the letters that it starts with, in any case. -/
def dropLetters : Text → Text → Text
  | x :: xs, c :: t => if c.toLower = x then dropLetters xs t else c :: t
  | _, t => t

/-- What follows `^DEV(?:I(?:C(?:E)?)?)?`, in any case. -/
def keywordRest : Text → Option Text
  | d :: e :: v :: t =>
    if d.toLower = 'd' ∧ e.toLower = 'e' ∧ v.toLower = 'v' then some (dropLetters "ice" t) else none
  | _ => none

/-- `(?:[^ \t]|[ \t][^#])*`. Nothing of the expression comes behind it, so the first way to
match is taken. -/
def devices : Text → Text
  | [] => []
  | [c] => if isSpaceOrTab c then [] else [c]
  | c :: d :: t =>
    if isSpaceOrTab c then if d = '#' then [] else c :: d :: devices t
    else c :: devices (d :: t)

/-- `split(/[ \t]+/, …)`. Empty fields at the end are dropped. -/
def splitTabs (t : Text) : List Text :=
  match t.splitOnP isSpaceOrTab with
  | [] => []
  | x :: xs => (x :: xs.filter (· ≠ [])).rdropWhile (· = [])

/-- What a line adds to the results. -/
def lineResults (line : Text) : List Text :=
  match keywordRest line with
  | some rest => splitTabs (devices (rest.dropWhile isSpaceOrTab))
  | none => []

end Mdadm

open Mdadm

/-- `mdadm_list`. -/
def mdadmList (f : Text) : List Text := (lines f).flatMap lineResults

/-! ## What is configured -/

namespace Mdadm

/-- The text before a comment, a `#` behind white space. -/
def beforeComment (afterSpace : Bool) : Text → Text
  | [] => []
  | c :: t => if c = '#' ∧ afterSpace = true then [] else c :: beforeComment (isSpace c) t

/-- The words of a line: those behind the keyword and before a comment. The keyword is what the
line starts with, and need not end at a blank: in a line `DEVELOPMENT x`, it is `DEV`. -/
def lineWords (line : Text) : List Text :=
  match keywordRest line with
  | some rest => words (beforeComment false rest)
  | none => []

/-- The words are cut out right: there is only one kind of white space before the comment,
and the comment is behind another character and then an odd number of blanks. -/
def WordsKept (rest : Text) : Prop :=
  (∀ c ∈ beforeComment false rest, isSpace c = true → isSpaceOrTab c = true) ∧
    (beforeComment false rest = rest ∨
      (∃ c ∈ beforeComment false rest, isSpaceOrTab c = false) ∧
        ((beforeComment false rest).rtakeWhile isSpaceOrTab).length % 2 = 1)

end Mdadm

def deviceWords (f : Text) : List Text := (lines f).flatMap lineWords

namespace MdadmLemmas

theorem isSpace_of_blank {c : Char} (h : isSpaceOrTab c = true) : isSpace c = true := by
  have hc : c = ' ' ∨ c = '\t' := by simpa [isSpaceOrTab] using h
  rcases hc with rfl | rfl <;> rfl

/-! ## The keyword -/

theorem dropLetters_spec (xs t : Text) :
    ∃ k, t = k ++ dropLetters xs t ∧ k.map Char.toLower <+: xs ∧
      ∀ c r, dropLetters xs t = c :: r → ¬ (k ++ [c]).map Char.toLower <+: xs := by
  induction xs generalizing t with
  | nil =>
    refine ⟨[], rfl, List.prefix_refl _, fun c r _ h => ?_⟩
    exact List.cons_ne_nil _ _ (List.prefix_nil.mp h)
  | cons x xs ih =>
    cases t with
    | nil => exact ⟨[], rfl, List.nil_prefix, nofun⟩
    | cons c t =>
      rw [dropLetters]
      split
      · next hc =>
        obtain ⟨k, ht, hk, hmax⟩ := ih t
        refine ⟨c :: k, by rw [List.cons_append, ← ht], ?_, fun d r hd h => hmax d r hd ?_⟩
        · rw [List.map_cons, hc]
          exact (List.prefix_cons_inj x).mpr hk
        · rw [List.cons_append, List.map_cons, hc] at h
          exact (List.prefix_cons_inj x).mp h
      · next hc =>
        refine ⟨[], rfl, List.nil_prefix, fun d r hd h => hc ?_⟩
        obtain ⟨rfl, -⟩ := List.cons.inj hd
        exact (List.cons_prefix_cons.mp h).1

end MdadmLemmas

open MdadmLemmas

/-- The keyword is the longest part of `DEVICE`, at least `DEV`, that the line starts with. -/
theorem keywordRest_spec {line rest : Text} (h : keywordRest line = some rest) :
    ∃ k, line = k ++ rest ∧ 3 ≤ k.length ∧ k.map Char.toLower <+: "device" ∧
      ∀ c r, rest = c :: r → ¬ (k ++ [c]).map Char.toLower <+: "device" := by
  unfold keywordRest at h
  split at h
  · next d e v t =>
    split at h
    · next hdev =>
      obtain ⟨hd, he, hv⟩ := hdev
      obtain ⟨k, ht, hk, hmax⟩ := dropLetters_spec "ice" t
      rw [Option.some.inj h] at ht hmax
      have hmap : ∀ k : Text,
          (d :: e :: v :: k).map Char.toLower = "dev" ++ k.map Char.toLower := by
        intro k
        rw [List.map_cons, List.map_cons, List.map_cons, hd, he, hv]
        rfl
      refine ⟨d :: e :: v :: k, by rw [ht]; rfl, Nat.le_add_left 3 _, ?_, fun c r hr hp => ?_⟩
      · rw [hmap]
        exact (List.prefix_append_right_inj ("dev" : Text)).mpr hk
      · refine hmax c r hr ((List.prefix_append_right_inj ("dev" : Text)).mp ?_)
        rw [← hmap]
        exact hp
    · cases h
  · cases h

/-! ## One line -/

namespace MdadmLemmas

/-- All white space is blanks. -/
def Plain (t : Text) : Prop := ∀ c ∈ t, isSpace c = true → isSpaceOrTab c = true

theorem plain_cons {c : Char} {t : Text} (hc : isSpace c = true → isSpaceOrTab c = true)
    (h : Plain t) : Plain (c :: t) := List.forall_mem_cons.mpr ⟨hc, h⟩

theorem endBlanks_cons {c : Char} (hc : isSpaceOrTab c = false) (t : Text) :
    ((c :: t).rtakeWhile isSpaceOrTab).length = (t.rtakeWhile isSpaceOrTab).length := by
  rw [List.rtakeWhile, List.rtakeWhile, List.length_reverse, List.length_reverse,
    List.reverse_cons, List.takeWhile_append]
  split
  · next h => simp [hc, h]
  · rfl

/-- Two characters more, the first a blank, do not change the parity. -/
theorem endBlanks_cons_cons {c : Char} (hc : isSpaceOrTab c = true) (d : Char) (t : Text) :
    ((c :: d :: t).rtakeWhile isSpaceOrTab).length % 2 =
      (t.rtakeWhile isSpaceOrTab).length % 2 := by
  rw [List.rtakeWhile, List.rtakeWhile, List.length_reverse, List.length_reverse,
    List.reverse_cons, List.reverse_cons, List.append_assoc, List.takeWhile_append]
  split
  · next h =>
    rw [List.length_append, h, List.length_reverse]
    cases hd : isSpaceOrTab d with
    | true => simp [hd, hc]
    | false => simp [hd]
  · rfl

/-- What is cut out of a text, `g`, next to what precedes its comment, `b`. -/
inductive Cut (t b g : Text) : Prop
  /-- Other white space is cut out with it. -/
  | mixed : ¬ Plain b → (∃ c ∈ g, isSpace c = true ∧ isSpaceOrTab c = false) → Cut t b g
  /-- All of it, the last blank apart. -/
  | kept : Plain b → (b = g ∨ ∃ c, isSpaceOrTab c = true ∧ b = g ++ [c]) →
      (b = t ∨ (b.rtakeWhile isSpaceOrTab).length % 2 = 1) → Cut t b g
  /-- The comment is missed. -/
  | missed : Plain b → b ≠ t → (b.rtakeWhile isSpaceOrTab).length % 2 = 0 →
      (∃ rest, g = b ++ '#' :: rest) → Cut t b g

theorem Cut.cons_cons {t b g : Text} (h : Cut t b g) {c d : Char} (hc : isSpaceOrTab c = true)
    (hd : isSpace d = true → isSpaceOrTab d = true) :
    Cut (c :: d :: t) (c :: d :: b) (c :: d :: g) := by
  have hplain : ∀ {u : Text}, Plain u → Plain (c :: d :: u) := fun hu =>
    plain_cons (fun _ => hc) (plain_cons hd hu)
  cases h with
  | mixed hb hg =>
    obtain ⟨x, hx, hsp⟩ := hg
    refine .mixed (fun h => hb fun y hy => h y ?_) ⟨x, ?_, hsp⟩
    · exact List.mem_cons_of_mem _ (List.mem_cons_of_mem _ hy)
    · exact List.mem_cons_of_mem _ (List.mem_cons_of_mem _ hx)
  | kept hb hg hend =>
    refine .kept (hplain hb) ?_ ?_
    · rcases hg with rfl | ⟨x, hx, rfl⟩
      · exact .inl rfl
      · exact .inr ⟨x, hx, rfl⟩
    · rw [endBlanks_cons_cons hc]
      exact hend.imp_left fun h => by rw [h]
  | missed hb hne heven hg =>
    obtain ⟨rest, rfl⟩ := hg
    refine .missed (hplain hb) (fun h => hne ?_) (by rw [endBlanks_cons_cons hc]; exact heven)
      ⟨rest, rfl⟩
    exact (List.cons.inj (List.cons.inj h).2).2

theorem Cut.cons {t b g : Text} (h : Cut t b g) {c : Char} (hc : isSpace c = false) :
    Cut (c :: t) (c :: b) (c :: g) := by
  have hblank : isSpaceOrTab c = false := by
    cases hb : isSpaceOrTab c with
    | false => rfl
    | true =>
      rw [isSpace_of_blank hb] at hc
      cases hc
  have hplain : ∀ {u : Text}, Plain u → Plain (c :: u) := fun hu =>
    plain_cons (fun h => by rw [hc] at h; cases h) hu
  cases h with
  | mixed hb hg =>
    obtain ⟨x, hx, hsp⟩ := hg
    refine .mixed (fun h => hb fun y hy => h y (List.mem_cons_of_mem _ hy)) ⟨x, ?_, hsp⟩
    exact List.mem_cons_of_mem _ hx
  | kept hb hg hend =>
    refine .kept (hplain hb) ?_ ?_
    · rcases hg with rfl | ⟨x, hx, rfl⟩
      · exact .inl rfl
      · exact .inr ⟨x, hx, rfl⟩
    · rw [endBlanks_cons hblank]
      exact hend.imp_left fun h => by rw [h]
  | missed hb hne heven hg =>
    obtain ⟨rest, rfl⟩ := hg
    refine .missed (hplain hb) (fun h => hne ?_) (by rw [endBlanks_cons hblank]; exact heven)
      ⟨rest, rfl⟩
    exact (List.cons.inj h).2

theorem Cut.of_white {t b g : Text} {c : Char} (hc : isSpace c = true) (hb : isSpaceOrTab c = false)
    (hcb : c ∈ b) (hcg : c ∈ g) : Cut t b g := by
  refine .mixed (fun h => ?_) ⟨c, hcg, hc, hb⟩
  have hblank := h c hcb hc
  rw [hb] at hblank
  cases hblank

/-- The cases follow the alternatives of the expression. -/
theorem devices_cases (t : Text) (afterSpace : Bool) :
    Cut t (beforeComment afterSpace t) (devices t) := by
  fun_induction devices t generalizing afterSpace with
  | case1 => exact .kept nofun (.inl rfl) (.inl rfl)
  | case2 c hc =>
    have hhash : ¬ (c = '#' ∧ afterSpace = true) := by
      rintro ⟨rfl, -⟩
      exact absurd hc (by decide)
    rw [beforeComment, if_neg hhash]
    exact .kept (plain_cons (fun _ => hc) nofun) (.inr ⟨c, hc, rfl⟩) (.inl rfl)
  | case3 c hc =>
    rw [beforeComment]
    split
    · next h =>
      obtain ⟨rfl, -⟩ := h
      exact .missed nofun (List.cons_ne_nil _ _).symm rfl ⟨[], rfl⟩
    · cases hsp : isSpace c with
      | true =>
        exact .of_white hsp (by simpa using hc) List.mem_cons_self List.mem_cons_self
      | false => exact (Cut.kept (fun _ h => by cases h) (.inl rfl) (.inl rfl)).cons hsp
  | case4 c t hc =>
    have hhash : ¬ (c = '#' ∧ afterSpace = true) := by
      rintro ⟨rfl, -⟩
      exact absurd hc (by decide)
    rw [beforeComment, if_neg hhash, beforeComment, if_pos ⟨rfl, isSpace_of_blank hc⟩]
    refine .kept (plain_cons (fun _ => hc) nofun) (.inr ⟨c, hc, rfl⟩) (.inr ?_)
    rw [List.rtakeWhile, List.reverse_singleton, List.takeWhile_cons_of_pos hc]
    rfl
  | case5 c d t hc hd ih =>
    have hhash : ¬ (c = '#' ∧ afterSpace = true) := by
      rintro ⟨rfl, -⟩
      exact absurd hc (by decide)
    rw [beforeComment, if_neg hhash, beforeComment, if_neg fun h => hd h.1]
    cases hsp : isSpace d with
    | true =>
      cases hb : isSpaceOrTab d with
      | true => exact (ih true).cons_cons hc fun _ => hb
      | false => exact .of_white hsp hb (by simp) (by simp)
    | false => exact (ih false).cons_cons hc fun h => by rw [hsp] at h; cases h
  | case6 c d t hc ih =>
    rw [beforeComment]
    split
    · next h =>
      obtain ⟨rfl, -⟩ := h
      exact .missed nofun (List.cons_ne_nil _ _).symm rfl ⟨_, rfl⟩
    · cases hsp : isSpace c with
      | true => exact .of_white hsp (by simpa using hc) List.mem_cons_self List.mem_cons_self
      | false => exact (ih false).cons hsp

theorem splitOnP_congr {p q : Char → Bool} {t : Text} (h : ∀ c ∈ t, p c = q c) :
    t.splitOnP p = t.splitOnP q := by
  induction t with
  | nil => rw [List.splitOnP_nil, List.splitOnP_nil]
  | cons c t ih =>
    rw [List.splitOnP_cons_eq_if_modifyHead, List.splitOnP_cons_eq_if_modifyHead,
      h c List.mem_cons_self, ih fun d hd => h d (List.mem_cons_of_mem c hd)]

theorem exists_mem_splitOnP {p : Char → Bool} {t : Text} {c : Char} (hc : c ∈ t)
    (hp : p c = false) : ∃ w ∈ t.splitOnP p, c ∈ w := by
  induction t with
  | nil => cases hc
  | cons d t ih =>
    obtain ⟨x, xs, hxs⟩ := List.exists_cons_of_ne_nil (List.splitOnP_ne_nil p t)
    rw [List.splitOnP_cons_eq_if_modifyHead]
    rw [hxs] at ih ⊢
    rcases List.mem_cons.mp hc with rfl | hc
    · rw [hp, if_neg Bool.false_ne_true, List.modifyHead_cons]
      exact ⟨c :: x, List.mem_cons_self, List.mem_cons_self⟩
    · obtain ⟨w, hw, hcw⟩ := ih hc
      split
      · exact ⟨w, List.mem_cons_of_mem _ hw, hcw⟩
      · rw [List.modifyHead_cons]
        rcases List.mem_cons.mp hw with rfl | hw
        · exact ⟨d :: w, List.mem_cons_self, List.mem_cons_of_mem d hcw⟩
        · exact ⟨w, List.mem_cons_of_mem _ hw, hcw⟩

/-- A character that is no blank is in one of the fields. -/
theorem exists_mem_splitTabs {t : Text} {c : Char} (hc : c ∈ t) (hb : isSpaceOrTab c = false) :
    ∃ w ∈ splitTabs t, c ∈ w := by
  obtain ⟨w, hw, hcw⟩ := exists_mem_splitOnP hc hb
  obtain ⟨x, xs, hxs⟩ := List.exists_cons_of_ne_nil (List.splitOnP_ne_nil isSpaceOrTab t)
  refine ⟨w, ?_, hcw⟩
  have hne : w ≠ [] := List.ne_nil_of_mem hcw
  rw [splitTabs, hxs]
  rw [hxs] at hw
  have hmem : w ∈ x :: xs.filter (· ≠ []) := by
    rcases List.mem_cons.mp hw with rfl | hw
    · exact List.mem_cons_self
    · exact List.mem_cons_of_mem _ (List.mem_filter.mpr ⟨hw, by simpa using hne⟩)
  have hsplit := List.rdropWhile_append_rtakeWhile (p := fun v : Text => decide (v = []))
    (l := x :: xs.filter (· ≠ []))
  rw [← hsplit] at hmem
  rcases List.mem_append.mp hmem with hmem | hmem
  · exact hmem
  · have hnil := List.mem_rtakeWhile_imp (p := fun v : Text => decide (v = [])) hmem
    exact absurd (of_decide_eq_true hnil) hne

/-- The fields are the words where blanks are the only white space. -/
theorem splitTabs_eq_words {t : Text} (h : Plain t)
    (hhead : ∀ c ∈ t.head?, isSpaceOrTab c = false) : splitTabs t = words t := by
  have hsame : t.splitOnP isSpace = t.splitOnP isSpaceOrTab := by
    refine splitOnP_congr fun c hc => Bool.eq_iff_iff.mpr ⟨h c hc, isSpace_of_blank⟩
  rw [words_eq_splitOnP, hsame, splitTabs]
  cases t with
  | nil =>
    rw [List.splitOnP_nil]
    rfl
  | cons c t =>
    obtain ⟨x, xs, hxs⟩ := List.exists_cons_of_ne_nil (List.splitOnP_ne_nil isSpaceOrTab t)
    rw [List.splitOnP_cons_eq_if_modifyHead, hhead c rfl, if_neg Bool.false_ne_true, hxs,
      List.modifyHead_cons, List.filter_cons_of_pos (by simp)]
    dsimp only
    rw [List.rdropWhile_eq_self_iff]
    intro hne
    have hlast := List.getLast_mem hne
    rcases List.mem_cons.mp hlast with heq | hmem
    · rw [heq]
      simp
    · simpa using (List.mem_filter.mp hmem).2

/-! ### Before the comment -/

theorem beforeComment_blanks {u : Text} (hu : ∀ c ∈ u, isSpaceOrTab c = true) (hne : u ≠ [])
    (afterSpace : Bool) (t : Text) :
    beforeComment afterSpace (u ++ t) = u ++ beforeComment true t := by
  induction u generalizing afterSpace with
  | nil => exact absurd rfl hne
  | cons c u ih =>
    have hc := hu c List.mem_cons_self
    have hhash : ¬ (c = '#' ∧ afterSpace = true) := by
      rintro ⟨rfl, -⟩
      exact absurd hc (by decide)
    rw [List.cons_append, beforeComment, if_neg hhash, isSpace_of_blank hc]
    rcases eq_or_ne u [] with rfl | hune
    · rfl
    · rw [ih (fun d hd => hu d (List.mem_cons_of_mem c hd)) hune]
      rfl

/-- What is behind the text before a comment. -/
theorem beforeComment_ends {afterSpace : Bool} {t : Text} (h : beforeComment afterSpace t ≠ t) :
    (beforeComment afterSpace t = [] ∧ afterSpace = true) ∨
      ∃ u c, beforeComment afterSpace t = u ++ [c] ∧ isSpace c = true := by
  induction t generalizing afterSpace with
  | nil => exact absurd rfl h
  | cons c t ih =>
    rw [beforeComment] at h ⊢
    split
    · next hc => exact .inl ⟨rfl, hc.2⟩
    · next hc =>
      rw [if_neg hc] at h
      rcases ih fun heq => h (congrArg (c :: ·) heq) with ⟨hnil, hspace⟩ | ⟨u, d, heq, hd⟩
      · exact .inr ⟨[], c, by rw [hnil]; rfl, hspace⟩
      · exact .inr ⟨c :: u, d, by rw [heq]; rfl, hd⟩

theorem beforeComment_head {afterSpace : Bool} {t : Text}
    (hhead : ∀ c ∈ t.head?, isSpaceOrTab c = false) :
    ∀ c ∈ (beforeComment afterSpace t).head?, isSpaceOrTab c = false := by
  cases t with
  | nil => exact nofun
  | cons d t =>
    intro c hc
    rw [beforeComment] at hc
    split at hc
    · cases hc
    · exact hhead c hc

theorem endBlanks_append {u b : Text} (h : ∃ c ∈ b, isSpaceOrTab c = false) :
    (u ++ b).rtakeWhile isSpaceOrTab = b.rtakeWhile isSpaceOrTab := by
  rw [List.rtakeWhile, List.rtakeWhile, List.reverse_append, List.takeWhile_append, if_neg]
  intro hlen
  obtain ⟨c, hc, hb⟩ := h
  have hall := List.takeWhile_eq_self_iff.mp
    ((List.takeWhile_prefix isSpaceOrTab (l := b.reverse)).eq_of_length hlen)
  rw [hall c (List.mem_reverse.mpr hc)] at hb
  cases hb

theorem devices_head {t : Text} (h : ∀ c ∈ t.head?, isSpaceOrTab c = false) :
    ∀ c ∈ (devices t).head?, isSpaceOrTab c = false := by
  fun_cases devices t with
  | case1 => exact nofun
  | case2 c hc => exact nofun
  | case3 c hc => exact h
  | case4 c t hc => exact nofun
  | case5 c d t hc hd => exact h
  | case6 c d t hc => exact h

/-- What a line adds to the results, next to its words. -/
inductive Returned (rest : Text) (ws : List Text) : Prop
  | right : WordsKept rest → ws = words (beforeComment false rest) → Returned rest ws
  | space : ¬ WordsKept rest → (∃ w ∈ ws, ∃ c ∈ w, isSpace c = true) → Returned rest ws
  | more : ¬ WordsKept rest →
      (∃ extra, extra ≠ [] ∧ ws = words (beforeComment false rest) ++ extra) → Returned rest ws

/-- A comment that is missed adds words. -/
theorem returned_missed {u b r : Text} {afterSpace : Bool} {t : Text}
    (hb : b = beforeComment afterSpace t) (hne : b ≠ t)
    (hu : ∀ c ∈ u, isSpaceOrTab c = true) (hg : devices t = b ++ '#' :: r)
    (hhead : ∀ c ∈ (devices t).head?, isSpaceOrTab c = false)
    (hspace : ∀ w ∈ splitTabs (devices t), ∀ c ∈ w, isSpace c = false) :
    ∃ extra, extra ≠ [] ∧ splitTabs (devices t) = words (u ++ b) ++ extra := by
  have hplain : Plain (devices t) := by
    intro c hc hsp
    cases hblank : isSpaceOrTab c with
    | true => rfl
    | false =>
      obtain ⟨w, hw, hcw⟩ := exists_mem_splitTabs hc hblank
      rw [hspace w hw c hcw] at hsp
      cases hsp
  have hends : b = [] ∨ ∃ v c, b = v ++ [c] ∧ isSpace c = true := by
    rw [hb] at hne ⊢
    exact (beforeComment_ends hne).imp_left And.left
  have hwords : words (b ++ '#' :: r) = words b ++ words ('#' :: r) := by
    rcases hends with hnil | ⟨v, c, hv, hc⟩
    · rw [hnil]
      rfl
    · rw [hv, List.append_assoc, List.singleton_append, words_append_blank hc,
        words_append_blank hc, words_nil, List.append_nil]
  refine ⟨words ('#' :: r), words_ne_nil rfl r, ?_⟩
  rw [splitTabs_eq_words hplain hhead, hg, hwords,
    words_append_left_of_space fun c hc => isSpace_of_blank (hu c hc)]

theorem returned (rest : Text) :
    Returned rest (splitTabs (devices (rest.dropWhile isSpaceOrTab))) := by
  have hsplit := List.takeWhile_append_dropWhile (p := isSpaceOrTab) (l := rest)
  have hu : ∀ c ∈ rest.takeWhile isSpaceOrTab, isSpaceOrTab c = true :=
    fun c hc => List.mem_takeWhile_imp hc
  have hhead : ∀ c ∈ (rest.dropWhile isSpaceOrTab).head?, isSpaceOrTab c = false := fun c hc => by
    have hnot := List.head?_dropWhile_not isSpaceOrTab rest
    rw [Option.mem_def.mp hc] at hnot
    exact hnot
  generalize rest.takeWhile isSpaceOrTab = u at hsplit hu
  generalize rest.dropWhile isSpaceOrTab = t at hsplit hhead ⊢
  obtain ⟨afterSpace, hbefore⟩ :
      ∃ afterSpace, beforeComment false rest = u ++ beforeComment afterSpace t := by
    rw [← hsplit]
    rcases eq_or_ne u [] with rfl | hne
    · exact ⟨false, rfl⟩
    · exact ⟨true, beforeComment_blanks hu hne false t⟩
  have hwords : words (beforeComment false rest) = words (beforeComment afterSpace t) := by
    rw [hbefore]
    exact words_append_left_of_space (fun c hc => isSpace_of_blank (hu c hc)) _
  have hwhole : beforeComment false rest = rest ↔ beforeComment afterSpace t = t := by
    rw [hbefore, ← hsplit]
    exact List.append_right_inj u
  cases devices_cases t afterSpace with
  | mixed hb hg =>
    refine .space (fun h => hb fun c hc => h.1 c ?_) ?_
    · rw [hbefore]
      exact List.mem_append_right u hc
    · obtain ⟨c, hc, hsp, hblank⟩ := hg
      obtain ⟨w, hw, hcw⟩ := exists_mem_splitTabs hc hblank
      exact ⟨w, hw, c, hcw, hsp⟩
  | kept hb hg hend =>
    refine .right ⟨fun c hc hsp => ?_, ?_⟩ ?_
    · rw [hbefore] at hc
      rcases List.mem_append.mp hc with hc | hc
      · exact hu c hc
      · exact hb c hc hsp
    · rcases hend with hend | hodd
      · exact .inl (hwhole.mpr hend)
      · have hvisible : ∃ c ∈ beforeComment afterSpace t, isSpaceOrTab c = false := by
          cases hbt : beforeComment afterSpace t with
          | nil =>
            rw [hbt] at hodd
            cases hodd
          | cons c v => exact ⟨c, List.mem_cons_self, beforeComment_head hhead c (by rw [hbt]; rfl)⟩
        right
        rw [hbefore, endBlanks_append hvisible]
        obtain ⟨c, hc, hblank⟩ := hvisible
        exact ⟨⟨c, List.mem_append_right u hc, hblank⟩, hodd⟩
    · rw [hwords]
      have hplain : Plain (devices t) := by
        rcases hg with hg | ⟨c, -, hg⟩
        · rw [← hg]
          exact hb
        · intro d hd
          exact hb d (by rw [hg]; exact List.mem_append_left _ hd)
      rw [splitTabs_eq_words hplain (devices_head hhead)]
      rcases hg with hg | ⟨c, hc, hg⟩
      · rw [hg]
      · rw [hg, words_append_of_space]
        intro d hd
        rw [List.mem_singleton.mp hd]
        exact isSpace_of_blank hc
  | missed hb hne heven hg =>
    obtain ⟨r, hg⟩ := hg
    have hnot : ¬ WordsKept rest := by
      rintro ⟨-, hend⟩
      rcases hend with hend | ⟨hvisible, hodd⟩
      · exact hne (hwhole.mp hend)
      · rw [hbefore] at hvisible hodd
        obtain ⟨c, hc, hblank⟩ := hvisible
        rcases List.mem_append.mp hc with hc | hc
        · rw [hu c hc] at hblank
          cases hblank
        · rw [endBlanks_append ⟨c, hc, hblank⟩, heven] at hodd
          cases hodd
    by_cases hspace : ∃ w ∈ splitTabs (devices t), ∃ c ∈ w, isSpace c = true
    · exact .space hnot hspace
    · refine .more hnot ?_
      rw [hbefore]
      refine returned_missed rfl hne hu hg (devices_head hhead) fun w hw c hc => ?_
      cases hsp : isSpace c with
      | false => rfl
      | true => exact absurd ⟨w, hw, c, hc, hsp⟩ hspace

/-! ## The file -/

theorem length_flatMap_le {α β : Type} {f g : α → List β} {xs : List α}
    (h : ∀ x ∈ xs, f x <+: g x) : (xs.flatMap f).length ≤ (xs.flatMap g).length := by
  induction xs with
  | nil => exact le_rfl
  | cons x xs ih =>
    obtain ⟨hx, hxs⟩ := List.forall_mem_cons.mp h
    rw [List.flatMap_cons, List.flatMap_cons, List.length_append, List.length_append]
    exact Nat.add_le_add hx.length_le (ih hxs)

theorem eq_of_flatMap_eq {α β : Type} {f g : α → List β} {xs : List α}
    (h : ∀ x ∈ xs, f x <+: g x) (heq : xs.flatMap f = xs.flatMap g) : ∀ x ∈ xs, f x = g x := by
  induction xs with
  | nil => exact nofun
  | cons x xs ih =>
    obtain ⟨hx, hxs⟩ := List.forall_mem_cons.mp h
    have hle := length_flatMap_le hxs
    have hfirstLe := hx.length_le
    have hlen := congrArg List.length heq
    rw [List.flatMap_cons, List.flatMap_cons, List.length_append, List.length_append] at hlen
    have hfirst : f x = g x := hx.eq_of_length (by omega)
    rw [List.flatMap_cons, List.flatMap_cons, hfirst, List.append_right_inj] at heq
    exact List.forall_mem_cons.mpr ⟨hfirst, ih hxs heq⟩

theorem lineWords_prefix {line : Text} (h : ∀ w ∈ lineResults line, ∀ c ∈ w, isSpace c = false) :
    lineWords line <+: lineResults line := by
  unfold lineWords
  unfold lineResults at h ⊢
  cases hk : keywordRest line with
  | none => exact List.prefix_refl _
  | some rest =>
    rw [hk] at h
    dsimp only at h ⊢
    cases returned rest with
    | right _ heq =>
      exact heq.symm ▸ List.prefix_refl _
    | space _ hsp =>
      obtain ⟨w, hw, c, hc, hsp⟩ := hsp
      rw [h w hw c hc] at hsp
      cases hsp
    | more _ heq =>
      obtain ⟨extra, -, heq⟩ := heq
      rw [heq]
      exact List.prefix_append _ _

end MdadmLemmas

/-- Exactly the words behind `DEVICE` are returned if they are cut out right on every line. -/
theorem mdadm_list_exact_iff (f : Text) :
    (mdadmList f = deviceWords f ∧ ∀ w ∈ mdadmList f, ∀ c ∈ w, isSpace c = false) ↔
      ∀ line ∈ lines f, ∀ rest ∈ keywordRest line, WordsKept rest := by
  constructor
  · rintro ⟨heq, hspace⟩ line hline rest hrest
    have hlines : ∀ l ∈ lines f, ∀ w ∈ lineResults l, ∀ c ∈ w, isSpace c = false :=
      fun l hl w hw => hspace w (List.mem_flatMap.mpr ⟨l, hl, hw⟩)
    have hsame := eq_of_flatMap_eq (fun l hl => lineWords_prefix (hlines l hl)) heq.symm line hline
    have hclean := hlines line hline
    rw [lineResults, hrest] at hclean hsame
    rw [lineWords, hrest] at hsame
    dsimp only at hclean hsame
    cases returned rest with
    | right hkept _ => exact hkept
    | space _ hsp =>
      obtain ⟨w, hw, c, hc, hsp⟩ := hsp
      rw [hclean w hw c hc] at hsp
      cases hsp
    | more _ hmore =>
      obtain ⟨extra, hne, hmore⟩ := hmore
      exact absurd (List.append_right_eq_self.mp (hsame.trans hmore).symm) hne
  · intro h
    have hline : ∀ l ∈ lines f, lineResults l = lineWords l := by
      intro l hl
      unfold lineResults lineWords
      cases hk : keywordRest l with
      | none => rfl
      | some rest =>
        cases returned rest with
        | right _ heq => exact heq
        | space hnot _ => exact absurd (h l hl rest hk) hnot
        | more hnot _ => exact absurd (h l hl rest hk) hnot
    refine ⟨List.flatMap_congr hline, fun w hw c hc => ?_⟩
    obtain ⟨l, hl, hw⟩ := List.mem_flatMap.mp hw
    rw [hline l hl, lineWords] at hw
    split at hw
    · exact (isWord_of_mem_words hw).2 c hc
    · cases hw

/-- A line that is complete returns its newline. -/
theorem newline_returned :
    ¬ ∀ f : Text, mdadmList f = deviceWords f ∧ ∀ w ∈ mdadmList f, ∀ c ∈ w, isSpace c = false := by
  intro h
  have hnewline := (h "DEVICE /dev/sda\n").2 "/dev/sda\n" (by decide) '\n' (by decide)
  exact absurd hnewline (by decide)

end DebianKernel.DiskId
