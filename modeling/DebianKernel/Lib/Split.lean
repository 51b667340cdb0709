import DebianKernel.Lib.Text

/-!
# Texts that are joined and split again

Results:
1. `strip_splitOn_intercalate`: items that are joined with a separator and blanks are read
   back, where the blanks around each of them are taken off.
2. `splitBlanks_intercalate_iff`: names that are joined with single blanks are read back
   exactly if none of them but the first and the last is empty.
-/

namespace Text

/-! ## Blanks at the ends -/

/-- A text without blanks at its ends. -/
structure Trimmed (t : Text) : Prop where
  head : ∀ c ∈ t.head?, isSpace c = false
  last : ∀ c ∈ t.getLast?, isSpace c = false

theorem trimmed_nil : Trimmed [] := ⟨nofun, nofun⟩

theorem mem_of_mem_strip {t : Text} {c : Char} (h : c ∈ strip t) : c ∈ t :=
  (List.dropWhile_sublist _).mem ((List.rdropWhile_prefix _ _).mem h)

/-- The blanks around a text are taken off. -/
theorem strip_padded {p t s : Text} (hp : ∀ c ∈ p, isSpace c = true) (ht : Trimmed t)
    (hs : ∀ c ∈ s, isSpace c = true) : strip (p ++ t ++ s) = t := by
  rw [strip, List.append_assoc, List.dropWhile_append_of_pos hp]
  exact strip_append_of_space ht.head ht.last hs

theorem strip_of_trimmed {t : Text} (ht : Trimmed t) : strip t = t := by
  have h := strip_padded (p := []) (s := []) (by simp) ht (by simp)
  rwa [List.nil_append, List.append_nil] at h

/-- A text that begins and ends with texts without blanks at their outer ends. -/
theorem Trimmed.append {t m u : Text} (ht : Trimmed t) (hu : Trimmed u) (hne : t ≠ [])
    (hne' : u ≠ []) : Trimmed (t ++ m ++ u) := by
  refine ⟨?_, ?_⟩
  · rw [List.append_assoc, List.head?_append_of_ne_nil _ hne]
    exact ht.head
  · rw [List.getLast?_append_of_ne_nil _ hne']
    exact hu.last

/-! ## Separators -/

/-- The pieces of a split do not have the separator. -/
theorem not_mem_of_mem_splitOn {c : Char} {t l : Text} (h : l ∈ t.splitOn c) : c ∉ l := by
  induction t generalizing l with
  | nil =>
    rw [List.splitOn_nil, List.mem_singleton] at h
    rw [h]
    exact List.not_mem_nil
  | cons d t ih =>
    obtain ⟨l₀, ls, hls⟩ := List.exists_cons_of_ne_nil (List.splitOn_ne_nil c t)
    rw [List.splitOn_cons_eq_if_modifyHead, hls] at h
    rw [hls] at ih
    split at h
    · rcases List.mem_cons.mp h with rfl | h
      · exact List.not_mem_nil
      · exact ih h
    · next hd =>
      rw [List.modifyHead_cons] at h
      rcases List.mem_cons.mp h with rfl | h
      · intro hmem
        rcases List.mem_cons.mp hmem with rfl | hmem
        · exact hd (beq_self_eq_true _)
        · exact ih List.mem_cons_self hmem
      · exact ih (List.mem_cons_of_mem _ h)

theorem mem_intercalate {sep : Text} {ls : List Text} {c : Char} (h : c ∈ sep.intercalate ls) :
    c ∈ sep ∨ ∃ l ∈ ls, c ∈ l := by
  induction ls with
  | nil => cases h
  | cons l ls ih =>
    cases ls with
    | nil =>
      rw [List.intercalate_singleton] at h
      exact .inr ⟨l, List.mem_cons_self, h⟩
    | cons l' ls =>
      rw [List.intercalate_cons_cons, List.mem_append, List.mem_append] at h
      rcases h with (h | h) | h
      · exact .inr ⟨l, List.mem_cons_self, h⟩
      · exact .inl h
      · refine (ih h).imp id ?_
        rintro ⟨l'', hl'', hc⟩
        exact ⟨l'', List.mem_cons_of_mem _ hl'', hc⟩

theorem mem_intercalate_of_mem {sep l : Text} {ls : List Text} {c : Char} (hl : l ∈ ls)
    (hc : c ∈ l) : c ∈ sep.intercalate ls := by
  induction ls with
  | nil => cases hl
  | cons l' ls ih =>
    cases ls with
    | nil =>
      rw [List.intercalate_singleton, ← List.mem_singleton.mp hl]
      exact hc
    | cons l'' ls =>
      rw [List.intercalate_cons_cons]
      rcases List.mem_cons.mp hl with rfl | hl
      · exact List.mem_append_left _ (List.mem_append_left _ hc)
      · exact List.mem_append_right _ (ih hl)

theorem intercalate_ne_nil {sep : Text} (hsep : sep ≠ []) {ls : List Text} (hne : ls ≠ [])
    (hblank : ls ≠ [[]]) : sep.intercalate ls ≠ [] := by
  rcases ls with _ | ⟨l, _ | ⟨l', ls⟩⟩
  · exact absurd rfl hne
  · rw [List.intercalate_singleton]
    exact fun h => hblank (by rw [h])
  · rw [List.intercalate_cons_cons]
    exact List.append_ne_nil_of_left_ne_nil (List.append_ne_nil_of_right_ne_nil _ hsep) _

/-- Joined items begin and end visibly, when the last one is not empty and what stands in the
place of an empty one does. -/
theorem trimmed_intercalate {sep : Text} (hsep : sep ≠ []) {ls : List Text}
    (hitem : ∀ l ∈ ls, Trimmed l ∧ (l = [] → ∀ c ∈ sep.head?, isSpace c = false))
    (hlast : ls.getLast? ≠ some []) : Trimmed (sep.intercalate ls) := by
  induction ls with
  | nil => exact trimmed_nil
  | cons l ls ih =>
    obtain ⟨hl, hempty⟩ := hitem l List.mem_cons_self
    cases ls with
    | nil =>
      rw [List.intercalate_singleton]
      exact hl
    | cons l' ls =>
      rw [List.getLast?_cons_cons] at hlast
      have hrest := ih (fun x hx => hitem x (List.mem_cons_of_mem _ hx)) hlast
      have hne : sep.intercalate (l' :: ls) ≠ [] := by
        refine intercalate_ne_nil hsep (List.cons_ne_nil _ _) fun h => hlast ?_
        rw [h]
        rfl
      rw [List.intercalate_cons_cons]
      refine ⟨?_, ?_⟩
      · rw [List.append_assoc]
        cases l with
        | nil =>
          rw [List.nil_append, List.head?_append_of_ne_nil _ hsep]
          exact hempty rfl
        | cons c l => exact hl.head
      · rw [List.getLast?_append_of_ne_nil _ hne]
        exact hrest.last

/-- Items are read back, with blanks around the separator. -/
theorem strip_splitOn_intercalate {c : Char} {s₁ s₂ : Text} (h₁ : ∀ d ∈ s₁, isSpace d = true)
    (h₂ : ∀ d ∈ s₂, isSpace d = true) (hc : isSpace c = false) {ls : List Text} (hls : ls ≠ [])
    (hitem : ∀ l ∈ ls, Trimmed l ∧ c ∉ l) :
    (((s₁ ++ [c] ++ s₂).intercalate ls).splitOn c).map strip = ls := by
  have hblank : ∀ {s : Text}, (∀ d ∈ s, isSpace d = true) → c ∉ s := by
    intro s hs hmem
    rw [hs c hmem] at hc
    cases hc
  have hpadded : ∀ p : Text, (∀ d ∈ p, isSpace d = true) →
      ((p ++ (s₁ ++ [c] ++ s₂).intercalate ls).splitOn c).map strip = ls := by
    induction ls with
    | nil => exact absurd rfl hls
    | cons l ls ih =>
      intro p hp
      obtain ⟨htrim, hl⟩ := hitem l List.mem_cons_self
      cases ls with
      | nil =>
        have hnot : c ∉ p ++ l := by
          rw [List.mem_append, not_or]
          exact ⟨hblank hp, hl⟩
        have hstrip := strip_padded (s := []) hp htrim (by simp)
        rw [List.append_nil] at hstrip
        rw [List.intercalate_singleton, List.splitOn_eq_singleton hnot, List.map_singleton, hstrip]
      | cons l' ls =>
        have hnot : c ∉ p ++ l ++ s₁ := by
          rw [List.mem_append, List.mem_append, not_or, not_or]
          exact ⟨⟨hblank hp, hl⟩, hblank h₁⟩
        have hcut : p ++ (s₁ ++ [c] ++ s₂).intercalate (l :: l' :: ls) =
            (p ++ l ++ s₁) ++ c :: (s₂ ++ (s₁ ++ [c] ++ s₂).intercalate (l' :: ls)) := by
          rw [List.intercalate_cons_cons]
          simp
        rw [hcut, List.splitOn_append_cons_self_of_not_mem hnot, List.map_cons,
          strip_padded hp htrim h₁,
          ih (List.cons_ne_nil _ _) (fun x hx => hitem x (List.mem_cons_of_mem _ hx)) s₂ h₂]
  exact hpadded [] (by simp)

/-! ## Blanks as separators -/

/-- `re.split('\s+', t)`. -/
def splitBlanks : Text → List Text
  | [] => [[]]
  | c :: t =>
    if isSpace c then if t.head?.any isSpace then splitBlanks t else [] :: splitBlanks t
    else (c :: (splitBlanks t).headD []) :: (splitBlanks t).tail

theorem splitBlanks_ne_nil (t : Text) : splitBlanks t ≠ [] := by
  induction t with
  | nil => exact List.cons_ne_nil _ _
  | cons c t ih =>
    rw [splitBlanks]
    split
    · split
      · exact ih
      · exact List.cons_ne_nil _ _
    · exact List.cons_ne_nil _ _

/-- The first name goes on up to the first blank. -/
theorem splitBlanks_append {w : Text} (hw : ∀ c ∈ w, isSpace c = false) (t : Text) :
    splitBlanks (w ++ t) = (w ++ (splitBlanks t).headD []) :: (splitBlanks t).tail := by
  induction w with
  | nil =>
    obtain ⟨l, ls, hls⟩ := List.exists_cons_of_ne_nil (splitBlanks_ne_nil t)
    rw [List.nil_append, hls]
    rfl
  | cons c w ih =>
    rw [List.cons_append, splitBlanks,
      if_neg (by rw [hw c List.mem_cons_self]; exact Bool.false_ne_true),
      ih fun d hd => hw d (List.mem_cons_of_mem _ hd)]
    rfl

theorem splitBlanks_of_no_space {w : Text} (hw : ∀ c ∈ w, isSpace c = false) :
    splitBlanks w = [w] := by
  have h := splitBlanks_append hw []
  rw [List.append_nil] at h
  rw [h]
  exact congrArg (· :: _) (List.append_nil w)

theorem mem_splitBlanks {t w : Text} (h : w ∈ splitBlanks t) :
    ∀ c ∈ w, isSpace c = false ∧ c ∈ t := by
  induction t generalizing w with
  | nil =>
    rw [List.mem_singleton.mp h]
    exact fun c hc => absurd hc List.not_mem_nil
  | cons d t ih =>
    have hrest : ∀ v ∈ splitBlanks t, ∀ c ∈ v, isSpace c = false ∧ c ∈ d :: t :=
      fun v hv c hc => ⟨(ih hv c hc).1, List.mem_cons_of_mem _ (ih hv c hc).2⟩
    rw [splitBlanks] at h
    split at h
    · split at h
      · exact hrest w h
      · rcases List.mem_cons.mp h with rfl | h
        · exact fun c hc => absurd hc List.not_mem_nil
        · exact hrest w h
    · next hd =>
      obtain ⟨v, vs, hvs⟩ := List.exists_cons_of_ne_nil (splitBlanks_ne_nil t)
      rw [hvs] at h hrest
      rcases List.mem_cons.mp h with rfl | h
      · intro c hc
        rcases List.mem_cons.mp hc with rfl | hc
        · exact ⟨Bool.eq_false_iff.mpr hd, List.mem_cons_self⟩
        · exact hrest v List.mem_cons_self c hc
      · exact hrest w (List.mem_cons_of_mem _ h)

/-- Between two blanks there is a name. -/
theorem splitBlanks_inner (t : Text) : [] ∉ (splitBlanks t).tail.dropLast := by
  induction t with
  | nil => exact List.not_mem_nil
  | cons c t ih =>
    rw [splitBlanks]
    split
    · split
      · exact ih
      · next hnext =>
        rw [List.tail_cons]
        cases t with
        | nil => exact List.not_mem_nil
        | cons d t =>
          have hd : ¬ isSpace d = true := by simpa using hnext
          rw [splitBlanks, if_neg hd] at ih ⊢
          rw [List.tail_cons] at ih
          rcases htail : (splitBlanks t).tail with _ | ⟨v, vs⟩
          · exact List.not_mem_nil
          · rw [htail] at ih
            rw [List.dropLast_cons_cons, List.mem_cons, not_or]
            exact ⟨fun h => List.cons_ne_nil _ _ h.symm, ih⟩
    · exact ih

theorem two_le_length_splitBlanks {c : Char} (hc : isSpace c = true) (t : Text) :
    2 ≤ (splitBlanks (c :: t)).length := by
  induction t generalizing c with
  | nil =>
    rw [splitBlanks, if_pos hc]
    exact Nat.le_refl 2
  | cons d t ih =>
    rw [splitBlanks, if_pos hc]
    split
    · next hd => exact ih hd
    · exact Nat.succ_le_succ (List.length_pos_of_ne_nil (splitBlanks_ne_nil _))

theorem splitBlanks_eq_blank {t : Text} (h : splitBlanks t = [[]]) : t = [] := by
  cases t with
  | nil => rfl
  | cons c t =>
    cases hc : isSpace c with
    | true =>
      have hlength := two_le_length_splitBlanks hc t
      rw [h] at hlength
      exact absurd hlength (by decide)
    | false =>
      rw [splitBlanks, if_neg (by rw [hc]; exact Bool.false_ne_true)] at h
      exact absurd (List.cons.inj h).1 (List.cons_ne_nil _ _)

/-- Names joined with single blanks: what is read back. -/
theorem splitBlanks_intercalate {ws : List Text} (hne : ws ≠ [])
    (hws : ∀ w ∈ ws, ∀ c ∈ w, isSpace c = false) :
    ([] ∉ ws.tail.dropLast → splitBlanks ([' '].intercalate ws) = ws) ∧
      ([] ∈ ws.tail.dropLast → (splitBlanks ([' '].intercalate ws)).length < ws.length) := by
  induction ws with
  | nil => exact absurd rfl hne
  | cons w ws ih =>
    have hw := hws w List.mem_cons_self
    cases ws with
    | nil =>
      refine ⟨fun _ => ?_, fun h => absurd h List.not_mem_nil⟩
      rw [List.intercalate_singleton]
      exact splitBlanks_of_no_space hw
    | cons v vs =>
      obtain ⟨hgood, hbad⟩ :=
        ih (List.cons_ne_nil _ _) fun x hx => hws x (List.mem_cons_of_mem _ hx)
      have hlength : (splitBlanks ([' '].intercalate (v :: vs))).length ≤ (v :: vs).length := by
        rcases Decidable.em ([] ∈ (v :: vs).tail.dropLast) with h | h
        · exact Nat.le_of_lt (hbad h)
        · rw [hgood h]
      have hjoin : [' '].intercalate (w :: v :: vs) = w ++ ' ' :: [' '].intercalate (v :: vs) := by
        rw [List.intercalate_cons_cons]
        simp
      generalize hrest : [' '].intercalate (v :: vs) = rest at *
      rw [hjoin, splitBlanks_append hw, splitBlanks, if_pos (by decide), List.tail_cons]
      -- two blanks in a row are read as one
      rcases Decidable.em (v = [] ∧ vs ≠ []) with ⟨rfl, hvs⟩ | hv
      · obtain ⟨u, us, rfl⟩ := List.exists_cons_of_ne_nil hvs
        have hblank : rest.head?.any isSpace = true := by
          rw [← hrest, List.intercalate_cons_cons]
          rfl
        rw [if_pos hblank]
        refine ⟨fun h => ?_, fun _ => ?_⟩
        · rw [List.dropLast_cons_cons] at h
          exact absurd List.mem_cons_self h
        · have hpos := List.length_pos_of_ne_nil (splitBlanks_ne_nil rest)
          rw [List.length_cons, List.length_tail, List.length_cons]
          omega
      · have hvisible : rest.head?.any isSpace = false := by
          rw [← hrest]
          cases v with
          | nil =>
            have hvs : vs = [] := Decidable.byContradiction fun h => hv ⟨rfl, h⟩
            rw [hvs]
            rfl
          | cons d v =>
            have hd := hws (d :: v) (List.mem_cons_of_mem _ List.mem_cons_self) d List.mem_cons_self
            cases vs with
            | nil => exact hd
            | cons u us =>
              rw [List.intercalate_cons_cons]
              exact hd
        have hinner : [] ∈ (v :: vs).dropLast ↔ [] ∈ vs.dropLast := by
          cases vs with
          | nil => rfl
          | cons u us =>
            have hvne : [] ≠ v := fun h => hv ⟨h.symm, List.cons_ne_nil _ _⟩
            rw [List.dropLast_cons_cons, List.mem_cons, or_iff_right hvne]
        rw [if_neg (by rw [hvisible]; exact Bool.false_ne_true), List.headD_cons, List.append_nil,
          List.tail_cons, hinner]
        refine ⟨fun h => ?_, fun h => ?_⟩
        · rw [hgood h]
        · exact Nat.succ_lt_succ (hbad h)

theorem splitBlanks_intercalate_iff {ws : List Text} (hne : ws ≠ [])
    (hws : ∀ w ∈ ws, ∀ c ∈ w, isSpace c = false) :
    splitBlanks ([' '].intercalate ws) = ws ↔ [] ∉ ws.tail.dropLast := by
  obtain ⟨hgood, hbad⟩ := splitBlanks_intercalate hne hws
  refine ⟨fun h hmem => ?_, hgood⟩
  have hlt := hbad hmem
  rw [h] at hlt
  exact Nat.lt_irrefl _ hlt

end Text
