import DebianKernel.FwConfig.Menu

/-!
# The tree of menus

`menu_finalize` of `carl9170fw/config/menu.c`. It takes a menu and the entries behind it. A menu
with entries passes its condition on and finalizes them one after the other. A symbol without
entries takes in those behind it that `nests` allows, and each of them is finalized first and may
take in others itself. At last, the entries of entries without a prompt move up.

The calls are bounded by the number of entries, which is no restriction. As in the loop, no two
properties share a condition in memory.

Results:
* `menuFinalize_spec`: the call ends, and every entry is in the result once, in the order of the
  file,
* `menuFinalize_all`: what a menu hands down and choice values keep holds of every entry,
* `menuFinalize_plain`: so every condition of the result has negations before symbols only.
-/

namespace DebianKernel.FwConfig

variable {σ : Type}

/-- `struct menu` with its `list`. -/
inductive Menu (σ : Type) where
  | node (entry : Entry σ) (list : List (Menu σ))

namespace Menu

def entry : Menu σ → Entry σ
  | node e _ => e

def list : Menu σ → List (Menu σ)
  | node _ l => l

mutual

/-- The entries of a menu in the order of the file, by their line numbers. -/
def lines : Menu σ → List Nat
  | node e l => e.lineno :: linesOf l

def linesOf : List (Menu σ) → List Nat
  | [] => []
  | m :: ms => m.lines ++ linesOf ms

end

mutual

/-- No entry without a prompt has entries. -/
def Flat : Menu σ → Prop
  | node _ l => FlatList l

def FlatList : List (Menu σ) → Prop
  | [] => True
  | m :: ms => (m.list = [] ∨ m.entry.prompt ≠ none) ∧ m.Flat ∧ FlatList ms

end

mutual

/-- Every entry of the menu satisfies `P`. -/
def All (P : Entry σ → Prop) : Menu σ → Prop
  | node e l => P e ∧ AllOf P l

def AllOf (P : Entry σ → Prop) : List (Menu σ) → Prop
  | [] => True
  | m :: ms => m.All P ∧ AllOf P ms

end

theorem allOf_iff {P : Entry σ → Prop} {l : List (Menu σ)} : AllOf P l ↔ ∀ m ∈ l, m.All P := by
  induction l with
  | nil => simp [AllOf]
  | cons m ms ih => simp [AllOf, ih]

theorem all_iff {P : Entry σ → Prop} {m : Menu σ} : m.All P ↔ P m.entry ∧ AllOf P m.list := by
  cases m
  rw [All]
  rfl

theorem linesOf_append (a b : List (Menu σ)) : linesOf (a ++ b) = linesOf a ++ linesOf b := by
  induction a with
  | nil => simp [linesOf]
  | cons m ms ih => simp [linesOf, ih]

theorem lines_eq (m : Menu σ) : m.lines = m.entry.lineno :: linesOf m.list := by
  cases m
  rw [lines]
  rfl

theorem lines_length_pos (m : Menu σ) : 0 < m.lines.length := by
  rw [lines_eq]
  exact Nat.succ_pos _

theorem linesOf_cons_pos (m : Menu σ) (l : List (Menu σ)) : 0 < (linesOf (m :: l)).length := by
  rw [linesOf, List.length_append]
  exact Nat.add_pos_left m.lines_length_pos _

/-- What stays behind a menu is less than the menu and what stood behind it. -/
theorem linesOf_rest_lt {m m' : Menu σ} {l l' : List (Menu σ)}
    (h : m'.lines ++ linesOf l' = m.lines ++ linesOf l) :
    (linesOf l').length < (linesOf (m :: l)).length := by
  rw [linesOf, ← h, List.length_append]
  exact Nat.lt_add_of_pos_left m'.lines_length_pos

theorem flatList_iff {l : List (Menu σ)} :
    FlatList l ↔ ∀ m ∈ l, (m.list = [] ∨ m.entry.prompt ≠ none) ∧ m.Flat := by
  induction l with
  | nil => simp [FlatList]
  | cons m ms ih => simp [FlatList, ih, and_assoc]

theorem flat_iff {m : Menu σ} : m.Flat ↔ FlatList m.list := by
  cases m
  rw [Flat]
  rfl

end Menu

open Menu

variable [DecidableEq σ]

/-- `prompt->visible.expr`, where there is a prompt. -/
def Entry.promptVisible (e : Entry σ) : Option (Option (Expr σ)) :=
  (e.prompt.bind fun i => e.props[i]?).map Property.visible

/-- What the parser sets in the flags of a symbol: `SYMBOL_CHOICE` and `SYMBOL_OPTIONAL`. -/
structure Flags (σ : Type) where
  choice : Symbol σ → Bool
  optional : Symbol σ → Bool

/-- What `menu_finalize` writes to symbols: `type`, `rev_dep`, `dir_dep`, `SYMBOL_CHOICEVAL`, and
the values of a choice. -/
structure Syms (σ : Type) where
  decls : Decls σ
  rev : RevDep σ
  dir : RevDep σ
  choiceval : Symbol σ → Bool
  choices : Symbol σ → List (Symbol σ)

/-- `menu_set_type`, for a symbol of the table. -/
def Syms.setType (s : Syms σ) (sym : Symbol σ) (type : SymbolType) : Syms σ :=
  match sym with
  | .entry a =>
    if s.decls.type a = .unknown then
      { s with decls := { s.decls with type := Function.update s.decls.type a type } }
    else s
  | _ => s

/-- The type of a choice is that of its first value with a type, and values without one get it. -/
def Syms.setChoiceTypes (s : Syms σ) (sym : Symbol σ) (list : List (Menu σ)) : Syms σ :=
  let values := list.filterMap fun menu => menu.entry.sym
  let s :=
    if sym.type s.decls = .unknown then
      match values.find? fun v => v.type s.decls ≠ .unknown with
      | some v => s.setType sym (v.type s.decls)
      | none => s
    else s
  values.foldl (fun s v => s.setType v (sym.type s.decls)) s

section Finalize

variable (F : Flags σ)

/-- The condition that a menu passes on to its entries. -/
def parentDep (e : Entry σ) : Option (Expr σ) :=
  match e.sym with
  | some sym => if F.choice sym then some (.symbol sym) else (e.promptVisible).getD e.dep
  | none => (e.promptVisible).getD e.dep

/-- What becomes of a value of the choice `sym`. Unless both are tristate, it depends on `sym = y`
if the choice is. -/
def choiceValue (sym : Symbol σ) (e : Entry σ) (s : Syms σ) : Entry σ × Syms σ :=
  match e.sym with
  | none => (e, s)
  | some v =>
    if s.choiceval v then (e, s)
    else
      let basedep := some (Expr.comp .equal sym .yes)
      let e :=
        if sym.type s.decls = .tristate ∧ v.type s.decls ≠ .tristate then
          { e with
            dep := exprAllocAnd basedep e.dep
            props := e.props.map fun p => { p with visible := exprAllocAnd basedep p.visible } }
        else e
      -- the property `P_CHOICE` of the value
      ({ e with props := e.props ++ [⟨none, none⟩] },
        { s with
          choiceval := Function.update s.choiceval v true
          choices := Function.update s.choices sym (s.choices sym ++ [v]) })

/-- `choiceValue`, in a choice. -/
def liftEntry (sym : Option (Symbol σ)) (e : Entry σ) (s : Syms σ) : Entry σ × Syms σ :=
  match sym with
  | some sym => if F.choice sym then choiceValue sym e s else (e, s)
  | none => (e, s)

/-- The last loop over the entries of a menu: choice values, and menus without a prompt. -/
def liftLoop (sym : Option (Symbol σ)) :
    Nat → List (Menu σ) → Syms σ → Option (List (Menu σ) × Syms σ)
  | _, [], s => some ([], s)
  | 0, _ :: _, _ => none
  | n + 1, menu :: rest, s =>
    let p := liftEntry F sym menu.entry s
    if menu.list ≠ [] ∧ p.1.prompt = none then
      (liftLoop sym n (menu.list ++ rest) p.2).map fun r => (.node p.1 [] :: r.1, r.2)
    else (liftLoop sym n rest p.2).map fun r => (.node p.1 menu.list :: r.1, r.2)

/-- A call on a menu and what stands behind it. -/
abbrev Call (σ : Type) := Menu σ → List (Menu σ) → Syms σ → Option (Menu σ × List (Menu σ) × Syms σ)

/-- `menu_finalize` for the entries of a menu, each of which may take in those behind it. -/
def finalizeEach (call : Call σ) :
    Nat → List (Menu σ) → Syms σ → Option (List (Menu σ) × Syms σ)
  | _, [], s => some ([], s)
  | 0, _ :: _, _ => none
  | n + 1, menu :: rest, s => do
    let c ← call menu rest s
    let r ← finalizeEach call n c.2.1 c.2.2
    some (c.1 :: r.1, r.2)

/-- The loop that moves entries below `sym`: those that move, and those that stay. -/
def nestLoop (call : Call σ) (sym : Symbol σ) (basedep : Option (Expr σ)) :
    Nat → List (Menu σ) → Syms σ → Option (List (Menu σ) × List (Menu σ) × Syms σ)
  | _, [], s => some ([], [], s)
  | 0, _ :: _, _ => none
  | n + 1, menu :: rest, s =>
    if nests s.decls sym basedep ((menu.entry.promptVisible).getD menu.entry.dep) then do
      let c ← call menu rest s
      let r ← nestLoop call sym basedep n c.2.1 c.2.2
      some (c.1 :: r.1, r.2)
    else some ([], menu :: rest, s)

/-- The entries of a menu with the condition of the menu. -/
def passDown (parentdep : Option (Expr σ)) (list : List (Menu σ)) (s : Syms σ) :
    List (Menu σ) × Syms σ :=
  let r := finalizeList s.decls parentdep (list.map entry) s.rev
  (List.zipWith node r.1 (list.map Menu.list), { s with rev := r.2 })

/-- A choice that is not optional is selected as `m` where it shows. -/
def selectPrompt (e : Entry σ) (s : Syms σ) : Syms σ :=
  match e.sym, e.promptVisible with
  | some sym, some visible =>
    if F.optional sym then s
    else
      let rev := exprAllocOr (s.rev sym) (exprAllocAnd visible (some (.symbol .mod)))
      { s with rev := Function.update s.rev sym rev }
  | _, _ => s

/-- The first part of `menu_finalize`: the entries of the menu, those that stand behind it then, and
the symbols. -/
def finalizeEntries (call : Call σ) (n : Nat) (e : Entry σ) (list next : List (Menu σ))
    (s : Syms σ) : Option (List (Menu σ) × List (Menu σ) × Syms σ) :=
  match list, e.sym with
  | [], none => some ([], next, s)
  | [], some sym => do
    let basedep := testShown s.decls ((e.promptVisible).getD none)
    let r ← nestLoop call sym basedep n next s
    let dir := exprAllocOr (r.2.2.dir sym) e.dep
    some (r.1, r.2.1, { r.2.2 with dir := Function.update r.2.2.dir sym dir })
  | menu :: list, sym => do
    let s :=
      match sym with
      | some sym => if F.choice sym then s.setChoiceTypes sym (menu :: list) else s
      | none => s
    let p := passDown (parentDep F e) (menu :: list) s
    let r ← finalizeEach call n p.1 p.2
    some (r.1, next, r.2)

/-- `menu_finalize` of a menu and the entries behind it. -/
def menuFinalize : Nat → Call σ
  | 0, _, _, _ => none
  | n + 1, .node e list, next, s => do
    let r ← finalizeEntries F (menuFinalize n) n e list next s
    let l ← liftLoop F e.sym n r.1 r.2.2
    some (.node e l.1, r.2.1, selectPrompt F e l.2)

end Finalize

/-! ## Every entry once -/

variable {F : Flags σ}

theorem passDown_eq (parentdep : Option (Expr σ)) (list : List (Menu σ)) (s : Syms σ) :
    (passDown parentdep list s).1 =
      list.map fun m => node (finalizeEntry s.decls parentdep m.entry) m.list := by
  rw [passDown, finalizeList_fst]
  induction list with
  | nil => rfl
  | cons m list ih => exact congrArg (_ :: ·) ih

theorem linesOf_passDown (parentdep : Option (Expr σ)) (list : List (Menu σ)) (s : Syms σ) :
    linesOf (passDown parentdep list s).1 = linesOf list := by
  rw [passDown_eq]
  induction list with
  | nil => rfl
  | cons m list ih =>
    rw [List.map_cons, linesOf, linesOf, ih, lines_eq, lines_eq m]
    rfl

theorem choiceValue_lineno (sym : Symbol σ) (e : Entry σ) (s : Syms σ) :
    (choiceValue sym e s).1.lineno = e.lineno := by
  unfold choiceValue
  split
  next => rfl
  next =>
    split
    next => rfl
    next =>
      dsimp only
      split <;> rfl

theorem liftEntry_lineno (sym : Option (Symbol σ)) (e : Entry σ) (s : Syms σ) :
    (liftEntry F sym e s).1.lineno = e.lineno := by
  unfold liftEntry
  split
  next sym =>
    split
    next => exact choiceValue_lineno sym e s
    next => rfl
  next => rfl

theorem liftLoop_cons (sym : Option (Symbol σ)) (n : Nat) (menu : Menu σ) (rest : List (Menu σ))
    (s : Syms σ) :
    liftLoop F sym (n + 1) (menu :: rest) s =
      let p := liftEntry F sym menu.entry s
      if menu.list ≠ [] ∧ p.1.prompt = none then
        (liftLoop F sym n (menu.list ++ rest) p.2).map fun r => (.node p.1 [] :: r.1, r.2)
      else (liftLoop F sym n rest p.2).map fun r => (.node p.1 menu.list :: r.1, r.2) := rfl

/-- Entries of entries without a prompt move up, in their place. -/
theorem liftLoop_spec (sym : Option (Symbol σ)) {n : Nat} {list : List (Menu σ)} (s : Syms σ)
    (hn : (linesOf list).length ≤ n) (hflat : ∀ m ∈ list, m.Flat) :
    ∃ list' s', liftLoop F sym n list s = some (list', s') ∧ linesOf list' = linesOf list ∧
      FlatList list' := by
  induction n generalizing list s with
  | zero =>
    cases list with
    | nil => exact ⟨[], s, by rw [liftLoop], rfl, trivial⟩
    | cons m rest =>
      exact absurd hn (Nat.not_le_of_lt (linesOf_cons_pos m rest))
  | succ n ih =>
    cases list with
    | nil => exact ⟨[], s, by rw [liftLoop], rfl, trivial⟩
    | cons m rest =>
      have hline := liftEntry_lineno (F := F) sym m.entry s
      rw [linesOf, lines_eq, List.length_append, List.length_cons] at hn
      have hm : m.Flat := hflat m List.mem_cons_self
      have hrest : ∀ x ∈ rest, x.Flat := fun x hx => hflat x (List.mem_cons_of_mem _ hx)
      rw [liftLoop_cons]
      generalize liftEntry F sym m.entry s = p at hline ⊢
      obtain ⟨e, s1⟩ := p
      change e.lineno = m.entry.lineno at hline
      by_cases hlift : m.list ≠ [] ∧ e.prompt = none
      · have hlist : ∀ x ∈ m.list ++ rest, x.Flat := by
          intro x hx
          rcases List.mem_append.mp hx with hx | hx
          · exact (flatList_iff.mp (flat_iff.mp hm) x hx).2
          · exact hrest x hx
        obtain ⟨l', s', hl, hlines, hfl⟩ := ih s1
          (by rw [linesOf_append, List.length_append]; omega) hlist
        refine ⟨node e [] :: l', s', ?_, ?_, .inl rfl, trivial, hfl⟩
        · exact (if_pos hlift).trans (by rw [hl]; rfl)
        rw [linesOf, hlines, linesOf_append, lines_eq, linesOf, lines_eq m]
        change e.lineno :: linesOf [] ++ _ = _
        rw [hline, linesOf]
        simp
      · obtain ⟨l', s', hl, hlines, hfl⟩ := ih s1 (by omega) hrest
        have hown : (node e m.list).list = [] ∨ (node e m.list).entry.prompt ≠ none := by
          by_cases hl : m.list = []
          · exact .inl hl
          · exact .inr fun hp => hlift ⟨hl, hp⟩
        refine ⟨node e m.list :: l', s', (if_neg hlift).trans (by rw [hl]; rfl), ?_, hown,
          flat_iff.mpr (show FlatList m.list from flat_iff.mp hm), hfl⟩
        rw [linesOf, hlines, lines_eq, linesOf, lines_eq m]
        change e.lineno :: linesOf m.list ++ _ = _
        rw [hline]

/-- A call on up to `n` entries ends, with each of them once and in order. -/
def CallOk (call : Call σ) (n : Nat) : Prop :=
  ∀ m next s, (m.lines ++ linesOf next).length ≤ n →
    ∃ m' next' s', call m next s = some (m', next', s') ∧ m'.Flat ∧ m'.entry = m.entry ∧
      next' <:+ next ∧ m'.lines ++ linesOf next' = m.lines ++ linesOf next

omit [DecidableEq σ] in
theorem finalizeEach_spec {call : Call σ} {n : Nat} (hcall : CallOk call n) {k : Nat}
    {list : List (Menu σ)} (s : Syms σ) (hk : (linesOf list).length ≤ k)
    (hn : (linesOf list).length ≤ n) :
    ∃ list' s', finalizeEach call k list s = some (list', s') ∧ linesOf list' = linesOf list ∧
      ∀ m ∈ list', m.Flat := by
  induction k generalizing list s with
  | zero =>
    cases list with
    | nil => exact ⟨[], s, by rw [finalizeEach], rfl, by simp⟩
    | cons m rest =>
      exact absurd hk (Nat.not_le_of_lt (linesOf_cons_pos m rest))
  | succ k ih =>
    cases list with
    | nil => exact ⟨[], s, by rw [finalizeEach], rfl, by simp⟩
    | cons m rest =>
      obtain ⟨m', rest', s1, hc, hflat, -, -, hlines⟩ := hcall m rest s hn
      have hlt := linesOf_rest_lt hlines
      have hk' : (linesOf rest').length ≤ k := Nat.le_of_lt_succ (hlt.trans_le hk)
      have hn' : (linesOf rest').length ≤ n := hlt.le.trans hn
      obtain ⟨l', s', hl, hlines', hfl⟩ := ih s1 hk' hn'
      refine ⟨m' :: l', s', ?_, ?_, ?_⟩
      · rw [finalizeEach, hc]
        simp only [Option.bind_eq_bind, Option.bind_some, hl]
      · rw [linesOf, hlines', hlines, linesOf]
      · intro x hx
        rcases List.mem_cons.mp hx with rfl | hx
        · exact hflat
        · exact hfl x hx

theorem nestLoop_spec {call : Call σ} {n : Nat} (hcall : CallOk call n) (sym : Symbol σ)
    (basedep : Option (Expr σ)) {k : Nat} {list : List (Menu σ)} (s : Syms σ)
    (hk : (linesOf list).length ≤ k) (hn : (linesOf list).length ≤ n) :
    ∃ nested rest s', nestLoop call sym basedep k list s = some (nested, rest, s') ∧
      rest <:+ list ∧ linesOf nested ++ linesOf rest = linesOf list ∧ ∀ m ∈ nested, m.Flat := by
  induction k generalizing list s with
  | zero =>
    cases list with
    | nil => exact ⟨[], [], s, by rw [nestLoop], List.suffix_refl _, rfl, by simp⟩
    | cons m rest =>
      exact absurd hk (Nat.not_le_of_lt (linesOf_cons_pos m rest))
  | succ k ih =>
    cases list with
    | nil => exact ⟨[], [], s, by rw [nestLoop], List.suffix_refl _, rfl, by simp⟩
    | cons m rest =>
      rw [nestLoop]
      split
      next =>
        obtain ⟨m', rest', s1, hc, hflat, -, hsuff, hlines⟩ := hcall m rest s hn
        have hlt := linesOf_rest_lt hlines
        have hk' : (linesOf rest').length ≤ k := Nat.le_of_lt_succ (hlt.trans_le hk)
        have hn' : (linesOf rest').length ≤ n := hlt.le.trans hn
        obtain ⟨nested, stay, s', hl, hstay, hlines', hfl⟩ := ih s1 hk' hn'
        refine ⟨m' :: nested, stay, s', ?_,
          hstay.trans (hsuff.trans (List.suffix_cons m rest)), ?_, ?_⟩
        · rw [hc]
          simp only [Option.bind_eq_bind, Option.bind_some, hl]
        · rw [linesOf, List.append_assoc, hlines', hlines, linesOf]
        · intro x hx
          rcases List.mem_cons.mp hx with rfl | hx
          · exact hflat
          · exact hfl x hx
      next => exact ⟨[], m :: rest, s, rfl, List.suffix_refl _, rfl, by simp⟩

theorem finalizeEntries_spec {call : Call σ} {n : Nat} (hcall : CallOk call n) (e : Entry σ)
    (list next : List (Menu σ)) (s : Syms σ)
    (hn : (linesOf list).length + (linesOf next).length ≤ n) :
    ∃ list' next' s', finalizeEntries F call n e list next s = some (list', next', s') ∧
      next' <:+ next ∧ linesOf list' ++ linesOf next' = linesOf list ++ linesOf next ∧
      ∀ m ∈ list', m.Flat := by
  cases list with
  | nil =>
    unfold finalizeEntries
    cases e.sym with
    | none => exact ⟨[], next, s, rfl, List.suffix_refl _, rfl, by simp⟩
    | some sym =>
      have hnext : (linesOf next).length ≤ n := by omega
      obtain ⟨nested, rest, s', hl, hsuff, hlines, hfl⟩ := nestLoop_spec hcall sym
        (testShown s.decls ((e.promptVisible).getD none)) s hnext hnext
      let dir := exprAllocOr (s'.dir sym) e.dep
      refine ⟨nested, rest, { s' with dir := Function.update s'.dir sym dir }, ?_, hsuff, hlines,
        hfl⟩
      simp only [hl, Option.bind_eq_bind, Option.bind_some]
      rfl
  | cons c cs =>
    rw [finalizeEntries]
    generalize (match e.sym with
      | some sym => if F.choice sym then s.setChoiceTypes sym (c :: cs) else s
      | none => s) = s0
    have hpass := linesOf_passDown (parentDep F e) (c :: cs) s0
    have hlist : (linesOf (passDown (parentDep F e) (c :: cs) s0).1).length ≤ n := by
      rw [hpass]
      omega
    obtain ⟨l', s', hl, hlines, hfl⟩ := finalizeEach_spec hcall
      (passDown (parentDep F e) (c :: cs) s0).2 hlist hlist
    refine ⟨l', next, s', ?_, List.suffix_refl _, by rw [hlines, hpass], hfl⟩
    simp only [hl, Option.bind_eq_bind, Option.bind_some]

theorem menuFinalize_callOk (F : Flags σ) (n : Nat) : CallOk (menuFinalize F n) n := by
  induction n with
  | zero =>
    intro m next s hn
    rw [List.length_append] at hn
    exact absurd (m.lines_length_pos) (by omega)
  | succ n ih =>
    intro m next s hn
    obtain ⟨e, list⟩ := m
    rw [lines_eq, List.length_append, List.length_cons] at hn
    change (linesOf list).length + 1 + (linesOf next).length ≤ n + 1 at hn
    obtain ⟨list1, next', s1, hfirst, hsuff, hlines, hflat⟩ :=
      finalizeEntries_spec (F := F) ih e list next s (by omega)
    have hlen : (linesOf list1).length ≤ n := by
      have := congrArg List.length hlines
      rw [List.length_append, List.length_append] at this
      omega
    obtain ⟨list2, s2, hlift, hlines2, hflat2⟩ := liftLoop_spec (F := F) e.sym s1 hlen hflat
    refine ⟨node e list2, next', selectPrompt F e s2, ?_, flat_iff.mpr hflat2, rfl, hsuff, ?_⟩
    · rw [menuFinalize, hfirst]
      simp only [Option.bind_eq_bind, Option.bind_some, hlift]
    · rw [lines_eq, lines_eq]
      change e.lineno :: linesOf list2 ++ linesOf next' = e.lineno :: linesOf list ++ linesOf next
      rw [hlines2, List.cons_append, List.cons_append, hlines]

/-- `menu_finalize` of the tree that the parser leaves ends, and in the result every entry is once,
in the order of the file, and none without a prompt has entries. -/
theorem menuFinalize_spec (F : Flags σ) (rootmenu : Menu σ) (s : Syms σ) :
    ∃ menu s', menuFinalize F rootmenu.lines.length rootmenu [] s = some (menu, [], s') ∧
      menu.lines = rootmenu.lines ∧ menu.entry = rootmenu.entry ∧ menu.Flat := by
  obtain ⟨menu, next, s', hcall, hflat, hentry, hsuff, hlines⟩ :=
    menuFinalize_callOk F rootmenu.lines.length rootmenu [] s (by simp [linesOf])
  obtain rfl := List.suffix_nil.mp hsuff
  exact ⟨menu, s', hcall, List.append_cancel_right hlines, hentry, hflat⟩

/-- `FOO`, and behind it `BAR`, whose prompt asks for `FOO`. -/
example :
    let prompt : Option (Expr Bool) → List (Property Bool) := fun visible => [⟨none, visible⟩]
    let foo : Menu Bool := .node ⟨1, some (.entry true), some 0, none, prompt none⟩ []
    let bar : Menu Bool := .node
      ⟨2, some (.entry false), some 0, none, prompt (some (.symbol (.entry true)))⟩ []
    let syms : Syms Bool :=
      ⟨fooBar, fun _ => none, fun _ => none, fun _ => false, fun _ => []⟩
    (menuFinalize ⟨fun _ => false, fun _ => true⟩ 3
        (.node ⟨0, none, none, none, []⟩ [foo, bar]) [] syms).map
      (fun r => r.1.list.map fun m => (m.entry.lineno, linesOf m.list)) = some [(1, [2])] := by
  decide +kernel

/-! ## What holds of every entry -/

section Entries

/-- What `passDown` establishes for the entries of a menu with it, and choice values keep. -/
structure Inherited (F : Flags σ) (P : Entry σ → Prop) : Prop where
  pass : ∀ D e menu, P e → P (finalizeEntry D (parentDep F e) menu)
  value : ∀ sym e s, P e → P (choiceValue sym e s).1

variable {P : Entry σ → Prop}

/-- A call keeps `P` for the entries behind the menu and gives it to all that are in the menu. -/
def CallAll (P : Entry σ → Prop) (call : Call σ) : Prop :=
  ∀ m next s m' next' s', P m.entry → (∀ x ∈ next, P x.entry) →
    call m next s = some (m', next', s') → m'.All P ∧ ∀ x ∈ next', P x.entry

theorem liftEntry_all (h : Inherited F P) (sym : Option (Symbol σ)) {e : Entry σ} (he : P e)
    (s : Syms σ) : P (liftEntry F sym e s).1 := by
  unfold liftEntry
  split
  next sym =>
    split
    next => exact h.value sym e s he
    next => exact he
  next => exact he

theorem liftLoop_all (h : Inherited F P) (sym : Option (Symbol σ)) {n : Nat}
    {list list' : List (Menu σ)} {s s' : Syms σ} (hlist : ∀ m ∈ list, m.All P)
    (hl : liftLoop F sym n list s = some (list', s')) : AllOf P list' := by
  induction n generalizing list list' s with
  | zero =>
    cases list with
    | nil =>
      rw [liftLoop] at hl
      cases hl
      trivial
    | cons m rest => cases hl
  | succ n ih =>
    cases list with
    | nil =>
      rw [liftLoop] at hl
      cases hl
      trivial
    | cons m rest =>
      rw [liftLoop_cons] at hl
      have hm := all_iff.mp (hlist m List.mem_cons_self)
      have hrest : ∀ x ∈ rest, x.All P := fun x hx => hlist x (List.mem_cons_of_mem _ hx)
      have he := liftEntry_all h sym hm.1 s
      dsimp only at hl
      split at hl
      next =>
        obtain ⟨r, hr, heq⟩ := Option.map_eq_some_iff.mp hl
        cases heq
        refine ⟨⟨he, trivial⟩, ih (fun x hx => ?_) hr⟩
        rcases List.mem_append.mp hx with hx | hx
        · exact allOf_iff.mp hm.2 x hx
        · exact hrest x hx
      next =>
        obtain ⟨r, hr, heq⟩ := Option.map_eq_some_iff.mp hl
        cases heq
        exact ⟨⟨he, hm.2⟩, ih hrest hr⟩

omit [DecidableEq σ] in
theorem finalizeEach_all {call : Call σ} (hcall : CallAll P call) {k : Nat}
    {list list' : List (Menu σ)} {s s' : Syms σ} (hlist : ∀ m ∈ list, P m.entry)
    (hl : finalizeEach call k list s = some (list', s')) : ∀ m ∈ list', m.All P := by
  induction k generalizing list list' s with
  | zero =>
    cases list with
    | nil =>
      rw [finalizeEach] at hl
      cases hl
      simp
    | cons m rest => cases hl
  | succ k ih =>
    cases list with
    | nil =>
      rw [finalizeEach] at hl
      cases hl
      simp
    | cons m rest =>
      obtain ⟨c, hc, hl⟩ := Option.bind_eq_some_iff.mp hl
      obtain ⟨r, hr, heq⟩ := Option.bind_eq_some_iff.mp hl
      cases heq
      obtain ⟨hm, hrest⟩ := hcall m rest s c.1 c.2.1 c.2.2 (hlist m List.mem_cons_self)
        (fun x hx => hlist x (List.mem_cons_of_mem _ hx)) hc
      intro x hx
      rcases List.mem_cons.mp hx with rfl | hx
      · exact hm
      · exact ih hrest hr x hx

theorem nestLoop_all {call : Call σ} (hcall : CallAll P call) {sym : Symbol σ}
    {basedep : Option (Expr σ)} {k : Nat} {list nested rest : List (Menu σ)} {s s' : Syms σ}
    (hlist : ∀ m ∈ list, P m.entry)
    (hl : nestLoop call sym basedep k list s = some (nested, rest, s')) :
    (∀ m ∈ nested, m.All P) ∧ ∀ m ∈ rest, P m.entry := by
  induction k generalizing list nested s with
  | zero =>
    cases list with
    | nil =>
      rw [nestLoop] at hl
      cases hl
      simp
    | cons m l => cases hl
  | succ k ih =>
    cases list with
    | nil =>
      rw [nestLoop] at hl
      cases hl
      simp
    | cons m l =>
      rw [nestLoop] at hl
      split at hl
      next =>
        obtain ⟨c, hc, hl⟩ := Option.bind_eq_some_iff.mp hl
        obtain ⟨⟨_, _, _⟩, hr, heq⟩ := Option.bind_eq_some_iff.mp hl
        cases heq
        obtain ⟨hm, hrest⟩ := hcall m l s c.1 c.2.1 c.2.2 (hlist m List.mem_cons_self)
          (fun x hx => hlist x (List.mem_cons_of_mem _ hx)) hc
        obtain ⟨hnested, hstay⟩ := ih hrest hr
        refine ⟨fun x hx => ?_, hstay⟩
        rcases List.mem_cons.mp hx with rfl | hx
        · exact hm
        · exact hnested x hx
      next =>
        cases hl
        exact ⟨by simp, hlist⟩

theorem finalizeEntries_all (h : Inherited F P) {call : Call σ} (hcall : CallAll P call) {n : Nat}
    {e : Entry σ} {list next list' next' : List (Menu σ)} {s s' : Syms σ} (he : P e)
    (hnext : ∀ x ∈ next, P x.entry)
    (hl : finalizeEntries F call n e list next s = some (list', next', s')) :
    (∀ m ∈ list', m.All P) ∧ ∀ x ∈ next', P x.entry := by
  unfold finalizeEntries at hl
  split at hl
  next =>
    cases hl
    exact ⟨by simp, hnext⟩
  next =>
    obtain ⟨r, hr, heq⟩ := Option.bind_eq_some_iff.mp hl
    cases heq
    exact nestLoop_all hcall hnext hr
  next c cs sym =>
    obtain ⟨r, hr, heq⟩ := Option.bind_eq_some_iff.mp hl
    cases heq
    refine ⟨finalizeEach_all hcall (fun m hm => ?_) hr, hnext⟩
    rw [passDown_eq] at hm
    obtain ⟨x, -, rfl⟩ := List.mem_map.mp hm
    exact h.pass _ e x.entry he

theorem menuFinalize_all (h : Inherited F P) (n : Nat) : CallAll P (menuFinalize F n) := by
  induction n with
  | zero => intro m next s m' next' s' _ _ hl; cases hl
  | succ n ih =>
    intro m next s m' next' s' hm hnext hl
    obtain ⟨e, list⟩ := m
    rw [menuFinalize] at hl
    obtain ⟨r, hr, hl⟩ := Option.bind_eq_some_iff.mp hl
    obtain ⟨l, hlift, heq⟩ := Option.bind_eq_some_iff.mp hl
    cases heq
    obtain ⟨hlist, hstay⟩ := finalizeEntries_all h ih hm hnext hr
    exact ⟨⟨hm, liftLoop_all h e.sym hlist hlift⟩, hstay⟩

end Entries

/-- The conditions of an entry are of the kind that `finalizeList` asks of the one of a menu. -/
def Entry.Plain (e : Entry σ) : Prop :=
  FwConfig.Plain e.dep ∧ ∀ p ∈ e.props, FwConfig.Plain p.visible

omit [DecidableEq σ] in
theorem parentDep_plain {e : Entry σ} (h : e.Plain) : Plain (parentDep F e) := by
  have hprompt : Plain ((e.promptVisible).getD e.dep) := by
    unfold Entry.promptVisible
    cases e.prompt with
    | none => exact h.1
    | some i =>
      cases hp : e.props[i]? with
      | none => simpa [hp] using h.1
      | some p => simpa [hp] using h.2 p (List.mem_of_getElem? hp)
  unfold parentDep
  split
  next sym =>
    split
    next =>
      rintro x ⟨⟩
      trivial
    next => exact hprompt
  next => exact hprompt

theorem choiceValue_plain (sym : Symbol σ) {e : Entry σ} (s : Syms σ) (h : e.Plain) :
    (choiceValue sym e s).1.Plain := by
  have hbase : Plain (some (Expr.comp .equal sym .yes)) := by
    rintro x ⟨⟩
    trivial
  have hnone : Plain (none : Option (Expr σ)) := by
    rintro x ⟨⟩
  unfold choiceValue
  split
  next => exact h
  next =>
    split
    next => exact h
    next =>
      dsimp only
      split
      next =>
        refine ⟨hbase.exprAllocAnd h.1, fun p hp => ?_⟩
        rcases List.mem_append.mp hp with hp | hp
        · obtain ⟨q, hq, rfl⟩ := List.mem_map.mp hp
          exact hbase.exprAllocAnd (h.2 q hq)
        · rw [List.mem_singleton.mp hp]
          exact hnone
      next =>
        refine ⟨h.1, fun p hp => ?_⟩
        rcases List.mem_append.mp hp with hp | hp
        · exact h.2 p hp
        · rw [List.mem_singleton.mp hp]
          exact hnone

theorem inherited_plain (F : Flags σ) : Inherited F Entry.Plain where
  pass D e menu h := by
    have hdep := (finalizeDep_spec (D := D) (parentDep_plain (F := F) h) menu.dep).1
    refine ⟨hdep, fun p hp => ?_⟩
    obtain ⟨q, -, rfl⟩ := List.mem_map.mp hp
    exact finalizeProp_plain hdep menu.sym q
  value sym _ s h := choiceValue_plain sym s h

/-- From a root without conditions, as `rootmenu` is, `menu_finalize` comes to a tree whose
conditions all have negations before symbols only. Every call in between meets the condition of
`finalizeList_visible`. -/
theorem menuFinalize_plain (F : Flags σ) (rootmenu : Menu σ) (s : Syms σ) :
    ∃ menu s', menuFinalize F rootmenu.lines.length rootmenu [] s = some (menu, [], s') ∧
      (rootmenu.entry.Plain → menu.All Entry.Plain) := by
  obtain ⟨menu, next, s', hcall, -, -, hsuff, -⟩ :=
    menuFinalize_callOk F rootmenu.lines.length rootmenu [] s (by simp [linesOf])
  obtain rfl := List.suffix_nil.mp hsuff
  exact ⟨menu, s', hcall, fun hroot =>
    (menuFinalize_all (inherited_plain F) _ _ _ _ _ _ _ hroot (by simp) hcall).1⟩

end DebianKernel.FwConfig
