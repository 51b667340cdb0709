import DebianKernel.FwConfig.Compare
import Mathlib.Data.List.Forall2
import Mathlib.Logic.Function.Basic

/-!
# Conditions in a menu

What `menu_finalize` of `carl9170fw/config/menu.c` does with conditions: it passes the condition of
a menu on to its entries and their properties, collects what selects a symbol, and decides which of
the entries behind a symbol without entries of its own become entries of it.

A condition is a value: no two properties share one in memory. The prompts below a menu with
`visible if` do, since `menu_add_prop` joins one tree into all of them, and are left out.

Results:
* `finalizeList_visible`: a property shows only where the menu, the entry and the property itself
  allow it, and it does where all three are `y`,
* `finalizeList_rev`: `rev_dep` of a symbol has the value of everything that selects it,
* `nests_visible`: an entry that moves below a symbol shows only where the symbol is set or shows.
-/

namespace DebianKernel.FwConfig

open Tristate

variable {σ : Type} [DecidableEq σ]

/-- `struct property`: its condition, which it shares with no other, and the symbol of a
`P_SELECT`. -/
structure Property (σ : Type) where
  select : Option (Symbol σ)
  visible : Option (Expr σ)

/-- `struct menu`, with the properties of its symbol that belong to it, and its prompt only where it
has no symbol. `prompt` is one of them, by its place. -/
structure Entry (σ : Type) where
  lineno : Nat
  sym : Option (Symbol σ)
  prompt : Option Nat
  dep : Option (Expr σ)
  props : List (Property σ)

/-- `rev_dep.expr` of all symbols. -/
abbrev RevDep (σ : Type) := Symbol σ → Option (Expr σ)

section Finalize

variable (D : Decls σ)

/-- `expr_transform`, `expr_alloc_and` and `expr_eliminate_dups`: a condition under another one. -/
def finalizeDep (parentdep dep : Option (Expr σ)) : Option (Expr σ) :=
  (exprAllocAnd parentdep (dep.map (exprTransform D))).map (exprEliminateDups D)

/-- The condition of a property: `basedep` and its own, tested for `n` only unless the symbol is
tristate. -/
def finalizeProp (sym : Option (Symbol σ)) (basedep : Option (Expr σ)) (prop : Property σ) :
    Property σ :=
  let dep := finalizeDep D basedep prop.visible
  let dep :=
    match sym with
    | some sym => if sym.type D ≠ .tristate then dep.map (exprTransBool D) else dep
    | none => dep
  { prop with visible := dep }

/-- What a `P_SELECT` adds to `rev_dep` of its symbol. -/
def addSelect (sym : Option (Symbol σ)) (prop : Property σ) (rev : RevDep σ) :
    RevDep σ :=
  match prop.select, sym with
  | some es, some sym =>
    Function.update rev es
      (exprAllocOr (rev es) (exprAllocAnd (some (.symbol sym)) prop.visible))
  | _, _ => rev

/-- The loop over the properties of an entry. -/
def finalizeProps (sym : Option (Symbol σ)) (basedep : Option (Expr σ)) :
    List (Property σ) → RevDep σ → List (Property σ) × RevDep σ
  | [], rev => ([], rev)
  | prop :: props, rev =>
    let prop := finalizeProp D sym basedep prop
    let r := finalizeProps sym basedep props (addSelect sym prop rev)
    (prop :: r.1, r.2)

/-- The loop of `menu_finalize` over the entries of a menu with the condition `parentdep`. -/
def finalizeList (parentdep : Option (Expr σ)) :
    List (Entry σ) → RevDep σ → List (Entry σ) × RevDep σ
  | [], rev => ([], rev)
  | menu :: list, rev =>
    let basedep := finalizeDep D parentdep menu.dep
    let p := finalizeProps D menu.sym basedep menu.props rev
    let r := finalizeList parentdep list p.2
    ({ menu with dep := basedep, props := p.1 } :: r.1, r.2)

/-- The condition, compared with `n` by `!=` and simplified. -/
def testShown (e : Option (Expr σ)) : Option (Expr σ) :=
  let e :=
    match e with
    | none => some (Expr.not (.symbol .no))
    | some e => exprTransCompare e .unequal .no
  e.map fun e => exprEliminateDups D (exprTransform D e)

/-- Whether an entry with the condition `dep` behind the symbol `sym` becomes an entry of it, where
`basedep` is the test of the condition of its prompt. -/
def nests (sym : Symbol σ) (basedep dep : Option (Expr σ)) : Bool :=
  match dep with
  | none => false
  | some dep =>
    exprContainsSymbol sym dep &&
      (exprDependsSymbol sym dep ||
        match testShown D (some dep), basedep with
        | some dep, some dep2 => decide (exprIsYes (exprEliminateEq dep dep2).2)
        | _, _ => false)

end Finalize

variable {D : Decls σ} {V : Values σ}

/-! ## The conditions of the entries -/

/-- Negations stand before symbols only, where there is a condition. -/
def Plain (e : Option (Expr σ)) : Prop :=
  ∀ x ∈ e, NotSymbol x

omit [DecidableEq σ] in
@[simp] theorem exprCalcValue_exprAllocAnd (a b : Option (Expr σ)) :
    exprCalcValue D V (exprAllocAnd a b) = exprAnd (exprCalcValue D V a) (exprCalcValue D V b) := by
  cases a with
  | none => exact (@Junction.unit_value .and _).symm
  | some a =>
    cases b with
    | none => exact (@Junction.value_unit .and _).symm
    | some b => rfl

omit [DecidableEq σ] in
theorem Plain.exprAllocAnd {a b : Option (Expr σ)} (ha : Plain a) (hb : Plain b) :
    Plain (exprAllocAnd a b) := by
  cases a with
  | none => exact hb
  | some a =>
    cases b with
    | none => exact ha
    | some b =>
      rintro x ⟨⟩
      exact ⟨ha a rfl, hb b rfl⟩

/-- The condition under another one, after `expr_transform` and `expr_eliminate_dups`. -/
theorem finalizeDep_spec {parentdep : Option (Expr σ)} (hp : Plain parentdep)
    (dep : Option (Expr σ)) :
    Plain (finalizeDep D parentdep dep) ∧ ∀ V, Valid D V →
      Refines (exprAnd (exprCalcValue D V parentdep) (exprCalcValue D V dep))
        (exprCalcValue D V (finalizeDep D parentdep dep)) := by
  have ht : Plain (dep.map (exprTransform D)) := by
    intro x hx
    obtain ⟨e, -, rfl⟩ := Option.map_eq_some_iff.mp hx
    exact (negated_exprTransform D e).notSymbol
  have hv (V) (hV : Valid D V) :
      exprCalcValue D V (dep.map (exprTransform D)) = exprCalcValue D V dep := by
    cases dep with
    | none => rfl
    | some e => exact value_exprTransform hV e
  have hand := hp.exprAllocAnd ht
  refine ⟨fun x hx => ?_, fun V hV => ?_⟩
  · obtain ⟨e, he, rfl⟩ := Option.map_eq_some_iff.mp hx
    exact (exprEliminateDups_spec D e).1 (hand e he)
  · rw [← hv V hV, ← exprCalcValue_exprAllocAnd, finalizeDep]
    cases exprAllocAnd parentdep (dep.map (exprTransform D)) with
    | none => exact .inr rfl
    | some e => exact (exprEliminateDups_spec D e).2 V hV

/-- `b` is `n` where one of the conditions that come to `a` is, and not where `a` is `y`. -/
structure Shown (a b : Tristate) : Prop where
  of_ne : b ≠ .no → a ≠ .no
  of_yes : a = .yes → b ≠ .no

theorem Shown.of_refines {a b c : Tristate} (h : Refines a b) (hc : c ≠ .no ↔ b ≠ .no) :
    Shown a c := by
  constructor
  · intro hne
    rcases h with rfl | rfl
    · decide
    · exact hc.mp hne
  · rintro rfl
    rcases h with h | rfl
    · exact absurd h (by decide)
    · exact hc.mpr (by decide)

theorem Shown.trans {a b c d : Tristate} (h : Refines a b) (h' : Shown (exprAnd b c) d) :
    Shown (exprAnd a c) d := by
  constructor
  · intro hne
    obtain ⟨hb, hc⟩ := exprAnd_ne_no.mp (h'.of_ne hne)
    refine exprAnd_ne_no.mpr ⟨?_, hc⟩
    rcases h with rfl | rfl
    · decide
    · exact hb
  · intro hy
    have ha : a = .yes := by
      cases a <;> cases c <;> first | rfl | exact absurd hy (by decide)
    rcases h with rfl | rfl
    · exact absurd ha (by decide)
    · exact h'.of_yes hy

theorem exprTransBool_plain {e : Expr σ} (h : NotSymbol e) : NotSymbol (exprTransBool D e) := by
  induction e with
  | symbol s => trivial
  | not e _ =>
    match e, h with
    | .symbol s, _ => trivial
  | two type l r ihl ihr => exact ⟨ihl h.1, ihr h.2⟩
  | comp type s t =>
    cases type with
    | equal => trivial
    | unequal =>
      rw [exprTransBool]
      split <;> trivial

/-- A property under a condition shows where both allow it. -/
theorem finalizeProp_spec (hV : Valid D V) {basedep : Option (Expr σ)} (hb : Plain basedep)
    (sym : Option (Symbol σ)) (prop : Property σ) :
    Shown (exprAnd (exprCalcValue D V basedep) (exprCalcValue D V prop.visible))
      (exprCalcValue D V (finalizeProp D sym basedep prop).visible) := by
  obtain ⟨hplain, hv⟩ := finalizeDep_spec (D := D) hb prop.visible
  apply Shown.of_refines (hv V hV)
  have hbool : exprCalcValue D V ((finalizeDep D basedep prop.visible).map (exprTransBool D)) ≠
      .no ↔ exprCalcValue D V (finalizeDep D basedep prop.visible) ≠ .no := by
    cases hd : finalizeDep D basedep prop.visible with
    | none => rfl
    | some e => exact exprTransBool_ne_no hV (hplain e hd)
  cases sym with
  | none => rfl
  | some sym =>
    rw [finalizeProp]
    change exprCalcValue D V (if sym.type D ≠ .tristate then _ else _) ≠ .no ↔ _
    split
    · exact hbool
    · rfl

theorem finalizeProp_plain {basedep : Option (Expr σ)} (hb : Plain basedep)
    (sym : Option (Symbol σ)) (prop : Property σ) :
    Plain (finalizeProp D sym basedep prop).visible := by
  have hplain := (finalizeDep_spec (D := D) hb prop.visible).1
  have hbool : Plain ((finalizeDep D basedep prop.visible).map (exprTransBool D)) := by
    intro x hx
    obtain ⟨e, he, rfl⟩ := Option.map_eq_some_iff.mp hx
    exact exprTransBool_plain (hplain e he)
  cases sym with
  | none => exact hplain
  | some sym =>
    rw [finalizeProp]
    change Plain (if sym.type D ≠ .tristate then _ else _)
    split
    · exact hbool
    · exact hplain

theorem finalizeProps_fst (sym : Option (Symbol σ)) (basedep : Option (Expr σ))
    (props : List (Property σ)) (rev : RevDep σ) :
    (finalizeProps D sym basedep props rev).1 = props.map (finalizeProp D sym basedep) := by
  induction props generalizing rev with
  | nil => rfl
  | cons prop props ih => exact congrArg (finalizeProp D sym basedep prop :: ·) (ih _)

/-- An entry as `finalizeList` leaves it. -/
def finalizeEntry (D : Decls σ) (parentdep : Option (Expr σ)) (menu : Entry σ) : Entry σ :=
  let basedep := finalizeDep D parentdep menu.dep
  { menu with dep := basedep, props := menu.props.map (finalizeProp D menu.sym basedep) }

theorem finalizeList_fst (parentdep : Option (Expr σ)) (list : List (Entry σ)) (rev : RevDep σ) :
    (finalizeList D parentdep list rev).1 = list.map (finalizeEntry D parentdep) := by
  induction list generalizing rev with
  | nil => rfl
  | cons menu list ih =>
    rw [List.map_cons, ← ih, finalizeEntry, ← finalizeProps_fst menu.sym _ menu.props rev]
    rfl

/-- What becomes of an entry of a menu with the condition `parentdep`. It has the value of the
condition of the menu and its own, unless that is `m`, and a property shows where the menu, the
entry and the property allow it. -/
structure Passed (D : Decls σ) (V : Values σ) (parentdep : Option (Expr σ)) (menu menu' : Entry σ) :
    Prop where
  sym : menu'.sym = menu.sym
  plain : Plain menu'.dep
  dep : Refines (exprAnd (exprCalcValue D V parentdep) (exprCalcValue D V menu.dep))
    (exprCalcValue D V menu'.dep)
  props : List.Forall₂ (fun prop prop' =>
    prop'.select = prop.select ∧ Plain prop'.visible ∧
      Shown (exprAnd (exprAnd (exprCalcValue D V parentdep) (exprCalcValue D V menu.dep))
        (exprCalcValue D V prop.visible)) (exprCalcValue D V prop'.visible))
    menu.props menu'.props

/-- The entries of a menu, when its condition is of the kind that `menu_finalize` leaves. -/
theorem finalizeList_visible (hV : Valid D V) {parentdep : Option (Expr σ)}
    (hp : Plain parentdep) (list : List (Entry σ)) (rev : RevDep σ) :
    List.Forall₂ (Passed D V parentdep) list (finalizeList D parentdep list rev).1 := by
  rw [finalizeList_fst, List.forall₂_map_right_iff, List.forall₂_same]
  intro menu _
  obtain ⟨hplain, hv⟩ := finalizeDep_spec (D := D) hp menu.dep
  refine ⟨rfl, hplain, hv V hV, ?_⟩
  rw [finalizeEntry, List.forall₂_map_right_iff, List.forall₂_same]
  intro prop _
  exact ⟨rfl, finalizeProp_plain hplain menu.sym prop,
    (finalizeProp_spec hV hplain menu.sym prop).trans (hv V hV)⟩

/-- `config BAR` with a prompt `if FOO`, in a menu that depends on `FOO`. -/
def fooBarMenu : List (Entry Bool) :=
  [⟨2, some (.entry false), some 0, none, [⟨none, some (.symbol (.entry true))⟩]⟩]

theorem finalizeList_visible_fooBar :
    List.Forall₂ (Passed fooBar fooBarMod (some (.symbol (.entry true)))) fooBarMenu
      (finalizeList fooBar (some (.symbol (.entry true))) fooBarMenu fun _ => none).1 :=
  finalizeList_visible fooBarMod_valid (by rintro x ⟨⟩; trivial) _ _

/-! ## What selects a symbol -/

/-- The value of `rev_dep`, which is `n` where nothing selects. -/
def revValue (D : Decls σ) (V : Values σ) : Option (Expr σ) → Tristate
  | none => .no
  | some e => e.value D V

/-- What the properties of an entry add to the symbol `es`. -/
def selects (D : Decls σ) (V : Values σ) (es : Symbol σ) (sym : Option (Symbol σ))
    (props : List (Property σ)) : List Tristate :=
  props.filterMap fun prop =>
    if prop.select = some es then
      sym.map fun sym => exprAnd (sym.tri D V) (exprCalcValue D V prop.visible)
    else none

omit [DecidableEq σ] in
theorem revValue_exprAllocOr (a : Option (Expr σ)) (e : Expr σ) :
    revValue D V (exprAllocOr a (some e)) = exprOr (revValue D V a) (e.value D V) := by
  cases a with
  | none => exact (@Junction.unit_value .or _).symm
  | some a => rfl

theorem revValue_addSelect (es : Symbol σ) (sym : Option (Symbol σ)) (prop : Property σ)
    (rev : RevDep σ) :
    revValue D V (addSelect sym prop rev es) =
      (selects D V es sym [prop]).foldl exprOr (revValue D V (rev es)) := by
  obtain ⟨select, visible⟩ := prop
  cases select with
  | none => simp [addSelect, selects]
  | some es' =>
    cases sym with
    | none => simp [addSelect, selects]
    | some sym =>
      obtain ⟨e, he⟩ : ∃ e, exprAllocAnd (some (.symbol sym)) visible = some e := by
        cases visible <;> exact ⟨_, rfl⟩
      have hv : e.value D V = exprAnd (sym.tri D V) (exprCalcValue D V visible) := by
        have hand := exprCalcValue_exprAllocAnd (D := D) (V := V) (some (.symbol sym)) visible
        rwa [he] at hand
      change revValue D V (Function.update rev es' (exprAllocOr (rev es')
        (exprAllocAnd (some (.symbol sym)) visible)) es) = _
      by_cases heq : es = es'
      · subst heq
        rw [Function.update_self, he, revValue_exprAllocOr, hv]
        simp [selects]
      · rw [Function.update_of_ne heq]
        simp [selects, Ne.symm heq]

theorem revValue_finalizeProps (es : Symbol σ) (sym : Option (Symbol σ))
    (basedep : Option (Expr σ)) (props : List (Property σ)) (rev : RevDep σ) :
    revValue D V ((finalizeProps D sym basedep props rev).2 es) =
      (selects D V es sym (finalizeProps D sym basedep props rev).1).foldl exprOr
        (revValue D V (rev es)) := by
  induction props generalizing rev with
  | nil => rfl
  | cons prop props ih =>
    change revValue D V ((finalizeProps D sym basedep props
      (addSelect sym (finalizeProp D sym basedep prop) rev)).2 es) = _
    rw [ih, revValue_addSelect, ← List.foldl_append, selects, selects, ← List.filterMap_append]
    rfl

/-- After the loop over a menu, `rev_dep` of a symbol has the value of what it was before and of
every `select` of the symbol in the menu. -/
theorem finalizeList_rev (D : Decls σ) (V : Values σ) (parentdep : Option (Expr σ))
    (list : List (Entry σ)) (rev : RevDep σ) (es : Symbol σ) :
    revValue D V ((finalizeList D parentdep list rev).2 es) =
      ((finalizeList D parentdep list rev).1.flatMap fun menu =>
        selects D V es menu.sym menu.props).foldl exprOr (revValue D V (rev es)) := by
  induction list generalizing rev with
  | nil => rfl
  | cons menu list ih =>
    change revValue D V ((finalizeList D parentdep list (finalizeProps D menu.sym
      (finalizeDep D parentdep menu.dep) menu.props rev).2).2 es) = _
    rw [ih, revValue_finalizeProps, ← List.foldl_append]
    rfl

/-! ## Entries that move below a symbol -/

/-- The test for `n`, in the states where the condition can be tested. -/
theorem testShown_value (hV : Valid D V) {e : Option (Expr σ)} (h : ∀ x ∈ e, Comparable D V x)
    {t : Expr σ} (ht : testShown D e = some t) :
    t.value D V = .yes ↔ exprCalcValue D V e ≠ .no := by
  have simplify (x : Expr σ) (b : Bool) (hx : x.value D V = ofBool b) :
      (exprEliminateDups D (exprTransform D x)).value D V = ofBool b := by
    rw [← value_exprTransform hV] at hx
    rcases (exprEliminateDups_spec D (exprTransform D x)).2 V hV with hm | heq
    · rw [hx] at hm
      cases b <;> exact absurd hm (by decide)
    · rw [heq, hx]
  cases e with
  | none =>
    have hv := simplify (.not (.symbol .no)) true rfl
    have ht' := Option.some.inj ht
    change exprEliminateDups D (exprTransform D (.not (.symbol .no))) = t at ht'
    rw [← ht', hv]
    exact ⟨fun _ => (by decide : Tristate.yes ≠ .no), fun _ => rfl⟩
  | some e =>
    obtain ⟨x, hx, hv⟩ := exprTransCompare_value hV .unequal (h e rfl)
    rw [testShown] at ht
    change (exprTransCompare e .unequal .no).map _ = some t at ht
    rw [hx] at ht
    rw [← Option.some.inj ht, simplify x _ hv]
    change ofBool (testNo .unequal (e.value D V)) = .yes ↔ e.value D V ≠ .no
    cases e.value D V <;> decide

theorem le_yes (a : Tristate) : a ≤ .yes := by
  cases a <;> decide

theorem eq_yes_of_le {a : Tristate} (h : .yes ≤ a) : a = .yes := by
  cases a with
  | yes => rfl
  | _ => exact absurd h (by decide)

/-- An entry that becomes one of a symbol shows only where the symbol is not `n` or shows itself. -/
theorem nests_visible (hV : Valid D V) {sym : Symbol σ} (hs : Logical D sym)
    {basedep dep : Option (Expr σ)} (hb : ∀ x ∈ basedep, Comparable D V x)
    (hd : ∀ x ∈ dep, Comparable D V x) (h : nests D sym (testShown D basedep) dep = true)
    (hdep : exprCalcValue D V dep ≠ .no) :
    sym.tri D V ≠ .no ∨ exprCalcValue D V basedep ≠ .no := by
  cases dep with
  | none => cases h
  | some e =>
    unfold nests at h
    rw [Bool.and_eq_true, Bool.or_eq_true] at h
    rcases h.2 with h | h
    · exact .inl (exprDependsSymbol_ne_no hV hs h hdep)
    · right
      cases h1 : testShown D (some e) with
      | none => rw [h1] at h; cases h
      | some d =>
        cases h2 : testShown D basedep with
        | none => rw [h1, h2] at h; cases h
        | some d2 =>
          rw [h1, h2] at h
          have hyes : (exprEliminateEq d d2).2 = .symbol .yes := of_decide_eq_true h
          have hle : d.value D V ≤ d2.value D V := by
            apply (exprEliminateEq_common D V d d2).le_of_le
            change (exprEliminateEq d d2).1.value D V ≤ (exprEliminateEq d d2).2.value D V
            rw [hyes]
            exact le_yes _
          rw [(testShown_value hV hd h1).mpr hdep] at hle
          exact (testShown_value hV hb h2).mp (eq_yes_of_le hle)

/-- `FOO || BAR` behind `FOO`, whose prompt has no condition. -/
theorem nests_visible_fooBar :
    nests fooBar (.entry true) (testShown fooBar none)
        (some (.two .or (.symbol (.entry true)) (.symbol (.entry false)))) = true ∧
      ((Symbol.entry true).tri fooBar fooBarMod ≠ .no ∨
        exprCalcValue fooBar fooBarMod none ≠ .no) := by
  have hnests : nests fooBar (.entry true) (testShown fooBar none)
      (some (.two .or (.symbol (.entry true)) (.symbol (.entry false)))) = true := by
    decide +kernel
  have hlogical : Logical fooBar (.entry true) := .inr rfl
  refine ⟨hnests, nests_visible fooBarMod_valid hlogical (by rintro x ⟨⟩) ?_ hnests (by decide)⟩
  rintro x ⟨⟩
  exact ⟨.inr rfl, .inr rfl⟩

end DebianKernel.FwConfig
