import DebianKernel.Debian.RulesGen
import DebianKernel.Lib.SortedMap
import Mathlib.Data.Finset.Sort

/-!
# The file of rules

`Makefile` of `debian_linux.gencontrol` and the file it writes. A rule is made when its name
is met first, as a target or as a dependency. What is written for it depends on all calls:
with recipes, all its rules get two colons.

Results:
1. `run_spec`: the rules after any calls.
2. `makefile_faithful`: the file has the rules that the calls ask for, and the order of calls
   for different targets does not matter.
3. `doMain_writes`: the file of a run has the chains and the recipes that `RulesGen` follows.
-/

namespace DebianKernel.Debian

namespace RulesFile

variable {α : Type}

/-! ## The class -/

/-- The arguments of a call of `add`. -/
structure Call (α : Type) where
  name : Text
  deps : Option (List Text)
  cmds : Option (List α)

/-- `Makefile.Rule`, without its name. -/
structure Rule (α : Type) where
  deps : Finset Text
  cmds : List (List α)

namespace Rule

def empty : Rule α := ⟨∅, []⟩

/-- `Rule.add`. -/
def add (r : Rule α) (deps : Option (List Text)) (cmds : Option (List α)) : Rule α :=
  ⟨r.deps ∪ (deps.getD []).toFinset, r.cmds ++ cmds.toList⟩

def depsString (r : Rule α) : Text :=
  if r.deps = ∅ then [] else " " ++ (" " : Text).intercalate (r.deps.sort (· ≤ ·))

/-- `Rule.write`. -/
def write (line : α → Text) (name : Text) (r : Rule α) : Text :=
  if r.cmds = [] then name ++ ":" ++ r.depsString ++ "\n"
  else
    (if r.depsString = [] then [] else name ++ ("::" : Text) ++ r.depsString ++ ("\n" : Text)) ++
      r.cmds.flatMap fun c =>
        name ++ ("::\n" : Text) ++ c.flatMap fun i => ("\t" : Text) ++ line i ++ ("\n" : Text)

end Rule

/-- `Makefile`, with the rules by their names. -/
abbrev Makefile (α : Type) := SortedMap Text (Rule α)

namespace Makefile

/-- A rule for a dependency that has none. -/
def ensure (m : Makefile α) (i : Text) : Makefile α :=
  match m.find? i with
  | some _ => m
  | none => m.insert i Rule.empty

/-- `Makefile.add`. -/
def add (m : Makefile α) (c : Call α) : Makefile α :=
  let m := match m.find? c.name with
    | some r => m.insert c.name (r.add c.deps c.cmds)
    | none => m.insert c.name (Rule.empty.add c.deps c.cmds)
  (c.deps.getD []).foldl ensure m

/-- `Makefile.__init__`. -/
def init : Makefile α := add SortedMap.empty ⟨".NOTPARALLEL", none, none⟩

def run (calls : List (Call α)) : Makefile α := calls.foldl add init

/-- `Makefile.write`. -/
def write (line : α → Text) (m : Makefile α) : Text :=
  m.entries.flatMap fun p => p.2.write line p.1

end Makefile

/-! ## The rules in the file -/

/-- A rule as make reads it. One that is written for prerequisites has no recipe. -/
structure MakeRule (α : Type) where
  target : Text
  double : Bool
  prereqs : List Text
  recipe : Option (List α)

def MakeRule.text (line : α → Text) (r : MakeRule α) : Text :=
  r.target ++ (if r.double then ("::" : Text) else (":" : Text)) ++
    (if r.prereqs = [] then [] else (" " : Text) ++ (" " : Text).intercalate r.prereqs) ++
    ("\n" : Text) ++ (r.recipe.getD []).flatMap fun i => ("\t" : Text) ++ line i ++ ("\n" : Text)

def Rule.makeRules (name : Text) (r : Rule α) : List (MakeRule α) :=
  if r.cmds = [] then [⟨name, false, r.deps.sort (· ≤ ·), none⟩]
  else
    (if r.deps = ∅ then [] else [⟨name, true, r.deps.sort (· ≤ ·), none⟩]) ++
      r.cmds.map fun c => ⟨name, true, [], some c⟩

def Makefile.makeRules (m : Makefile α) : List (MakeRule α) :=
  m.entries.flatMap fun p => p.2.makeRules p.1

/-! ## What the calls ask for -/

/-- The name is met in a call. -/
def Passed (calls : List (Call α)) (n : Text) : Prop :=
  ∃ c ∈ calls, c.name = n ∨ n ∈ c.deps.getD []

def GivenDep (calls : List (Call α)) (n d : Text) : Prop :=
  ∃ c ∈ calls, c.name = n ∧ d ∈ c.deps.getD []

/-- The recipes for a target, in the order of the calls. -/
def givenCmds (calls : List (Call α)) (n : Text) : List (List α) :=
  (calls.filter (·.name = n)).filterMap (·.cmds)

/-- The rules are those that the calls ask for. -/
structure Faithful (calls : List (Call α)) (rules : List (MakeRule α)) : Prop where
  targets : ∀ n, (∃ r ∈ rules, r.target = n) ↔ n = ".NOTPARALLEL" ∨ Passed calls n
  colons : ∀ r ∈ rules, ∀ r' ∈ rules, r.target = r'.target → r.double = r'.double
  prereqs : ∀ n d, (∃ r ∈ rules, r.target = n ∧ d ∈ r.prereqs) ↔ GivenDep calls n d
  recipes : ∀ n, (rules.filter (·.target = n)).filterMap (·.recipe) = givenCmds calls n

/-- Calls for one target are in the same order. -/
def SameOrder (calls calls' : List (Call α)) : Prop :=
  ∀ n, calls.filter (·.name = n) = calls'.filter (·.name = n)

namespace RulesFileLemmas

/-! ## One call -/

theorem find?_ensure (m : Makefile α) (i n : Text) :
    (m.ensure i).find? n = (m.find? n).or (if n = i then some Rule.empty else none) := by
  rw [Makefile.ensure]
  rcases eq_or_ne n i with rfl | hne
  · rw [if_pos rfl]
    cases hn : m.find? n with
    | some r => exact hn
    | none => exact SortedMap.find?_insert_self _ _ _
  · rw [if_neg hne, Option.or_none]
    cases m.find? i with
    | some r => rfl
    | none => exact SortedMap.find?_insert_ne _ _ hne

theorem find?_foldl_ensure (l : List Text) (m : Makefile α) (n : Text) :
    (l.foldl Makefile.ensure m).find? n =
      (m.find? n).or (if n ∈ l then some Rule.empty else none) := by
  induction l generalizing m with
  | nil => simp
  | cons i l ih =>
    rw [List.foldl_cons, ih, find?_ensure]
    cases m.find? n with
    | some r => rfl
    | none =>
      rcases eq_or_ne n i with rfl | hne
      · simp
      · simp [hne]

/-- What a call does to the rule of its target, and to other rules. -/
theorem find?_add (m : Makefile α) (c : Call α) (n : Text) :
    (m.add c).find? n =
      if n = c.name then some (((m.find? n).getD Rule.empty).add c.deps c.cmds)
      else (m.find? n).or (if n ∈ c.deps.getD [] then some Rule.empty else none) := by
  have hset : (match m.find? c.name with
      | some r => SortedMap.insert m c.name (r.add c.deps c.cmds)
      | none => SortedMap.insert m c.name (Rule.empty.add c.deps c.cmds)) =
      m.insert c.name (((m.find? c.name).getD Rule.empty).add c.deps c.cmds) := by
    cases m.find? c.name <;> rfl
  rw [Makefile.add, hset, find?_foldl_ensure]
  rcases eq_or_ne n c.name with rfl | hne
  · rw [if_pos rfl, SortedMap.find?_insert_self]
    rfl
  · rw [if_neg hne, SortedMap.find?_insert_ne _ _ hne]

/-! ## All calls -/

/-- The rule of a name after the calls. -/
def RuleSpec (calls : List (Call α)) (n : Text) : Option (Rule α) → Prop
  | none => n ≠ ".NOTPARALLEL" ∧ ¬ Passed calls n
  | some r => (n = ".NOTPARALLEL" ∨ Passed calls n) ∧
      (∀ d, d ∈ r.deps ↔ GivenDep calls n d) ∧ r.cmds = givenCmds calls n

theorem passed_concat {calls : List (Call α)} {c : Call α} {n : Text} :
    Passed (calls ++ [c]) n ↔ Passed calls n ∨ c.name = n ∨ n ∈ c.deps.getD [] := by
  simp only [Passed, List.mem_append, List.mem_singleton, or_and_right, exists_or,
    exists_eq_left]

theorem givenDep_concat {calls : List (Call α)} {c : Call α} {n d : Text} :
    GivenDep (calls ++ [c]) n d ↔ GivenDep calls n d ∨ c.name = n ∧ d ∈ c.deps.getD [] := by
  simp only [GivenDep, List.mem_append, List.mem_singleton, or_and_right, exists_or,
    exists_eq_left]

theorem givenCmds_concat {calls : List (Call α)} {c : Call α} {n : Text} :
    givenCmds (calls ++ [c]) n =
      givenCmds calls n ++ if c.name = n then c.cmds.toList else [] := by
  rw [givenCmds, List.filter_append, List.filterMap_append, givenCmds]
  congr 1
  rw [List.filter_cons]
  split
  · next h =>
    rw [if_pos (by simpa using h)]
    cases hc : c.cmds <;> simp [hc]
  · next h =>
    rw [if_neg (by simpa using h)]
    rfl

theorem not_given_of_not_passed {calls : List (Call α)} {n : Text} (h : ¬ Passed calls n) :
    (∀ d, ¬ GivenDep calls n d) ∧ givenCmds calls n = [] := by
  refine ⟨fun d ⟨c, hc, hn, _⟩ => h ⟨c, hc, .inl hn⟩, ?_⟩
  rw [givenCmds, List.filter_eq_nil_iff.mpr]
  · rfl
  · intro c hc hn
    exact h ⟨c, hc, .inl (by simpa using hn)⟩

/-- A call keeps the specification. -/
theorem ruleSpec_add {calls : List (Call α)} {m : Makefile α} {c : Call α}
    (h : ∀ n, RuleSpec calls n (m.find? n)) (n : Text) :
    RuleSpec (calls ++ [c]) n ((m.add c).find? n) := by
  have hn := h n
  rw [find?_add]
  split
  · next hname =>
    subst hname
    refine ⟨.inr (passed_concat.mpr (.inr (.inl rfl))), fun d => ?_, ?_⟩
    · rw [givenDep_concat, Rule.add, Finset.mem_union, List.mem_toFinset]
      cases hfind : m.find? c.name with
      | some r =>
        rw [hfind] at hn
        rw [Option.getD_some, hn.2.1 d]
        simp
      | none =>
        rw [hfind] at hn
        simp [Rule.empty, (not_given_of_not_passed hn.2).1 d]
    · rw [givenCmds_concat, if_pos rfl, Rule.add]
      cases hfind : m.find? c.name with
      | some r =>
        rw [hfind] at hn
        rw [Option.getD_some, hn.2.2]
      | none =>
        rw [hfind] at hn
        rw [(not_given_of_not_passed hn.2).2]
        rfl
  · next hname =>
    have hsame : ∀ d, GivenDep (calls ++ [c]) n d ↔ GivenDep calls n d := by
      intro d
      rw [givenDep_concat, or_iff_left fun h => hname h.1.symm]
    have hcmds : givenCmds (calls ++ [c]) n = givenCmds calls n := by
      rw [givenCmds_concat, if_neg fun h => hname h.symm, List.append_nil]
    cases hfind : m.find? n with
    | some r =>
      rw [hfind] at hn
      obtain ⟨hknown, hdeps, hr⟩ := hn
      refine ⟨hknown.imp_right fun h => passed_concat.mpr (.inl h), fun d => ?_, ?_⟩
      · rw [hdeps, hsame]
      · rw [hr, hcmds]
    | none =>
      rw [hfind] at hn
      rw [Option.none_or]
      split
      · next hdep =>
        refine ⟨.inr (passed_concat.mpr (.inr (.inr hdep))), fun d => ?_, ?_⟩
        · rw [hsame]
          simp [Rule.empty, (not_given_of_not_passed hn.2).1 d]
        · rw [hcmds, (not_given_of_not_passed hn.2).2]
          rfl
      · next hdep =>
        refine ⟨hn.1, fun hpassed => ?_⟩
        rcases passed_concat.mp hpassed with h | h | h
        · exact hn.2 h
        · exact hname h.symm
        · exact hdep h

/-- The rules after any calls. -/
theorem run_spec (calls : List (Call α)) (n : Text) :
    RuleSpec calls n ((Makefile.run calls).find? n) := by
  induction calls using List.reverseRecOn generalizing n with
  | nil =>
    show RuleSpec [] n (Makefile.init.find? n)
    rw [Makefile.init, find?_add]
    split
    · next h => exact ⟨.inl h, fun d => by simp [Rule.add, Rule.empty, GivenDep], rfl⟩
    · next h => exact ⟨h, fun ⟨c, hc, _⟩ => List.not_mem_nil hc⟩
  | append_singleton calls c ih =>
    rw [Makefile.run, List.foldl_append]
    exact ruleSpec_add ih n

/-! ## What is written -/

theorem sort_eq_nil {r : Rule α} : r.deps.sort (· ≤ ·) = [] ↔ r.deps = ∅ := by
  rw [← List.length_eq_zero_iff, Finset.length_sort, Finset.card_eq_zero]

theorem depsString_eq (r : Rule α) : r.depsString =
    if r.deps.sort (· ≤ ·) = [] then []
    else (" " : Text) ++ (" " : Text).intercalate (r.deps.sort (· ≤ ·)) := by
  rw [Rule.depsString]
  split
  · next h => rw [if_pos (sort_eq_nil.mpr h)]
  · next h => rw [if_neg (mt sort_eq_nil.mp h)]

theorem depsString_eq_nil {r : Rule α} : r.depsString = [] ↔ r.deps = ∅ := by
  rw [Rule.depsString]
  split
  · next h => exact iff_of_true rfl h
  · next h => exact iff_of_false (List.cons_ne_nil _ _) h

theorem rule_write_eq (line : α → Text) (name : Text) (r : Rule α) :
    r.write line name = (r.makeRules name).flatMap (·.text line) := by
  rw [Rule.write, Rule.makeRules]
  split
  · rw [List.flatMap_singleton, MakeRule.text, depsString_eq]
    simp
  · rw [List.flatMap_append, List.flatMap_map]
    congr 1
    · split
      · next h => rw [if_pos (depsString_eq_nil.mp h)]; rfl
      · next h =>
        rw [if_neg (mt depsString_eq_nil.mpr h), List.flatMap_singleton, MakeRule.text,
          depsString_eq]
        simp
    · refine List.flatMap_congr fun c _ => ?_
      simp [MakeRule.text]

/-- The file is the text of its rules. -/
theorem write_eq (line : α → Text) (m : Makefile α) :
    m.write line = m.makeRules.flatMap (·.text line) := by
  rw [Makefile.write, Makefile.makeRules, List.flatMap_assoc]
  exact List.flatMap_congr fun p _ => rule_write_eq line p.1 p.2

theorem makeRules_ne_nil (name : Text) (r : Rule α) : r.makeRules name ≠ [] := by
  rw [Rule.makeRules]
  split
  · exact List.cons_ne_nil _ _
  · next h => exact List.append_ne_nil_of_right_ne_nil _ fun hmap => h (List.map_eq_nil_iff.mp hmap)

theorem target_makeRules {name : Text} {r : Rule α} {x : MakeRule α} (h : x ∈ r.makeRules name) :
    x.target = name ∧ x.double = !r.cmds.isEmpty := by
  rw [Rule.makeRules] at h
  split at h
  · next hnil =>
    rw [List.mem_singleton] at h
    rw [h, hnil]
    exact ⟨rfl, rfl⟩
  · next hne =>
    have hdouble : (!r.cmds.isEmpty) = true := by simpa using hne
    rw [hdouble]
    rcases List.mem_append.mp h with h | h
    · split at h
      · cases h
      · rw [List.mem_singleton.mp h]
        exact ⟨rfl, rfl⟩
    · obtain ⟨c, -, rfl⟩ := List.mem_map.mp h
      exact ⟨rfl, rfl⟩

theorem prereqs_makeRules (name : Text) (r : Rule α) (d : Text) :
    (∃ x ∈ r.makeRules name, d ∈ x.prereqs) ↔ d ∈ r.deps := by
  rw [Rule.makeRules]
  split
  · simp
  · split
    · next h => simp [h]
    · simp only [List.mem_append, List.mem_singleton, List.mem_map, or_and_right, exists_or,
        exists_eq_left, Finset.mem_sort, or_iff_left_iff_imp]
      rintro ⟨x, ⟨c, -, rfl⟩, hd⟩
      cases hd

theorem recipes_makeRules (name : Text) (r : Rule α) :
    (r.makeRules name).filterMap (·.recipe) = r.cmds := by
  have hmap : (r.cmds.map fun c => (⟨name, true, [], some c⟩ : MakeRule α)).filterMap (·.recipe) =
      r.cmds := by
    rw [List.filterMap_map]
    exact List.filterMap_some
  rw [Rule.makeRules]
  split
  · next h => exact h.symm
  · rw [List.filterMap_append, hmap]
    split <;> rfl

/-- The rules of one target are those of its entry. -/
theorem filter_makeRules (m : Makefile α) (n : Text) :
    m.makeRules.filter (·.target = n) = ((m.find? n).map (Rule.makeRules n)).getD [] := by
  rw [Makefile.makeRules, List.filter_flatMap, m.flatMap_key (k := n)]
  · refine congrArg (Option.getD · []) (Option.map_congr fun r _ => ?_)
    exact List.filter_eq_self.mpr fun x hx => by simpa using (target_makeRules hx).1
  · intro p hp
    refine List.filter_eq_nil_iff.mpr fun x hx => ?_
    simpa [(target_makeRules hx).1] using hp

theorem mem_makeRules {m : Makefile α} {x : MakeRule α} :
    x ∈ m.makeRules ↔ ∃ r, m.find? x.target = some r ∧ x ∈ r.makeRules x.target := by
  rw [Makefile.makeRules, List.mem_flatMap]
  constructor
  · rintro ⟨p, hp, hx⟩
    have htarget := (target_makeRules hx).1
    rw [htarget]
    exact ⟨p.2, SortedMap.find?_eq_some_iff.mpr hp, hx⟩
  · rintro ⟨r, hr, hx⟩
    exact ⟨(x.target, r), SortedMap.find?_eq_some_iff.mp hr, hx⟩

theorem run_faithful (calls : List (Call α)) :
    Faithful calls (Makefile.run calls).makeRules := by
  have hspec := run_spec calls
  refine ⟨fun n => ?_, ?_, fun n d => ?_, fun n => ?_⟩
  · have hn := hspec n
    constructor
    · rintro ⟨x, hx, rfl⟩
      obtain ⟨r, hr, -⟩ := mem_makeRules.mp hx
      rw [hr] at hn
      exact hn.1
    · intro hknown
      cases hfind : (Makefile.run calls).find? n with
      | none =>
        rw [hfind] at hn
        exact absurd hknown (not_or.mpr hn)
      | some r =>
        obtain ⟨x, hx⟩ := List.exists_mem_of_ne_nil _ (makeRules_ne_nil n r)
        obtain rfl := (target_makeRules hx).1
        exact ⟨x, mem_makeRules.mpr ⟨r, hfind, hx⟩, rfl⟩
  · intro x hx x' hx' htarget
    obtain ⟨r, hr, hxr⟩ := mem_makeRules.mp hx
    obtain ⟨r', hr', hxr'⟩ := mem_makeRules.mp hx'
    rw [← htarget, hr] at hr'
    obtain rfl := Option.some.inj hr'
    rw [(target_makeRules hxr).2, (target_makeRules hxr').2]
  · have hn := hspec n
    constructor
    · rintro ⟨x, hx, rfl, hd⟩
      obtain ⟨r, hr, hxr⟩ := mem_makeRules.mp hx
      rw [hr] at hn
      exact (hn.2.1 d).mp ((prereqs_makeRules _ r d).mp ⟨x, hxr, hd⟩)
    · intro hgiven
      cases hfind : (Makefile.run calls).find? n with
      | none =>
        rw [hfind] at hn
        exact absurd hgiven ((not_given_of_not_passed hn.2).1 d)
      | some r =>
        rw [hfind] at hn
        obtain ⟨x, hx, hd⟩ := (prereqs_makeRules n r d).mpr ((hn.2.1 d).mpr hgiven)
        obtain rfl := (target_makeRules hx).1
        exact ⟨x, mem_makeRules.mpr ⟨r, hfind, hx⟩, rfl, hd⟩
  · have hn := hspec n
    rw [filter_makeRules]
    cases hfind : (Makefile.run calls).find? n with
    | none =>
      rw [hfind] at hn
      exact (not_given_of_not_passed hn.2).2.symm
    | some r =>
      rw [hfind] at hn
      exact (recipes_makeRules n r).trans hn.2.2

/-! ## The order of the calls -/

theorem mem_iff_of_sameOrder {calls calls' : List (Call α)} (h : SameOrder calls calls')
    {c : Call α} : c ∈ calls ↔ c ∈ calls' := by
  have hfilter := h c.name
  have hmem : ∀ l : List (Call α), c ∈ l ↔ c ∈ l.filter (·.name = c.name) := by
    intro l
    rw [List.mem_filter]
    simp
  rw [hmem calls, hmem calls', hfilter]

/-- The rules do not depend on how calls for different targets are mixed. -/
theorem run_sameOrder {calls calls' : List (Call α)} (h : SameOrder calls calls') :
    Makefile.run calls' = Makefile.run calls := by
  have hpassed : ∀ n, Passed calls n ↔ Passed calls' n := fun n =>
    exists_congr fun c => and_congr_left fun _ => mem_iff_of_sameOrder h
  have hdeps : ∀ n d, GivenDep calls n d ↔ GivenDep calls' n d := fun n d =>
    exists_congr fun c => and_congr_left fun _ => mem_iff_of_sameOrder h
  have hcmds : ∀ n, givenCmds calls n = givenCmds calls' n := fun n => by
    rw [givenCmds, givenCmds, h n]
  refine SortedMap.ext fun n => ?_
  have hn := run_spec calls n
  have hn' := run_spec calls' n
  cases hfind : (Makefile.run calls).find? n with
  | none =>
    cases hfind' : (Makefile.run calls').find? n with
    | none => rfl
    | some r' =>
      rw [hfind] at hn
      rw [hfind'] at hn'
      exact absurd (hn'.1.imp_right (hpassed n).mpr) (not_or.mpr hn)
  | some r =>
    cases hfind' : (Makefile.run calls').find? n with
    | none =>
      rw [hfind] at hn
      rw [hfind'] at hn'
      exact absurd (hn.1.imp_right (hpassed n).mp) (not_or.mpr hn')
    | some r' =>
      rw [hfind] at hn
      rw [hfind'] at hn'
      have heq : r'.deps = r.deps := Finset.ext fun d => by rw [hn'.2.1 d, hn.2.1 d, hdeps]
      have heq' : r'.cmds = r.cmds := by rw [hn'.2.2, hn.2.2, hcmds]
      obtain ⟨deps, cmds⟩ := r
      obtain ⟨deps', cmds'⟩ := r'
      obtain rfl : deps' = deps := heq
      obtain rfl : cmds' = cmds := heq'
      rfl

end RulesFileLemmas

open RulesFileLemmas

/-- The file that is written consists of the rules that the calls ask for, and is the same
for calls that are mixed in another way. -/
theorem makefile_faithful (line : α → Text) (calls : List (Call α)) :
    (Makefile.run calls).write line = (Makefile.run calls).makeRules.flatMap (·.text line) ∧
    Faithful calls (Makefile.run calls).makeRules ∧
    ∀ calls', SameOrder calls calls' →
      (Makefile.run calls').write line = (Makefile.run calls).write line :=
  ⟨write_eq line _, run_faithful calls, fun _ h => by rw [run_sameOrder h]⟩

/-! ## The rules of the chains -/

/-- The rules by which `RulesGen` follows the chains of targets. -/
def Abstracts (m : Makefile Command) (m' : Debian.Makefile) : Prop :=
  ∀ n, (m.find? n = none ∧ m' n = none) ∨
    ∃ r r', m.find? n = some r ∧ m' n = some r' ∧ (∀ d, d ∈ r.deps ↔ d ∈ r'.deps) ∧
      r.cmds = r'.cmds

/-- The rules that some calls make. -/
def Made (m' : Debian.Makefile) : Prop := ∃ calls, Abstracts (Makefile.run calls) m'

/-- The rules of a file have these dependencies and these commands. -/
structure Writes (rules : List (MakeRule Command)) (m' : Debian.Makefile) : Prop where
  prereqs : ∀ n d, (∃ r ∈ rules, r.target = n ∧ d ∈ r.prereqs) ↔ m'.Dep n d
  recipes : ∀ n c, (∃ r ∈ rules, r.target = n ∧ ∃ cs ∈ r.recipe, c ∈ cs) ↔ m'.Has n c

namespace RulesFileLemmas

theorem foldl_setRule (l : List Text) (m : Debian.Makefile) (n : Text) :
    l.foldl (fun m i => m.setRule i (m.rule i)) m n = if n ∈ l then some (m.rule n) else m n := by
  induction l generalizing m with
  | nil => rfl
  | cons i l ih =>
    rw [List.foldl_cons, ih, Makefile.rule_setRule, Makefile.setRule]
    rcases eq_or_ne n i with rfl | hne
    · simp
    · simp [hne]

/-- A call changes the rules alike in both models. -/
theorem add_refines {m : Makefile Command} {m' : Debian.Makefile} (h : Abstracts m m') (name : Text)
    (deps : Option (List Text)) (cmds : Option (List Command)) :
    Abstracts (m.add ⟨name, deps, cmds⟩) (m'.add name (deps.getD []) cmds) := by
  intro n
  have hn := h n
  rw [find?_add, Debian.Makefile.add, foldl_setRule, Makefile.rule_setRule, Makefile.setRule]
  rcases eq_or_ne n name with rfl | hne
  · rw [if_pos rfl, if_pos rfl, if_pos rfl, ite_self]
    refine .inr ⟨_, _, rfl, rfl, ?_, ?_⟩
    · intro d
      rcases hn with ⟨hfind, hfind'⟩ | ⟨r, r', hfind, hfind', hdeps, -⟩
      · simp [Makefile.rule, Rule.add, Debian.Rule.add, Rule.empty, Debian.Rule.empty, hfind,
          hfind']
      · simp [Makefile.rule, Rule.add, Debian.Rule.add, hfind, hfind', hdeps]
    · rcases hn with ⟨hfind, hfind'⟩ | ⟨r, r', hfind, hfind', -, hcmds⟩
      · rw [Makefile.rule, hfind, hfind']
        rfl
      · rw [Makefile.rule, hfind, hfind']
        exact congrArg (· ++ cmds.toList) hcmds
  · rw [if_neg hne, if_neg hne, if_neg hne]
    rcases hn with ⟨hfind, hfind'⟩ | ⟨r, r', hfind, hfind', hdeps, hcmds⟩
    · rw [hfind, hfind']
      split
      · rw [Option.none_or]
        refine .inr ⟨_, _, rfl, rfl, fun d => ?_, ?_⟩
        · simp [Makefile.rule, Rule.empty, Debian.Rule.empty, hfind']
        · simp [Makefile.rule, Rule.empty, Debian.Rule.empty, hfind']
      · rw [Option.none_or]
        exact .inl ⟨rfl, rfl⟩
    · rw [hfind, Makefile.rule, hfind']
      refine .inr ⟨r, r', rfl, ?_, hdeps, hcmds⟩
      split <;> rfl

theorem made_init : Made (Debian.Makefile.empty.add ".NOTPARALLEL" [] none) :=
  ⟨[], add_refines (m := SortedMap.empty) (fun _ => .inl ⟨rfl, rfl⟩) ".NOTPARALLEL" none none⟩

variable {m m' : Debian.Makefile}

theorem made_add (h : Made m) (name : Text) (deps : List Text) (cmds : Option (List Command)) :
    Made (m.add name deps cmds) := by
  obtain ⟨calls, h⟩ := h
  refine ⟨calls ++ [⟨name, some deps, cmds⟩], ?_⟩
  rw [Makefile.run, List.foldl_concat]
  exact add_refines h name (some deps) cmds

theorem made_addChains (h : Made m) (parts : List Text) (name : Text) :
    Made (addChains m parts name) :=
  List.foldlRecOn makefileTargets _ h fun _ h _ _ => made_add (made_add h _ _ _) _ _ _

/-- A loop keeps what each step keeps. -/
theorem foldlM_keeps {σ β : Type} {f : σ → β → Option σ} {Q : σ → Prop}
    (hstep : ∀ {s x s'}, f s x = some s' → Q s → Q s') {l : List β} {s s' : σ}
    (h : l.foldlM f s = some s') (hs : Q s) : Q s' := by
  induction l generalizing s with
  | nil =>
    cases h
    exact hs
  | cons x l ih =>
    rw [List.foldlM_cons] at h
    obtain ⟨t, ht, h⟩ := Option.bind_eq_some_iff.mp h
    exact ih h (hstep ht hs)

variable {P : Type} {steps : PackageSteps P} {g : Gencontrol} {s s' : P × Debian.Makefile}

theorem made_doFlavour {arch featureset flavour : Text} {makeflags : Vars}
    (h : Gencontrol.doFlavour steps arch featureset makeflags s flavour = some s')
    (hs : Made s.2) : Made s'.2 := by
  obtain ⟨⟨packages, dummy⟩, -, h⟩ := Option.bind_eq_some_iff.mp h
  cases h
  exact made_add (made_add (made_add (made_addChains hs _ _) _ _ _) _ _ _) _ _ _

theorem made_doFeatureset {arch featureset : Text} {makeflags : Vars}
    (h : g.doFeatureset steps arch makeflags s featureset = some s') (hs : Made s.2) :
    Made s'.2 := by
  rw [Gencontrol.doFeatureset] at h
  split at h
  · obtain ⟨packages, -, h⟩ := Option.bind_eq_some_iff.mp h
    obtain ⟨flavours, -, h⟩ := Option.bind_eq_some_iff.mp h
    exact foldlM_keeps (Q := fun s => Made s.2) made_doFlavour h
      (made_add (made_addChains hs _ _) _ _ _)
  · cases h
    exact hs

theorem made_doArchMakefile {arch : Text} (h : g.doArchMakefile steps s arch = some s')
    (hs : Made s.2) : Made s'.2 := by
  obtain ⟨featuresets, -, h⟩ := Option.bind_eq_some_iff.mp h
  obtain ⟨⟨packages, udebs⟩, -, h⟩ := Option.bind_eq_some_iff.mp h
  have hudebs : ∀ {m : Debian.Makefile}, Made m → ∀ (name : Text) (cmds : Option (List Command)),
      Made (if udebs = [] then m else m.add name [] cmds) := by
    intro m hm name cmds
    split
    · exact hm
    · exact made_add hm name [] cmds
  exact foldlM_keeps (Q := fun s => Made s.2) made_doFeatureset h
    (hudebs (made_add (made_add (made_addChains hs _ _) _ _ _) _ _ _) _ _)

theorem made_doMainMakefile {makeflags : Vars} (h : g.doMainMakefile m makeflags = some m')
    (hm : Made m) : Made m' := by
  obtain ⟨fsEnabled, -, h⟩ := Option.bind_eq_some_iff.mp h
  obtain ⟨tripletEnabled, -, h⟩ := Option.bind_eq_some_iff.mp h
  cases h
  have hsource := List.foldlRecOn (motive := Made) fsEnabled (fun m featureset =>
    m.add (joinName ["source", featureset, "real"]) []
        (some [⟨"source-featureset", makeflags.set "FEATURESET" featureset⟩])
      |>.add (joinName ["source", featureset]) [joinName ["source", featureset, "real"]] none
      |>.add "source" [joinName ["source", featureset]] none) hm
    fun _ h _ _ => made_add (made_add (made_add h _ _ _) _ _ _) _ _ _
  exact made_add (made_add (made_add hsource _ _ _) _ _ _) _ _ _

theorem made_doExtra (extra : List (Text × List Text)) (hm : Made m) :
    Made (Gencontrol.doExtra extra m) :=
  List.foldlRecOn _ _ hm fun _ h _ _ => made_add (made_add h _ _ _) _ _ _

/-- All rules of a run are made by calls. -/
theorem made_doMain {packages : P} {extra : List (Text × List Text)}
    (h : g.doMain steps packages extra = some m) : Made m := by
  obtain ⟨m₁, hmain, h⟩ := Option.bind_eq_some_iff.mp h
  obtain ⟨arches, -, h⟩ := Option.bind_eq_some_iff.mp h
  obtain ⟨s, harches, h⟩ := Option.bind_eq_some_iff.mp h
  cases h
  exact made_doExtra extra (foldlM_keeps (Q := fun s => Made s.2) made_doArchMakefile harches
    (made_doMainMakefile hmain made_init))

theorem writes_of_abstracts {rules : Makefile Command} (h : Abstracts rules m) :
    Writes rules.makeRules m := by
  have htarget : ∀ (n : Text) (p : MakeRule Command → Prop),
      (∃ r ∈ rules.makeRules, r.target = n ∧ p r) ↔
        ∃ r ∈ ((rules.find? n).map (Rule.makeRules n)).getD [], p r := by
    intro n p
    simp only [← filter_makeRules, List.mem_filter, decide_eq_true_iff, and_assoc]
  refine ⟨fun n d => ?_, fun n c => ?_⟩
  · rw [htarget, Makefile.Dep, Makefile.rule]
    rcases h n with ⟨hfind, hfind'⟩ | ⟨r, r', hfind, hfind', hdeps, -⟩
    · rw [hfind, hfind']
      refine iff_of_false ?_ List.not_mem_nil
      rintro ⟨r, hr, -⟩
      exact List.not_mem_nil hr
    · rw [hfind, hfind']
      exact (prereqs_makeRules n r d).trans (hdeps d)
  · rw [htarget, Makefile.Has, Makefile.rule]
    rcases h n with ⟨hfind, hfind'⟩ | ⟨r, r', hfind, hfind', -, hcmds⟩
    · rw [hfind, hfind']
      refine iff_of_false ?_ ?_
      · rintro ⟨r, hr, -⟩
        exact List.not_mem_nil hr
      · rintro ⟨cs, hcs, -⟩
        exact List.not_mem_nil hcs
    · rw [hfind, hfind', Option.getD_some, ← hcmds, ← recipes_makeRules n r]
      simp only [Option.map_some, Option.getD_some, List.mem_filterMap]
      constructor
      · rintro ⟨x, hx, cs, hcs, hc⟩
        exact ⟨cs, ⟨x, hx, hcs⟩, hc⟩
      · rintro ⟨cs, ⟨x, hx, hcs⟩, hc⟩
        exact ⟨x, hx, cs, hcs, hc⟩

end RulesFileLemmas

/-- The file of a run has the dependencies and the commands of the chains. -/
theorem doMain_writes {P : Type} {steps : PackageSteps P} {g : Gencontrol} {packages : P}
    {extra : List (Text × List Text)} {m : Debian.Makefile}
    (h : g.doMain steps packages extra = some m) (line : Command → Text) :
    ∃ calls, Faithful calls (Makefile.run calls).makeRules ∧
      (Makefile.run calls).write line = (Makefile.run calls).makeRules.flatMap (·.text line) ∧
      Writes (Makefile.run calls).makeRules m := by
  obtain ⟨calls, hcalls⟩ := made_doMain h
  exact ⟨calls, run_faithful calls, write_eq line _, writes_of_abstracts hcalls⟩

end RulesFile

end DebianKernel.Debian
