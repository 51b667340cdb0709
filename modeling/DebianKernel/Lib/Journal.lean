import Mathlib.Data.List.Basic
import Mathlib.Logic.Function.Basic

/-!
# Journals

A store maps keys to values. A journal is a list of writes, of which each computes the new
value of one key from the old one, or fails.

Results: `run_apply` (a key holds what its own writes compute), `run_congr` (runs that agree
on the writes of a key agree on the key), `run_invariant`.
-/

namespace Journal

variable {κ ν : Type*}

structure Write (κ ν : Type*) where
  key : κ
  /-- The new value, from the old one. -/
  value : Option ν → Option ν

variable [DecidableEq κ]

def Write.apply (s : κ → Option ν) (w : Write κ ν) : Option (κ → Option ν) :=
  (w.value (s w.key)).map fun v => Function.update s w.key (some v)

def run (s : κ → Option ν) (ws : List (Write κ ν)) : Option (κ → Option ν) :=
  ws.foldlM Write.apply s

/-- The writes of a key. -/
def writesOf (k : κ) (ws : List (Write κ ν)) : List (Write κ ν) := ws.filter fun w => w.key = k

variable {s s' t t' : κ → Option ν} {ws ws' : List (Write κ ν)} {k : κ}

@[simp] theorem run_nil (s : κ → Option ν) : run s [] = some s := rfl

theorem run_cons (s : κ → Option ν) (w : Write κ ν) (ws : List (Write κ ν)) :
    run s (w :: ws) = (w.apply s).bind fun s => run s ws := rfl

theorem run_append (s : κ → Option ν) (ws ws' : List (Write κ ν)) :
    run s (ws ++ ws') = (run s ws).bind fun s => run s ws' := by
  rw [run, List.foldlM_append]
  rfl

theorem Write.apply_eq_some {w : Write κ ν} (h : w.apply s = some s') (k : κ) :
    s' k = if w.key = k then w.value (s k) else s k := by
  obtain ⟨v, hv, rfl⟩ := Option.map_eq_some_iff.mp h
  split
  · next heq =>
    subst heq
    rw [hv, Function.update_self]
  · next hne => exact Function.update_of_ne (Ne.symm hne) _ _

theorem run_apply (h : run s ws = some s') (k : κ) :
    s' k = (writesOf k ws).foldl (fun v w => w.value v) (s k) := by
  induction ws generalizing s with
  | nil =>
    obtain rfl := Option.some.inj h
    rfl
  | cons w ws ih =>
    obtain ⟨s₁, hw, hrest⟩ := Option.bind_eq_some_iff.mp h
    rw [ih hrest, Write.apply_eq_some hw, writesOf, writesOf, List.filter_cons]
    split
    · next heq => rw [if_pos (decide_eq_true heq), List.foldl_cons]
    · next hne => rw [if_neg (by simpa using hne)]

theorem run_congr (h : run s ws = some s') (h' : run t ws' = some t')
    (hws : writesOf k ws = writesOf k ws') (hk : s k = t k) : s' k = t' k := by
  rw [run_apply h, run_apply h', hws, hk]

/-- What each write of a key keeps, a run keeps. -/
theorem run_invariant {P : Option ν → Prop} (h : run s ws = some s') (hs : P (s k))
    (hws : ∀ w ∈ ws, w.key = k → ∀ v v', P v → w.value v = some v' → P (some v')) : P (s' k) := by
  induction ws generalizing s with
  | nil => exact Option.some.inj h ▸ hs
  | cons w ws ih =>
    obtain ⟨s₁, hw, hrest⟩ := Option.bind_eq_some_iff.mp h
    refine ih hrest ?_ fun w' hw' => hws w' (List.mem_cons_of_mem w hw')
    obtain ⟨v, hv, rfl⟩ := Option.map_eq_some_iff.mp hw
    rcases eq_or_ne w.key k with rfl | hne
    · rw [Function.update_self]
      exact hws w List.mem_cons_self rfl _ _ hs hv
    · rwa [Function.update_of_ne hne.symm]

/-- What a write establishes and later ones keep holds at the end. -/
theorem run_established {P : Option ν → Prop} {w : Write κ ν}
    (h : run s (ws ++ w :: ws') = some s') (hkey : w.key = k)
    (hw : ∀ v v', w.value v = some v' → P (some v'))
    (hlater : ∀ w' ∈ ws', w'.key = k → ∀ v v', P v → w'.value v = some v' → P (some v')) :
    P (s' k) := by
  rw [run_append] at h
  obtain ⟨s₁, -, hrest⟩ := Option.bind_eq_some_iff.mp h
  obtain ⟨s₂, happly, hrest⟩ := Option.bind_eq_some_iff.mp hrest
  refine run_invariant hrest ?_ hlater
  obtain ⟨v, hv, rfl⟩ := Option.map_eq_some_iff.mp happly
  rw [← hkey, Function.update_self]
  exact hw _ _ hv

/-- A list of steps that each run a journal. -/
theorem foldlM_run {α β : Type*} {step : (κ → Option ν) → α → Option (κ → Option ν)}
    {f : α → Option β} {journal : β → List (Write κ ν)}
    (h : ∀ s a, step s a = (f a).bind fun b => run s (journal b)) (l : List α)
    (s : κ → Option ν) :
    l.foldlM step s = (l.mapM f).bind fun bs => run s (bs.flatMap journal) := by
  induction l generalizing s with
  | nil => rfl
  | cons a l ih =>
    rw [List.foldlM_cons, List.mapM_cons, h]
    cases f a with
    | none => rfl
    | some b =>
      show (run s (journal b)).bind (fun s => l.foldlM step s) =
        ((l.mapM f).bind fun bs => some (b :: bs)).bind fun bs => run s (bs.flatMap journal)
      simp only [ih]
      cases l.mapM f with
      | none => exact Option.bind_fun_none (run s (journal b))
      | some bs => exact (run_append s (journal b) (bs.flatMap journal)).symm

end Journal
