import DebianKernel.Lib.Text

/-!
# Regular expressions

A pattern gives every way to match at the start of a text, in the order in which a
backtracking search tries them: what is captured, and the text that is left. A greedy
repetition tries the longest match first, a lazy one the shortest.

Results:
1. `mem_bind`, `mem_run`, `mem_run1`, `mem_runIf1`: what a match consumes.
2. `first_bind`, `first_run`, `first_runIf1`: the first match of a search without
   backtracking.
3. `first_bind_sorted`, `first_run_bind`, `first_lazyRun1_bind`: what a search has tried
   before.
4. `Local`: the matches do not depend on what follows a text; `Local.first_append`.
-/

def Pattern (α : Type) := Text → List (α × Text)

namespace Pattern

variable {α β : Type}

instance : Monad Pattern where
  pure a := fun t => [(a, t)]
  bind m k := fun t => (m t).flatMap fun p => k p.1 p.2

/-- The text `s` itself. -/
def lit (s : Text) : Pattern Unit := fun t =>
  if s.isPrefixOf t then [((), t.drop s.length)] else []

/-- The alternatives `m|n`. -/
def alt (m n : Pattern α) : Pattern α := fun t => m t ++ n t

/-- The optional group `(?:m)?`. -/
def opt (m : Pattern α) : Pattern (Option α) := fun t =>
  (m t).map (fun p => (some p.1, p.2)) ++ [(none, t)]

/-- All beginnings of the text with characters of the class `p`, the longest first. -/
def run (p : Char → Bool) : Pattern Text
  | [] => [([], [])]
  | c :: t => (if p c then (run p t).map fun m => (c :: m.1, m.2) else []) ++ [([], c :: t)]

/-- The repetition `[p]+`. -/
def run1 (p : Char → Bool) : Pattern Text := fun t => (run p t).filter (·.1 ≠ [])

/-- The lazy repetition `[p]+?`. -/
def lazyRun1 (p : Char → Bool) : Pattern Text := fun t => (run1 p t).reverse

/-- The same for a class that also looks at the text behind the character. -/
def runIf (p : Char → Text → Bool) : Pattern Text
  | [] => [([], [])]
  | c :: t => (if p c t then (runIf p t).map fun m => (c :: m.1, m.2) else []) ++ [([], c :: t)]

def runIf1 (p : Char → Text → Bool) : Pattern Text := fun t => (runIf p t).filter (·.1 ≠ [])

/-- One character of the class `p`. -/
def one (p : Char → Bool) : Pattern Char
  | [] => []
  | c :: t => if p c then [(c, t)] else []

/-- A condition on the text that is left, which is not consumed. -/
def look (p : Text → Bool) : Pattern Unit := fun t => if p t then [((), t)] else []

/-- The anchor `$`: the end of the text, or its final newline. -/
def atEnd : Pattern Unit := look fun t => t = [] ∨ t = ['\n']

/-- The match that the search finds first. -/
def first (m : Pattern α) (t : Text) : Option (α × Text) := (m t).head?

/-- The match that starts first in the text: what is before it, what is captured, and the
text that is left. -/
def search (m : Pattern α) : Text → Option (Text × α × Text)
  | [] => (first m []).map fun (a, r) => ([], a, r)
  | c :: t => match first m (c :: t) with
    | some (a, r) => some ([], a, r)
    | none => (search m t).map fun (b, a, r) => (c :: b, a, r)

/-! ## What a match consumes -/

theorem mem_pure {a b : α} {t r : Text} : (b, r) ∈ (pure a : Pattern α) t ↔ b = a ∧ r = t := by
  show (b, r) ∈ [(a, t)] ↔ _
  simp

theorem mem_bind {m : Pattern α} {k : α → Pattern β} {t r : Text} {b : β} :
    (b, r) ∈ (m >>= k) t ↔ ∃ a s, (a, s) ∈ m t ∧ (b, r) ∈ k a s := by
  show (b, r) ∈ (m t).flatMap _ ↔ _
  simp [List.mem_flatMap]

theorem mem_lit {s t r : Text} {u : Unit} : (u, r) ∈ lit s t ↔ t = s ++ r := by
  unfold lit
  split
  · next h =>
    obtain ⟨t', rfl⟩ := List.isPrefixOf_iff_prefix.mp h
    simp [eq_comm]
  · next h =>
    rw [List.isPrefixOf_iff_prefix] at h
    refine iff_of_false List.not_mem_nil ?_
    rintro rfl
    exact h (List.prefix_append s r)

theorem mem_run {p : Char → Bool} {t w r : Text} :
    (w, r) ∈ run p t ↔ t = w ++ r ∧ ∀ c ∈ w, p c = true := by
  induction t generalizing w with
  | nil =>
    rw [run, List.mem_singleton, Prod.mk.injEq]
    constructor
    · rintro ⟨rfl, rfl⟩
      exact ⟨rfl, nofun⟩
    · rintro ⟨h, -⟩
      exact List.append_eq_nil_iff.mp h.symm
  | cons c t ih =>
    rw [run, List.mem_append]
    cases w with
    | nil =>
      refine ⟨?_, ?_⟩
      · rintro (h | h)
        · split at h <;> simp at h
        · simp only [List.mem_singleton, Prod.mk.injEq, true_and] at h
          exact ⟨h.symm, by simp⟩
      · rintro ⟨h, -⟩
        exact .inr (by rw [h]; simp)
    | cons d w =>
      constructor
      · rintro (h | h)
        · split at h
          · next hc =>
            simp only [List.mem_map, Prod.mk.injEq, Prod.exists, List.cons.injEq] at h
            obtain ⟨w', r', hmem, ⟨rfl, rfl⟩, rfl⟩ := h
            obtain ⟨rfl, hall⟩ := ih.mp hmem
            refine ⟨rfl, ?_⟩
            intro e he
            rcases List.mem_cons.mp he with rfl | he
            · exact hc
            · exact hall e he
          · cases h
        · simp at h
      · rintro ⟨h, hall⟩
        obtain ⟨rfl, rfl⟩ := List.cons.inj h
        rw [if_pos (hall c List.mem_cons_self)]
        refine .inl (List.mem_map.mpr ⟨(w, r), ih.mpr ⟨rfl, ?_⟩, rfl⟩)
        exact fun e he => hall e (List.mem_cons_of_mem _ he)

theorem mem_run1 {p : Char → Bool} {t w r : Text} :
    (w, r) ∈ run1 p t ↔ t = w ++ r ∧ w ≠ [] ∧ ∀ c ∈ w, p c = true := by
  rw [run1, List.mem_filter, mem_run]
  simp only [decide_eq_true_eq]
  exact ⟨fun h => ⟨h.1.1, h.2, h.1.2⟩, fun h => ⟨⟨h.1, h.2.2⟩, h.2.1⟩⟩

theorem mem_runIf {p : Char → Text → Bool} {t w r : Text} (h : (w, r) ∈ runIf p t) :
    t = w ++ r ∧ ∀ c ∈ w, ∃ s, p c s = true := by
  induction t generalizing w with
  | nil =>
    obtain ⟨rfl, rfl⟩ := Prod.mk.inj (List.mem_singleton.mp h)
    exact ⟨rfl, nofun⟩
  | cons c t ih =>
    rw [runIf, List.mem_append] at h
    rcases h with h | h
    · split at h
      · next hc =>
        obtain ⟨⟨w', r'⟩, hmem, heq⟩ := List.mem_map.mp h
        obtain ⟨rfl, rfl⟩ := Prod.mk.inj heq
        obtain ⟨rfl, hall⟩ := ih hmem
        refine ⟨rfl, fun d hd => ?_⟩
        rcases List.mem_cons.mp hd with rfl | hd
        · exact ⟨_, hc⟩
        · exact hall d hd
      · cases h
    · obtain ⟨rfl, rfl⟩ := Prod.mk.inj (List.mem_singleton.mp h)
      exact ⟨rfl, nofun⟩

theorem mem_runIf1 {p : Char → Text → Bool} {t w r : Text} (h : (w, r) ∈ runIf1 p t) :
    t = w ++ r ∧ w ≠ [] ∧ ∀ c ∈ w, ∃ s, p c s = true := by
  obtain ⟨hmem, hne⟩ := List.mem_filter.mp h
  exact ⟨(mem_runIf hmem).1, of_decide_eq_true hne, (mem_runIf hmem).2⟩

theorem mem_one {p : Char → Bool} {t r : Text} {c : Char} :
    (c, r) ∈ one p t ↔ t = c :: r ∧ p c = true := by
  cases t with
  | nil => simp [one]
  | cons d t =>
    rw [one]
    split
    · next hd =>
      rw [List.mem_singleton, Prod.mk.injEq]
      constructor
      · rintro ⟨rfl, rfl⟩
        exact ⟨rfl, hd⟩
      · rintro ⟨h, -⟩
        obtain ⟨rfl, rfl⟩ := List.cons.inj h
        exact ⟨rfl, rfl⟩
    · next hd =>
      refine iff_of_false List.not_mem_nil ?_
      rintro ⟨h, hc⟩
      obtain ⟨rfl, rfl⟩ := List.cons.inj h
      exact hd hc

theorem mem_opt {m : Pattern α} {t r : Text} {a : Option α} :
    (a, r) ∈ opt m t ↔ (∃ b, a = some b ∧ (b, r) ∈ m t) ∨ a = none ∧ r = t := by
  rw [opt, List.mem_append, List.mem_singleton, Prod.mk.injEq]
  refine or_congr_left ⟨?_, ?_⟩
  · intro h
    obtain ⟨⟨b, s⟩, hmem, heq⟩ := List.mem_map.mp h
    obtain ⟨rfl, rfl⟩ := Prod.mk.inj heq
    exact ⟨b, rfl, hmem⟩
  · rintro ⟨b, rfl, hmem⟩
    exact List.mem_map.mpr ⟨(b, r), hmem, rfl⟩

theorem mem_look {p : Text → Bool} {t r : Text} {u : Unit} :
    (u, r) ∈ look p t ↔ r = t ∧ p t = true := by
  rw [look]
  split
  · next h => simp [h]
  · next h => simp [h]

theorem mem_atEnd {t r : Text} {u : Unit} :
    (u, r) ∈ atEnd t ↔ r = t ∧ (t = [] ∨ t = ['\n']) := by
  rw [atEnd, mem_look, decide_eq_true_iff]

theorem mem_of_first {m : Pattern α} {t r : Text} {a : α} (h : first m t = some (a, r)) :
    (a, r) ∈ m t :=
  List.mem_of_head? h

theorem first_eq_none {m : Pattern α} {t : Text} : first m t = none ↔ ∀ p, p ∉ m t := by
  rw [first, List.head?_eq_none_iff, List.eq_nil_iff_forall_not_mem]

theorem first_isSome {m : Pattern α} {t : Text} : (first m t).isSome = true ↔ ∃ p, p ∈ m t := by
  rw [← Option.ne_none_iff_isSome, Ne, first_eq_none]
  exact not_forall_not

/-- A search finds a match where there is one. -/
theorem search_isSome {m : Pattern α} {t : Text} :
    (search m t).isSome = true ↔ ∃ b s, t = b ++ s ∧ (first m s).isSome = true := by
  induction t with
  | nil =>
    rw [search, Option.isSome_map]
    constructor
    · exact fun h => ⟨[], [], rfl, h⟩
    · rintro ⟨b, s, h, hs⟩
      obtain ⟨rfl, rfl⟩ := List.append_eq_nil_iff.mp h.symm
      exact hs
  | cons c t ih =>
    rw [search]
    split
    · next a r h => exact ⟨fun _ => ⟨[], c :: t, rfl, by rw [h]; rfl⟩, fun _ => rfl⟩
    · next h =>
      rw [Option.isSome_map, ih]
      constructor
      · rintro ⟨b, s, rfl, hs⟩
        exact ⟨c :: b, s, rfl, hs⟩
      · rintro ⟨b, s, heq, hs⟩
        cases b with
        | nil =>
          rw [← show c :: t = s from heq, h] at hs
          cases hs
        | cons d b => exact ⟨b, s, (List.cons.inj heq).2, hs⟩

theorem search_eq_some {m : Pattern α} {t b r : Text} {a : α}
    (h : search m t = some (b, a, r)) : ∃ s, t = b ++ s ∧ first m s = some (a, r) := by
  induction t generalizing b with
  | nil =>
    rw [search] at h
    obtain ⟨⟨a', r'⟩, hf, heq⟩ := Option.map_eq_some_iff.mp h
    cases heq
    exact ⟨[], rfl, hf⟩
  | cons c t ih =>
    rw [search] at h
    split at h
    · next a' r' hf =>
      cases h
      exact ⟨c :: t, rfl, hf⟩
    · obtain ⟨⟨b', a', r'⟩, hs, heq⟩ := Option.map_eq_some_iff.mp h
      cases heq
      obtain ⟨s, rfl, hf⟩ := ih hs
      exact ⟨s, rfl, hf⟩

/-! ## The first match -/

theorem first_bind {m : Pattern α} {k : α → Pattern β} {t s : Text} {a : α} {x : β × Text}
    (hm : first m t = some (a, s)) (hk : first (k a) s = some x) :
    first (m >>= k) t = some x := by
  obtain ⟨l, hl⟩ := List.head?_eq_some_iff.mp hm
  obtain ⟨l', hl'⟩ := List.head?_eq_some_iff.mp hk
  show ((m t).flatMap _).head? = _
  rw [hl, List.flatMap_cons, hl']
  rfl

theorem first_bind_pure (f : α → β) (m : Pattern α) (t : Text) :
    first (m >>= fun a => pure (f a)) t = (first m t).map fun p => (f p.1, p.2) := by
  show ((m t).flatMap fun p => [(f p.1, p.2)]).head? = _
  rw [← List.map_eq_flatMap, List.head?_map]
  rfl

/-- The search goes on with the first match of `m` behind which `k` matches. -/
theorem first_bind_eq_some {m : Pattern α} {k : α → Pattern β} {t : Text} {x : β × Text}
    (h : first (m >>= k) t = some x) : ∃ l a s l', m t = l ++ (a, s) :: l' ∧
      (∀ q ∈ l, k q.1 q.2 = []) ∧ first (k a) s = some x := by
  have h' : ((m t).flatMap fun q => k q.1 q.2).head? = some x := h
  generalize m t = matches' at h'
  induction matches' with
  | nil => cases h'
  | cons q qs ih =>
    obtain ⟨a, s⟩ := q
    rw [List.flatMap_cons] at h'
    rcases hk : k a s with _ | ⟨y, ys⟩
    · rw [hk, List.nil_append] at h'
      obtain ⟨l, a', s', l', rfl, hl, hfirst⟩ := ih h'
      refine ⟨(a, s) :: l, a', s', l', rfl, fun q hq => ?_, hfirst⟩
      rcases List.mem_cons.mp hq with rfl | hq
      · exact hk
      · exact hl q hq
    · rw [hk] at h'
      exact ⟨[], a, s, qs, rfl, by simp, by rw [first, hk]; exact h'⟩

/-- One of the matches of `m` is followed by the first match of `k`. -/
theorem mem_first_bind {m : Pattern α} {k : α → Pattern β} {t : Text} {x : β × Text}
    (h : first (m >>= k) t = some x) : ∃ a s, (a, s) ∈ m t ∧ first (k a) s = some x := by
  obtain ⟨l, a, s, l', hm, -, hk⟩ := first_bind_eq_some h
  exact ⟨a, s, by rw [hm]; exact List.mem_append_right _ List.mem_cons_self, hk⟩

theorem first_lit (s r : Text) : first (lit s) (s ++ r) = some ((), r) := by
  rw [first, lit, if_pos (List.isPrefixOf_iff_prefix.mpr (List.prefix_append s r)),
    List.drop_left]
  rfl

theorem first_opt {m : Pattern α} {t s : Text} {a : α} (h : first m t = some (a, s)) :
    first (opt m) t = some (some a, s) := by
  obtain ⟨l, hl⟩ := List.head?_eq_some_iff.mp h
  rw [first, opt, hl]
  rfl

theorem first_opt_none {m : Pattern α} {t : Text} (h : m t = []) :
    first (opt m) t = some (none, t) := by
  rw [first, opt, h]
  rfl

/-- The search goes on behind the first match of an optional group, when all matches of it
leave the same text and what follows does not look at what it captured. -/
theorem first_opt_bind {m : Pattern α} {k : Option α → Pattern β} {t : Text} {x : β × Text}
    (hrest : ∀ p ∈ m t, ∀ q ∈ m t, p.2 = q.2) (hk : ∀ a b s, k (some a) s = [] → k (some b) s = [])
    (h : first (opt m >>= k) t = some x) :
    (∃ a s, first m t = some (a, s) ∧ first (k (some a)) s = some x) ∨
      first (k none) t = some x := by
  have h' : ((opt m t).flatMap fun q => k q.1 q.2).head? = some x := h
  rw [opt, List.flatMap_append, List.flatMap_map, List.flatMap_singleton] at h'
  rcases hm : m t with _ | ⟨p, ps⟩
  · rw [hm] at h'
    exact .inr h'
  · rw [hm] at hrest h'
    rcases hp : k (some p.1) p.2 with _ | ⟨y, ys⟩
    · -- then no other match of the group is followed either
      refine .inr ?_
      have hnone : (p :: ps).flatMap (fun q => k (some q.1) q.2) = [] := by
        refine List.flatMap_eq_nil_iff.mpr fun q hq => ?_
        rw [← hrest p List.mem_cons_self q hq]
        exact hk p.1 q.1 p.2 hp
      rw [hnone] at h'
      exact h'
    · refine .inl ⟨p.1, p.2, by rw [first, hm]; rfl, ?_⟩
      rw [List.flatMap_cons, hp] at h'
      rw [first, hp]
      exact h'

theorem run_sorted (p : Char → Bool) (t : Text) :
    (run p t).Pairwise fun a b => b.1.length < a.1.length := by
  induction t with
  | nil => exact List.pairwise_singleton _ _
  | cons c t ih =>
    rw [run]
    split
    · refine List.pairwise_append.mpr ⟨?_, List.pairwise_singleton _ _, fun a ha b hb => ?_⟩
      · exact List.pairwise_map.mpr (ih.imp fun hlt => Nat.succ_lt_succ hlt)
      · obtain ⟨a', -, rfl⟩ := List.mem_map.mp ha
        rw [List.mem_singleton.mp hb]
        exact Nat.zero_lt_succ _
    · exact List.pairwise_singleton _ _

/-- The matches that a search has tried before come first in the order of `m`. -/
theorem first_bind_sorted {m : Pattern α} {k : α → Pattern β} {t : Text} {x : β × Text}
    {r : α × Text → α × Text → Prop} (hsorted : (m t).Pairwise r)
    (h : first (m >>= k) t = some x) : ∃ a s, (a, s) ∈ m t ∧ first (k a) s = some x ∧
      ∀ q ∈ m t, q ≠ (a, s) → ¬ r (a, s) q → k q.1 q.2 = [] := by
  obtain ⟨l, a, s, l', hm, hl, hk⟩ := first_bind_eq_some h
  rw [hm] at hsorted ⊢
  refine ⟨a, s, List.mem_append_right _ List.mem_cons_self, hk, fun q hq hne hnot => ?_⟩
  obtain ⟨-, htail, -⟩ := List.pairwise_append.mp hsorted
  rcases List.mem_append.mp hq with hq | hq
  · exact hl q hq
  · rcases List.mem_cons.mp hq with rfl | hq
    · exact absurd rfl hne
    · exact absurd (List.rel_of_pairwise_cons htail hq) hnot

/-- A repetition goes on with the longest match that can be followed. -/
theorem first_run_bind {p : Char → Bool} {k : Text → Pattern β} {t : Text} {x : β × Text}
    (h : first (run p >>= k) t = some x) : ∃ w r, (w, r) ∈ run p t ∧
      first (k w) r = some x ∧
      ∀ w' r', (w', r') ∈ run p t → w.length < w'.length → k w' r' = [] := by
  obtain ⟨w, r, hmem, hk, hbefore⟩ := first_bind_sorted (run_sorted p t) h
  refine ⟨w, r, hmem, hk, fun w' r' hw' hlt => hbefore (w', r') hw' ?_ (Nat.lt_asymm hlt)⟩
  intro heq
  rw [(Prod.mk.inj heq).1] at hlt
  exact Nat.lt_irrefl _ hlt

/-- A lazy repetition goes on with the shortest match that can be followed. -/
theorem first_lazyRun1_bind {p : Char → Bool} {k : Text → Pattern β} {t : Text} {x : β × Text}
    (h : first (lazyRun1 p >>= k) t = some x) : ∃ w r, (w, r) ∈ run1 p t ∧
      first (k w) r = some x ∧
      ∀ w' r', (w', r') ∈ run1 p t → w'.length < w.length → k w' r' = [] := by
  have hsorted : (lazyRun1 p t).Pairwise fun a b => a.1.length < b.1.length :=
    List.pairwise_reverse.mpr ((run_sorted p t).filter _)
  obtain ⟨w, r, hmem, hk, hbefore⟩ := first_bind_sorted hsorted h
  refine ⟨w, r, List.mem_reverse.mp hmem, hk, fun w' r' hw' hlt => ?_⟩
  refine hbefore (w', r') (List.mem_reverse.mpr hw') (fun heq => ?_) (Nat.lt_asymm hlt)
  rw [(Prod.mk.inj heq).1] at hlt
  exact Nat.lt_irrefl _ hlt

theorem first_run {p : Char → Bool} {w t : Text} (hw : ∀ c ∈ w, p c = true)
    (ht : ∀ c ∈ t.head?, p c = false) : first (run p) (w ++ t) = some (w, t) := by
  induction w with
  | nil =>
    cases t with
    | nil => rfl
    | cons c t =>
      rw [List.nil_append, first, run, if_neg (by rw [ht c rfl]; exact Bool.false_ne_true)]
      rfl
  | cons c w ih =>
    obtain ⟨l, hl⟩ := List.head?_eq_some_iff.mp (ih fun d hd => hw d (List.mem_cons_of_mem _ hd))
    rw [List.cons_append, first, run, if_pos (hw c List.mem_cons_self), hl]
    rfl

theorem first_run1 {p : Char → Bool} {w t : Text} (hne : w ≠ []) (hw : ∀ c ∈ w, p c = true)
    (ht : ∀ c ∈ t.head?, p c = false) : first (run1 p) (w ++ t) = some (w, t) := by
  obtain ⟨l, hl⟩ := List.head?_eq_some_iff.mp (first_run hw ht)
  rw [first, run1, hl, List.filter_cons_of_pos (by simpa using hne)]
  rfl

/-- The characters of the class, up to one that never belongs to it. -/
theorem first_runIf1 {p : Char → Text → Bool} {w t : Text} (hne : w ≠ [])
    (hw : ∀ c ∈ w, ∀ s, p c s = true) (ht : ∀ c ∈ t.head?, ∀ s, p c s = false) :
    first (runIf1 p) (w ++ t) = some (w, t) := by
  have hrun : ∃ l, runIf p (w ++ t) = (w, t) :: l := by
    clear hne
    induction w with
    | nil =>
      cases t with
      | nil => exact ⟨[], rfl⟩
      | cons c t =>
        rw [List.nil_append, runIf, if_neg (by rw [ht c rfl]; exact Bool.false_ne_true)]
        exact ⟨[], rfl⟩
    | cons c w ih =>
      obtain ⟨l, hl⟩ := ih fun d hd => hw d (List.mem_cons_of_mem _ hd)
      rw [List.cons_append, runIf, if_pos (hw c List.mem_cons_self _), hl]
      exact ⟨_, rfl⟩
  obtain ⟨l, hl⟩ := hrun
  rw [first, runIf1, hl, List.filter_cons_of_pos (by simpa using hne)]
  rfl

/-! ## Matches that do not look ahead -/

/-- The matches at the start of the text are the same whatever follows it. -/
def Local (m : Pattern α) (t : Text) : Prop :=
  ∀ r, m (t ++ r) = (m t).map fun p => (p.1, p.2 ++ r)

theorem Local.first_append {m : Pattern α} {t : Text} (h : Local m t) (r : Text) :
    first m (t ++ r) = (first m t).map fun p => (p.1, p.2 ++ r) := by
  rw [first, h r, List.head?_map]
  rfl

theorem local_pure (a : α) (t : Text) : Local (pure a : Pattern α) t := fun _ => rfl

theorem local_bind {m : Pattern α} {k : α → Pattern β} {t : Text} (hm : Local m t)
    (hk : ∀ a s, (a, s) ∈ m t → Local (k a) s) : Local (m >>= k) t := by
  intro r
  show (m (t ++ r)).flatMap _ = ((m t).flatMap _).map _
  rw [hm r, List.flatMap_map, List.map_flatMap]
  exact List.flatMap_congr fun p hp => hk p.1 p.2 hp r

theorem local_opt {m : Pattern α} {t : Text} (hm : Local m t) : Local (opt m) t := by
  intro r
  simp only [opt, hm r, List.map_append, List.map_map, List.map_cons, List.map_nil]
  rfl

theorem local_one {p : Char → Bool} {t : Text} (ht : t ≠ []) : Local (one p) t := by
  intro r
  cases t with
  | nil => exact absurd rfl ht
  | cons c t =>
    rw [List.cons_append, one, one]
    split <;> rfl

theorem local_lit {c : Char} {t : Text} (ht : t ≠ []) : Local (lit [c]) t := by
  intro r
  cases t with
  | nil => exact absurd rfl ht
  | cons d t =>
    simp only [lit, List.cons_append, List.isPrefixOf, Bool.and_true, List.length_singleton,
      List.drop_succ_cons, List.drop_zero]
    split <;> rfl

theorem local_run {p : Char → Bool} {t : Text} (ht : ∃ c ∈ t, p c = false) :
    Local (run p) t := by
  intro r
  induction t with
  | nil => exact absurd ht (by simp)
  | cons c t ih =>
    rw [List.cons_append, run, run, List.map_append]
    refine congrArg (· ++ _) ?_
    split
    · next hc =>
      obtain ⟨d, hd, hp⟩ := ht
      rcases List.mem_cons.mp hd with rfl | hd
      · rw [hc] at hp
        cases hp
      · rw [ih ⟨d, hd, hp⟩, List.map_map, List.map_map]
        rfl
    · rfl

/-- The class is left at the latest at a character that never belongs to it, and what it
looks at is before that. -/
theorem local_runIf1 {p : Char → Text → Bool} {t : Text}
    (ht : ∃ c ∈ t, ∀ s, p c s = false)
    (hp : ∀ c s r, s ≠ [] → p c (s ++ r) = p c s) : Local (runIf1 p) t := by
  have hrun : Local (runIf p) t := by
    intro r
    induction t with
    | nil => exact absurd ht (by simp)
    | cons c t ih =>
      rw [List.cons_append, runIf, runIf, List.map_append]
      refine congrArg (· ++ _) ?_
      obtain ⟨d, hd, hno⟩ := ht
      rcases List.mem_cons.mp hd with rfl | hd
      · rw [hno, hno]
        rfl
      · rw [hp c t r (List.ne_nil_of_mem hd)]
        split
        · rw [ih ⟨d, hd, hno⟩, List.map_map, List.map_map]
          rfl
        · rfl
  intro r
  rw [runIf1, runIf1, hrun r, List.filter_map]
  rfl

end Pattern
