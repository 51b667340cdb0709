import Mathlib.Data.List.Basic
import Mathlib.Data.Nat.ModEq
import Mathlib.Logic.Function.Basic

/-!
# Rings that count what waits

A ring of `n` slots with a place to write, a place to read and a counter that stops at `n`. A
writer that comes to a full ring goes on: the counter stays, and so does the place to read.

Results:
1. `run_eq`: what a reader gets in any run, in terms of what was written (`newest`).
2. `run_fits`: while no more than `n` wait, a reader gets what was written, in order and once.
-/

structure CountedRing (α : Type) where
  slots : Nat → α
  head : Nat
  tail : Nat
  pending : Nat

namespace CountedRing

variable {α : Type} {n : Nat} {r r' : CountedRing α} {a : α}

def empty (slots : Nat → α) : CountedRing α := ⟨slots, 0, 0, 0⟩

def put (n : Nat) (r : CountedRing α) (a : α) : CountedRing α :=
  { slots := Function.update r.slots r.tail a, head := r.head, tail := (r.tail + 1) % n,
    pending := if r.pending < n then r.pending + 1 else r.pending }

/-- `k` entries leave the ring. -/
def skip (n : Nat) (r : CountedRing α) (k : Nat) : CountedRing α :=
  { r with head := (r.head + k) % n, pending := r.pending - k }

def take (n : Nat) (r : CountedRing α) : Option (α × CountedRing α) :=
  if r.pending = 0 then none else some (r.slots r.head, skip n r 1)

/-! ## What was written -/

/-- All that was written to a ring, and how much of it is waiting or was read. -/
structure Log (α : Type) where
  puts : List α
  taken : Nat
  pending : Nat

/-- The last of the first `len` entries that was written to the slot of entry `d`. -/
def newest (n len d : Nat) : Nat := d + n * ((len - 1 - d) / n)

def Log.put (n : Nat) (l : Log α) (a : α) : Log α :=
  { l with puts := l.puts ++ [a], pending := if l.pending < n then l.pending + 1 else l.pending }

def Log.skip (l : Log α) (k : Nat) : Log α :=
  { l with taken := l.taken + k, pending := l.pending - k }

def Log.take (n : Nat) (l : Log α) : Option (α × Log α) :=
  if l.pending = 0 then none
  else l.puts[newest n l.puts.length l.taken]?.map fun a => (a, l.skip 1)

/-- The ring is what `l` says. -/
structure Follows (n : Nat) (l : Log α) (r : CountedRing α) : Prop where
  head : r.head = l.taken % n
  tail : r.tail = l.puts.length % n
  pending : r.pending = l.pending
  waiting : l.taken + l.pending ≤ l.puts.length
  slots : ∀ k (hk : k < l.puts.length), l.puts.length ≤ k + n → r.slots (k % n) = l.puts[k]

theorem follows_empty (n : Nat) (slots : Nat → α) : Follows n ⟨[], 0, 0⟩ (empty slots) where
  head := (Nat.zero_mod n).symm
  tail := (Nat.zero_mod n).symm
  pending := rfl
  waiting := Nat.le_refl 0
  slots := fun k hk => absurd hk (Nat.not_lt_zero k)

theorem Follows.put {l : Log α} (h : Follows n l r) (a : α) :
    Follows n (l.put n a) (put n r a) where
  head := h.head
  tail := by
    rw [Log.put, CountedRing.put, h.tail, List.length_append, List.length_singleton,
      Nat.mod_add_mod]
  pending := by
    rw [Log.put, CountedRing.put, h.pending]
  waiting := by
    have hwaiting := h.waiting
    rw [Log.put, List.length_append, List.length_singleton]
    dsimp only
    split <;> omega
  slots := by
    intro k hk hnew
    change k < (l.puts ++ [a]).length at hk
    change (l.puts ++ [a]).length ≤ k + n at hnew
    change Function.update r.slots r.tail a (k % n) = (l.puts ++ [a])[k]
    rw [List.length_append, List.length_singleton] at hk hnew
    rw [h.tail]
    rcases eq_or_ne k l.puts.length with rfl | hne
    · rw [Function.update_self, List.getElem_concat_length rfl]
    · have hlt : k < l.puts.length := by omega
      have hslot : k % n ≠ l.puts.length % n := by
        intro heq
        have hdvd : n ∣ l.puts.length - k := Nat.ModEq.dvd' heq
        have hle := Nat.le_of_dvd (Nat.sub_pos_of_lt hlt) hdvd
        omega
      rw [Function.update_of_ne hslot, List.getElem_append_left hlt]
      exact h.slots k hlt (by omega)

theorem Follows.skip {l : Log α} {k : Nat} (h : Follows n l r) (hk : k ≤ l.pending) :
    Follows n (l.skip k) (skip n r k) where
  head := by rw [CountedRing.skip, Log.skip, h.head, Nat.mod_add_mod]
  tail := h.tail
  pending := by rw [CountedRing.skip, Log.skip, h.pending]
  waiting := by
    have hwaiting := h.waiting
    rw [Log.skip]
    dsimp only
    omega
  slots := h.slots

theorem newest_spec (hn : 0 < n) {len d : Nat} (hd : d < len) :
    newest n len d < len ∧ len ≤ newest n len d + n ∧ newest n len d % n = d % n := by
  have hdiv := Nat.div_add_mod (len - 1 - d) n
  have hmod := Nat.mod_lt (len - 1 - d) hn
  rw [newest]
  refine ⟨by omega, by omega, ?_⟩
  rw [Nat.add_mul_mod_self_left]

theorem newest_eq_self {len d : Nat} (hlen : len ≤ d + n) (hd : d < len) : newest n len d = d := by
  have hlt : len - 1 - d < n := by omega
  rw [newest, Nat.div_eq_of_lt hlt, Nat.mul_zero, Nat.add_zero]

/-- The slot that is read next. -/
theorem Follows.head_slot {l : Log α} (hn : 0 < n) (h : Follows n l r)
    (hd : l.taken < l.puts.length) :
    l.puts[newest n l.puts.length l.taken]? = some (r.slots r.head) := by
  obtain ⟨hlt, hnew, hmod⟩ := newest_spec hn hd
  rw [List.getElem?_eq_getElem hlt, h.head, ← hmod, h.slots _ hlt hnew]

theorem Follows.take {l : Log α} (hn : 0 < n) (h : Follows n l r) :
    (CountedRing.take n r = none ∧ l.take n = none) ∨
      ∃ a r' l', CountedRing.take n r = some (a, r') ∧ l.take n = some (a, l') ∧
        Follows n l' r' := by
  rw [CountedRing.take, Log.take, h.pending]
  rcases Nat.eq_zero_or_pos l.pending with hzero | hpos
  · rw [if_pos hzero, if_pos hzero]
    exact .inl ⟨rfl, rfl⟩
  · have hd : l.taken < l.puts.length := by
      have hwaiting := h.waiting
      omega
    rw [if_neg (Nat.ne_of_gt hpos), if_neg (Nat.ne_of_gt hpos), h.head_slot hn hd, Option.map_some]
    exact .inr ⟨_, _, _, rfl, rfl, h.skip hpos⟩

/-! ## Runs -/

inductive Op (α : Type)
  | put (a : α)
  | take

/-- The entries that a run writes. -/
def puts : List (Op α) → List α
  | [] => []
  | .put a :: ops => a :: puts ops
  | .take :: ops => puts ops

/-- A run, with what the reader gets. -/
def run (n : Nat) : CountedRing α → List (Op α) → CountedRing α × List α
  | r, [] => (r, [])
  | r, .put a :: ops => run n (put n r a) ops
  | r, .take :: ops =>
    match take n r with
    | none => run n r ops
    | some (a, r') => ((run n r' ops).1, a :: (run n r' ops).2)

def Log.run (n : Nat) : Log α → List (Op α) → Log α × List α
  | l, [] => (l, [])
  | l, .put a :: ops => Log.run n (l.put n a) ops
  | l, .take :: ops =>
    match l.take n with
    | none => Log.run n l ops
    | some (a, l') => ((Log.run n l' ops).1, a :: (Log.run n l' ops).2)

theorem Follows.run (hn : 0 < n) (ops : List (Op α)) {l : Log α} {r : CountedRing α}
    (h : Follows n l r) :
    Follows n (l.run n ops).1 (CountedRing.run n r ops).1 ∧
      (CountedRing.run n r ops).2 = (l.run n ops).2 := by
  induction ops generalizing l r with
  | nil => exact ⟨h, rfl⟩
  | cons op ops ih =>
    cases op with
    | put a => exact ih (h.put a)
    | take =>
      rw [CountedRing.run, Log.run]
      rcases h.take hn with ⟨hr, hl⟩ | ⟨a, r', l', hr, hl, h'⟩
      · rw [hr, hl]
        exact ih h
      · rw [hr, hl]
        obtain ⟨hfollows, hout⟩ := ih h'
        exact ⟨hfollows, congrArg (a :: ·) hout⟩

/-- What a reader gets, in every run from an empty ring. -/
theorem run_eq (hn : 0 < n) (slots : Nat → α) (ops : List (Op α)) :
    (run n (empty slots) ops).2 = (Log.run n ⟨[], 0, 0⟩ ops).2 :=
  ((follows_empty n slots).run hn ops).2

theorem run_append (r : CountedRing α) (ops ops' : List (Op α)) :
    run n r (ops ++ ops') = ((run n (run n r ops).1 ops').1,
      (run n r ops).2 ++ (run n (run n r ops).1 ops').2) := by
  induction ops generalizing r with
  | nil => rfl
  | cons op ops ih =>
    cases op with
    | put a => exact ih _
    | take =>
      rw [List.cons_append, run, run]
      cases r.take n with
      | none => exact ih r
      | some x =>
        dsimp only
        rw [ih]
        rfl

theorem Log.run_counts (ops : List (Op α)) (l : Log α) :
    (l.run n ops).1.puts = l.puts ++ CountedRing.puts ops ∧
      (l.run n ops).1.taken = l.taken + (l.run n ops).2.length := by
  induction ops generalizing l with
  | nil => exact ⟨(List.append_nil _).symm, rfl⟩
  | cons op ops ih =>
    cases op with
    | put a =>
      obtain ⟨hputs, htaken⟩ := ih (l.put n a)
      refine ⟨?_, htaken⟩
      rw [Log.run, hputs, CountedRing.puts, Log.put, List.append_assoc, List.singleton_append]
    | take =>
      rw [Log.run]
      cases htake : l.take n with
      | none => exact ih l
      | some x =>
        obtain ⟨hputs, htaken⟩ := ih x.2
        have hskip : x.2 = l.skip 1 := by
          rw [Log.take] at htake
          split at htake
          · exact nomatch htake
          · obtain ⟨a, -, rfl⟩ := Option.map_eq_some_iff.mp htake
            rfl
        dsimp only
        rw [hputs, htaken, hskip, List.length_cons]
        refine ⟨rfl, ?_⟩
        rw [Log.skip, Nat.add_assoc, Nat.add_comm 1]

/-- When nothing waits any more, the next entry that is read is an earlier one, by as many entries
as were lost. -/
theorem run_after_loss (hn : 0 < n) (slots : Nat → α) (ops : List (Op α)) (a : α)
    (hempty : (run n (empty slots) ops).1.pending = 0) :
    ∃ x, (run n (empty slots) (ops ++ [.put a, .take])).2 =
        (run n (empty slots) ops).2 ++ [x] ∧
      (puts ops ++ [a])[(puts ops).length -
        ((puts ops).length - (run n (empty slots) ops).2.length) % n]? = some x := by
  obtain ⟨hfollows, hout⟩ := (follows_empty n slots).run hn ops
  obtain ⟨hputs, htaken⟩ := Log.run_counts (n := n) ops (⟨[], 0, 0⟩ : Log α)
  rw [List.nil_append] at hputs
  rw [Nat.zero_add] at htaken
  rw [run_append, hout]
  generalize Log.run n ⟨[], 0, 0⟩ ops = l at hfollows hputs htaken ⊢
  generalize (run n (empty slots) ops).1 = r at hfollows hempty ⊢
  have hput := hfollows.put a
  have hpending : (r.put n a).pending = 1 := by rw [put, hempty, if_pos hn]
  have hwaiting := hfollows.waiting
  have hlast : (l.1.put n a).taken < (l.1.put n a).puts.length := by
    rw [Log.put, List.length_append, List.length_singleton]
    dsimp only
    omega
  have hslot := hput.head_slot hn hlast
  have hnewest : newest n (l.1.put n a).puts.length (l.1.put n a).taken =
      (puts ops).length - ((puts ops).length - l.2.length) % n := by
    have hdiv := Nat.div_add_mod (l.1.puts.length - l.1.taken) n
    rw [newest, Log.put, List.length_append, List.length_singleton, Nat.add_sub_cancel, ← htaken,
      ← hputs]
    dsimp only
    omega
  refine ⟨(r.put n a).slots (r.put n a).head, ?_, ?_⟩
  · have htake : (r.put n a).take n =
        some ((r.put n a).slots (r.put n a).head, (r.put n a).skip n 1) := by
      rw [take, if_neg (by rw [hpending]; exact Nat.one_ne_zero)]
    rw [run, run, htake]
    rfl
  · rw [← hnewest, ← hslot, ← hputs]
    rfl

/-- Nothing is written while `n` entries wait. -/
def Fits (n : Nat) : Nat → List (Op α) → Prop
  | _, [] => True
  | p, .put _ :: ops => p < n ∧ Fits n (p + 1) ops
  | p, .take :: ops => Fits n (p - 1) ops

/-- No entry was lost so far. -/
def Log.Exact (n : Nat) (l : Log α) : Prop := l.puts.length = l.taken + l.pending ∧ l.pending ≤ n

theorem Log.Exact.put {l : Log α} (h : l.Exact n) (hp : l.pending < n) (a : α) :
    (l.put n a).Exact n ∧ (l.put n a).pending = l.pending + 1 := by
  obtain ⟨hlen, hle⟩ := h
  have hputs : (l.puts ++ [a]).length = l.taken + (l.pending + 1) := by
    rw [List.length_append, List.length_singleton, hlen, Nat.add_assoc]
  rw [Log.put, Log.Exact, if_pos hp]
  exact ⟨⟨hputs, hp⟩, rfl⟩

theorem Log.Exact.skip {l : Log α} {k : Nat} (h : l.Exact n) (hk : k ≤ l.pending) :
    (l.skip k).Exact n := by
  obtain ⟨hlen, hle⟩ := h
  rw [Log.skip, Log.Exact]
  dsimp only
  omega

theorem Log.Exact.take {l : Log α} (h : l.Exact n) (hp : 0 < l.pending) :
    ∃ a, l.puts[l.taken]? = some a ∧ l.take n = some (a, l.skip 1) := by
  obtain ⟨hlen, hle⟩ := h
  have hlt : l.taken < l.puts.length := by omega
  refine ⟨l.puts[l.taken], List.getElem?_eq_getElem hlt, ?_⟩
  rw [Log.take, if_neg (Nat.ne_of_gt hp), newest_eq_self (by omega) hlt,
    List.getElem?_eq_getElem hlt,
    Option.map_some]

/-- `k` entries from slot `i` on, without coming to the end of the ring. -/
def chunk (r : CountedRing α) (i k : Nat) : List α := (List.range k).map fun j => r.slots (i + j)

/-- What waits in the ring, in the order in which it will be read. -/
def queued (n : Nat) (r : CountedRing α) : List α :=
  (List.range r.pending).map fun j => r.slots ((r.head + j) % n)

/-- The slots of what waits, when nothing was lost. -/
theorem Follows.slot_of_exact {l : Log α} {j : Nat} (h : Follows n l r) (hexact : l.Exact n)
    (hj : j < l.pending) : ∃ hlt : l.taken + j < l.puts.length,
      r.slots ((r.head + j) % n) = l.puts[l.taken + j] := by
  obtain ⟨hlen, hle⟩ := hexact
  have hlt : l.taken + j < l.puts.length := by omega
  refine ⟨hlt, ?_⟩
  rw [h.head, Nat.mod_add_mod]
  exact h.slots _ hlt (by omega)

theorem Follows.head_of_exact {l : Log α} (h : Follows n l r) (hexact : l.Exact n)
    (hp : 0 < l.pending) : ∃ hlt : l.taken < l.puts.length, r.slots r.head = l.puts[l.taken] := by
  obtain ⟨hlt, hslot⟩ := h.slot_of_exact hexact hp
  refine ⟨hlt, ?_⟩
  rw [Nat.add_zero, h.head, Nat.mod_mod] at hslot
  rw [h.head, hslot]
  rfl

theorem Follows.queued_eq {l : Log α} (h : Follows n l r) (hexact : l.Exact n) :
    queued n r = l.puts.drop l.taken := by
  refine List.ext_getElem ?_ fun j hj hj' => ?_
  · rw [queued, List.length_map, List.length_range, List.length_drop, h.pending, hexact.1,
      Nat.add_sub_cancel_left]
  · rw [queued, List.length_map, List.length_range, h.pending] at hj
    obtain ⟨hlt, hslot⟩ := h.slot_of_exact hexact hj
    simp only [queued, List.getElem_map, List.getElem_range, hslot, List.getElem_drop]

theorem Follows.chunk_eq {l : Log α} {k : Nat} (h : Follows n l r) (hexact : l.Exact n)
    (hk : k ≤ l.pending) (hend : r.head + k ≤ n) :
    chunk r r.head k = (l.puts.drop l.taken).take k := by
  refine List.ext_getElem ?_ fun j hj hj' => ?_
  · rw [chunk, List.length_map, List.length_range, List.length_take, List.length_drop, hexact.1,
      Nat.add_sub_cancel_left, Nat.min_eq_left hk]
  · rw [chunk, List.length_map, List.length_range] at hj
    obtain ⟨hlt, hslot⟩ := h.slot_of_exact hexact (hj.trans_le hk)
    rw [Nat.mod_eq_of_lt (by omega)] at hslot
    simp only [chunk, List.getElem_map, List.getElem_range, hslot, List.getElem_take,
      List.getElem_drop]

theorem Log.run_fits {ops : List (Op α)} {l : Log α} (h : l.Exact n)
    (hfits : Fits n l.pending ops) :
    (l.run n ops).1.puts = l.puts ++ CountedRing.puts ops ∧ (l.run n ops).1.Exact n ∧
      l.puts.take l.taken ++ (l.run n ops).2 =
        (l.puts ++ CountedRing.puts ops).take (l.run n ops).1.taken := by
  induction ops generalizing l with
  | nil =>
    rw [Log.run, CountedRing.puts, List.append_nil, List.append_nil]
    exact ⟨rfl, h, rfl⟩
  | cons op ops ih =>
    cases op with
    | put a =>
      obtain ⟨hp, hfits⟩ := hfits
      obtain ⟨hexact, hpending⟩ := h.put hp a
      obtain ⟨hputs, hrun, hout⟩ := ih hexact (by rwa [hpending])
      have hlen : l.taken ≤ l.puts.length := by
        have hle := h.1
        omega
      have hcons : (l.put n a).puts ++ CountedRing.puts ops =
          l.puts ++ CountedRing.puts (.put a :: ops) := by
        rw [Log.put, CountedRing.puts, List.append_assoc, List.singleton_append]
      have htaken : (l.put n a).puts.take (l.put n a).taken = l.puts.take l.taken := by
        rw [Log.put, List.take_append_of_le_length hlen]
      rw [hcons] at hputs hout
      rw [htaken] at hout
      exact ⟨hputs, hrun, hout⟩
    | take =>
      rcases Nat.eq_zero_or_pos l.pending with hzero | hpos
      · have hnone : l.take n = none := if_pos hzero
        rw [Log.run, hnone]
        rw [Fits, hzero] at hfits
        exact ih h (by rwa [hzero])
      · obtain ⟨a, ha, htake⟩ := h.take hpos
        rw [Log.run, htake]
        obtain ⟨hputs, hrun, hout⟩ := ih (h.skip hpos) hfits
        refine ⟨hputs, hrun, ?_⟩
        have hsucc : l.puts.take (l.taken + 1) = l.puts.take l.taken ++ [a] := by
          rw [List.take_add_one, ha, Option.toList_some]
        rw [Log.skip, hsucc, List.append_assoc, List.singleton_append] at hout
        exact hout

/-- While the ring is never full at a writer, the reader gets the entries in order and once, and
what it did not get yet waits. -/
theorem run_fits (hn : 0 < n) (slots : Nat → α) {ops : List (Op α)} (hfits : Fits n 0 ops) :
    ∃ k, (run n (empty slots) ops).2 = (puts ops).take k ∧
      (run n (empty slots) ops).1.pending = (puts ops).length - k ∧ k ≤ (puts ops).length := by
  obtain ⟨hfollows, hout⟩ := (follows_empty n slots).run hn ops
  obtain ⟨hputs, ⟨hlen, -⟩, hfits'⟩ :=
    Log.run_fits (l := ⟨[], 0, 0⟩) ⟨rfl, Nat.zero_le n⟩ hfits
  rw [List.nil_append] at hputs hfits'
  rw [List.take_nil, List.nil_append] at hfits'
  rw [hputs] at hlen
  refine ⟨_, hout.trans hfits', ?_, by omega⟩
  rw [hfollows.pending]
  omega

end CountedRing
