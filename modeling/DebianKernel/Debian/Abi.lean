import DebianKernel.Lib.Lines
import DebianKernel.Lib.OrderedDict
import DebianKernel.Lib.Words
import Mathlib.Data.Char
import Mathlib.Data.List.Lex
import Mathlib.Data.List.Sort

/-!
# Symbol tables

`Symbol` and `Symbols` of `debian_linux/abi.py`: the table of exported symbols, in the
format of `Module.symvers`.

Results: `read_write`, a table that is written is read back.
-/

namespace DebianKernel.Debian

open Text

/-! ## Definitions -/

/-- `Symbol`. The fields are words of a line. -/
structure Symbol where
  name : Text
  module : Text
  version : Text
  exportType : Text
  isWord : ∀ w ∈ [name, module, version, exportType], IsWord w
  deriving DecidableEq

/-- `Symbol.__eq__`: the module does not count. -/
def Symbol.eq (s t : Symbol) : Bool :=
  s.name = t.name ∧ s.version = t.version ∧ s.exportType = t.exportType

/-- `Symbols`: every symbol is filed under its name. -/
structure Symbols where
  dict : OrderedDict Text Symbol
  keyed : ∀ p ∈ dict.entries, p.1 = p.2.name

namespace Symbols

def empty : Symbols := ⟨OrderedDict.empty, nofun⟩

/-- `self[name] = Symbol(name, …)`. -/
def add (t : Symbols) (s : Symbol) : Symbols :=
  ⟨t.dict.set s.name s, fun p hp => by
    rcases OrderedDict.mem_setEntries hp with rfl | hp
    · rfl
    · exact t.keyed p hp⟩

def get? (t : Symbols) (name : Text) : Option Symbol := t.dict.get? name

/-- `self.values()`. -/
def values (t : Symbols) : List Symbol := t.dict.entries.map Prod.snd

/-- `version, name, module, export = line.strip().split()`. -/
def readLine (line : Text) : Option Symbol :=
  match h : words (strip line) with
  | [version, name, module, exportType] => some {
      name, module, version, exportType
      isWord := fun w hw => isWord_of_mem_words (t := strip line) (by
        rw [h]
        simp only [List.mem_cons, List.not_mem_nil, or_false] at hw ⊢
        rcases hw with hw | hw | hw | hw <;> simp [hw]) }
  | _ => none

/-- `read`, for the lines of a file. `none` when it raises. -/
def readLines (t : Symbols) (ls : List Text) : Option Symbols :=
  ls.foldlM (fun t line => (readLine line).map t.add) t

/-- `Symbols(file)`. -/
def read (file : Text) : Option Symbols := readLines empty (lines file)

/-- `"%s %s %s %s\n"`. -/
def writeSymbol (s : Symbol) : Text :=
  s.version ++ ' ' :: s.name ++ ' ' :: s.module ++ ' ' :: s.exportType ++ ['\n']

/-- `sorted(self.values(), key=lambda i: i.name)`. -/
def sorted (t : Symbols) : List Symbol := t.values.insertionSort fun s s' => s.name ≤ s'.name

/-- `write`. -/
def write (t : Symbols) : Text := (t.sorted.map writeSymbol).flatten

end Symbols

/-! ## Tables -/

namespace Symbols

theorem get?_add_self (t : Symbols) (s : Symbol) : (t.add s).get? s.name = some s :=
  OrderedDict.get?_set_self _ _ _

theorem get?_add_ne (t : Symbols) {s : Symbol} {name : Text} (h : name ≠ s.name) :
    (t.add s).get? name = t.get? name :=
  OrderedDict.get?_set_ne _ _ h

theorem mem_values {t : Symbols} {s : Symbol} : s ∈ t.values ↔ t.get? s.name = some s := by
  rw [values, get?, OrderedDict.get?_eq_some_iff, List.mem_map]
  constructor
  · rintro ⟨p, hp, rfl⟩
    rw [← t.keyed p hp]
    exact hp
  · exact fun h => ⟨_, h, rfl⟩

theorem name_of_get? {t : Symbols} {name : Text} {s : Symbol} (h : t.get? name = some s) :
    s.name = name :=
  (t.keyed _ ((OrderedDict.get?_eq_some_iff _).mp h)).symm

theorem nodup_values (t : Symbols) : (t.values.map Symbol.name).Nodup := by
  have hkeys : t.values.map Symbol.name = t.dict.entries.map Prod.fst := by
    rw [values, List.map_map]
    exact List.map_congr_left fun p hp => (t.keyed p hp).symm
  rw [hkeys]
  exact t.dict.nodup

/-- What is found after symbols of different names are added. -/
theorem get?_foldl_add {ss : List Symbol} (h : (ss.map Symbol.name).Nodup) (t : Symbols) :
    (∀ s ∈ ss, (ss.foldl add t).get? s.name = some s) ∧
      ∀ name, name ∉ ss.map Symbol.name → (ss.foldl add t).get? name = t.get? name := by
  induction ss generalizing t with
  | nil => exact ⟨nofun, fun _ _ => rfl⟩
  | cons s ss ih =>
    rw [List.map_cons, List.nodup_cons] at h
    obtain ⟨hmem, hother⟩ := ih h.2 (t.add s)
    rw [List.foldl_cons]
    constructor
    · intro s' hs'
      rcases List.mem_cons.mp hs' with rfl | hs'
      · rw [hother _ h.1, get?_add_self]
      · exact hmem s' hs'
    · intro name hname
      rw [List.map_cons, List.mem_cons, not_or] at hname
      rw [hother name hname.2, get?_add_ne _ hname.1]

end Symbols

/-! ## Reading back -/

namespace AbiLemmas

open Symbols

theorem isLine_writeSymbol (s : Symbol) : IsLine (writeSymbol s) := by
  have hword : ∀ w ∈ [s.name, s.module, s.version, s.exportType], '\n' ∉ w := by
    intro w hw hmem
    have := (s.isWord w hw).2 _ hmem
    cases this
  refine ⟨s.version ++ ' ' :: s.name ++ ' ' :: s.module ++ ' ' :: s.exportType, ?_, rfl⟩
  simp only [List.mem_append, List.mem_cons, not_or]
  have h := fun w hw => hword w hw
  exact ⟨⟨⟨h s.version (by simp), by decide, h s.name (by simp)⟩, by decide,
    h s.module (by simp)⟩, by decide, h s.exportType (by simp)⟩

theorem words_writeSymbol (s : Symbol) :
    words (strip (writeSymbol s)) = [s.version, s.name, s.module, s.exportType] := by
  have hword := s.isWord
  have hline : writeSymbol s =
      s.version ++ ' ' :: (s.name ++ ' ' :: (s.module ++ ' ' :: (s.exportType ++ ['\n']))) := by
    simp [writeSymbol]
  rw [words_strip, hline, words_append_space (hword _ (by simp)) rfl,
    words_append_space (hword _ (by simp)) rfl, words_append_space (hword _ (by simp)) rfl,
    words_append_space (hword _ (by simp)) rfl, words_nil]

theorem readLine_writeSymbol (s : Symbol) : Symbols.readLine (writeSymbol s) = some s := by
  have hwords := words_writeSymbol s
  unfold Symbols.readLine
  split
  · next version name module exportType h =>
    rw [h] at hwords
    simp only [List.cons.injEq, and_true] at hwords
    obtain ⟨rfl, rfl, rfl, rfl⟩ := hwords
    rfl
  · next hne => exact absurd hwords (hne _ _ _ _)

theorem readLines_writeSymbol (ss : List Symbol) (t : Symbols) :
    readLines t (ss.map writeSymbol) = some (ss.foldl add t) := by
  induction ss generalizing t with
  | nil => rfl
  | cons s ss ih =>
    rw [readLines, List.map_cons, List.foldlM_cons, readLine_writeSymbol]
    exact ih (t.add s)

end AbiLemmas

open AbiLemmas

/-- A table that is written is read back, with the same symbol under every name. -/
theorem Symbols.read_write (t : Symbols) :
    ∃ t', read (write t) = some t' ∧ ∀ name, t'.get? name = t.get? name := by
  have hperm : t.sorted.Perm t.values := List.perm_insertionSort _ _
  have hnodup : (t.sorted.map Symbol.name).Nodup :=
    (hperm.map Symbol.name).nodup_iff.mpr t.nodup_values
  obtain ⟨hmem, hother⟩ := get?_foldl_add hnodup Symbols.empty
  refine ⟨t.sorted.foldl add Symbols.empty, ?_, ?_⟩
  · rw [read, write, lines_flatten, readLines_writeSymbol]
    intro l hl
    obtain ⟨s, -, rfl⟩ := List.mem_map.mp hl
    exact isLine_writeSymbol s
  · intro name
    cases hget : t.get? name with
    | some s =>
      have hs : s ∈ t.sorted := hperm.mem_iff.mpr (mem_values.mpr (by rw [name_of_get? hget, hget]))
      rw [← name_of_get? hget, hmem s hs]
    | none =>
      refine hother name ?_
      intro hname
      obtain ⟨s, hs, rfl⟩ := List.mem_map.mp hname
      rw [mem_values.mp (hperm.mem_iff.mp hs)] at hget
      cases hget

end DebianKernel.Debian
