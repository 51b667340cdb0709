import DebianKernel.DiskId.LiloItem
import DebianKernel.DiskId.LineUpdate
import Mathlib.Data.List.Forall2

/-!
# Rewriting lilo.conf

`lilo_list` and `_lilo_update` walk over the same tokens. The output is read back part by
part. Besides the values that are not printable, the newline behind a rewritten item does
harm: it is a token, which an equals sign behind it takes for a name.

Results:
1. `tokenizes_written`: the tokens of every output.
2. `printable_of_values`: the new values are read only if all of them are printable.
3. `entries_readBack_iff`: when the entries of the output are the wanted ones.
4. `liloList_eq_devices`: the devices of the parts are those that `lilo_list` lists.
5. `lilo_update_maps_iff`: the update maps the generic items and nothing else if and only
   if each new value is printable and no equals sign stands behind it.
-/

namespace DebianKernel.DiskId

open Text

/-! ## `lilo_list` -/

/-- What is pushed for an item of a generic section. -/
def liloItemDevices (name value : Text) : List Text :=
  if wholeMatch "boot" name || wholeMatch "root" name then [value]
  else if wholeMatch "addappend" name || wholeMatch "append" name || wholeMatch "literal" name then
    kernelList value
  else []

/-- The loop of `lilo_list` over the tokens. -/
def liloListLoop : Bool → List LiloToken → List Text
  | generic, t₁ :: t₂ :: t₃ :: rest =>
    if t₂.value = some ['='] then
      match t₁.value, t₃.value with
      | some name, some value =>
        (if name = "image" ∨ !generic then [] else liloItemDevices name value) ++
          liloListLoop (liloGeneric generic name value) rest
      | _, _ => liloListLoop generic rest
    else liloListLoop generic (t₂ :: t₃ :: rest)
  | generic, _ :: rest => liloListLoop generic rest
  | _, [] => []

/-- `lilo_list`. -/
def liloList (file : Text) : List Text := liloListLoop true (liloTokenize file)

/-! ## Ids -/

/-- The map gives ids without whitespace, quotes, backslashes, hashes and dollar signs. -/
def DeviceMap.Plain (map : DeviceMap) : Prop :=
  ∀ bdev id, map bdev = some id → IsId id ∧
    ∀ c ∈ id, isSpace c = false ∧ c ≠ '"' ∧ c ≠ '\\' ∧ c ≠ '#' ∧ c ≠ '$'

/-! ## The walk over the tokens -/

/-- What the loops take in one round: a token alone, or the three tokens of an item, with
its name and value where both are defined. `generic` is `$in_generic` in front of it. -/
structure LiloPart where
  tokens : List LiloToken
  entry : Option (Text × Text)
  generic : Bool
  rest : List LiloToken

/-- The rounds of the loops. -/
def liloParts : Bool → List LiloToken → List LiloPart
  | generic, t₁ :: t₂ :: t₃ :: rest =>
    if t₂.value = some ['='] then
      match t₁.value, t₃.value with
      | some name, some value =>
        ⟨[t₁, t₂, t₃], some (name, value), generic, rest⟩ ::
          liloParts (liloGeneric generic name value) rest
      | _, _ => ⟨[t₁, t₂, t₃], none, generic, rest⟩ :: liloParts generic rest
    else ⟨[t₁], none, generic, t₂ :: t₃ :: rest⟩ :: liloParts generic (t₂ :: t₃ :: rest)
  | generic, t₁ :: rest => ⟨[t₁], none, generic, rest⟩ :: liloParts generic rest
  | _, [] => []

/-- A name alone, or a name and a value, as they are read. -/
inductive LiloEntry
  | alone (value : Option Text)
  | item (name value : Option Text)
  deriving DecidableEq

/-- The entries of a file, without the sections. -/
def liloEntries : List LiloToken → List LiloEntry
  | t₁ :: t₂ :: t₃ :: rest =>
    if t₂.value = some ['='] then .item t₁.value t₃.value :: liloEntries rest
    else .alone t₁.value :: liloEntries (t₂ :: t₃ :: rest)
  | t₁ :: rest => .alone t₁.value :: liloEntries rest
  | [] => []

/-! ## What the updates are for -/

/-- What an item of a generic section is to get for its value: the path of the id, the id,
or the updated kernel parameters. -/
def liloMapped (map : DeviceMap) (name value : Text) : Option Text :=
  if name = "boot" then (map value).bind idToPath
  else if name = "root" then map value
  else if name = "addappend" ∨ name = "append" ∨ name = "literal" then kernelUpdate value map
  else none

namespace LiloPart

/-- The name and the new value of an item that is to be rewritten. -/
def rewritten (map : DeviceMap) (p : LiloPart) : Option (Text × Text) :=
  p.entry.bind fun e => if p.generic then (liloMapped map e.1 e.2).map (e.1, ·) else none

/-- The devices that are to be listed. -/
def devices (map : DeviceMap) (p : LiloPart) : List Text :=
  match p.entry with
  | some (name, value) =>
    if p.generic then liloItemDevices name ((liloMapped map name value).getD value) else []
  | none => []

/-- The entries that are to be read. -/
def entries (map : DeviceMap) (p : LiloPart) : List LiloEntry :=
  match p.rewritten map with
  | some (name, new) => [.item (some name) (some new)]
  | none => liloEntries p.tokens

/-- The tokens that may stand in place of the part: among blanks and comments, the name, an
equals sign and the new value, or else the same tokens. -/
def Becomes (map : DeviceMap) (p : LiloPart) (ts : List LiloToken) : Prop :=
  match p.rewritten map with
  | some (name, new) => ts.filterMap (·.value) = [name, ['='], new]
  | none => ts = p.tokens

end LiloPart

/-- The entries without the blanks, the comments and what is not expanded. -/
def definedEntries (es : List LiloEntry) : List LiloEntry := es.filter (· ≠ .alone none)

/-- The update has mapped the items of the generic sections, and nothing else. -/
structure LiloFaithful (map : DeviceMap) (old new : Text) : Prop where
  devices : liloList new = (liloParts true (liloTokenize old)).flatMap (·.devices map)
  entries : definedEntries (liloEntries (liloTokenize new)) =
    definedEntries ((liloParts true (liloTokenize old)).flatMap (·.entries map))
  tokens : ∃ pieces : List (List LiloToken), liloTokenize new = pieces.flatten ∧
    List.Forall₂ (LiloPart.Becomes map) (liloParts true (liloTokenize old)) pieces

/-! ## When they do it -/

/-- An equals sign and at least one more token. -/
def StartsEquals : List LiloToken → Prop
  | t₁ :: _ :: _ => t₁.value = some ['=']
  | _ => False

instance : DecidablePred StartsEquals
  | [] => inferInstanceAs (Decidable False)
  | [_] => inferInstanceAs (Decidable False)
  | t₁ :: _ :: _ => inferInstanceAs (Decidable (t₁.value = some ['=']))

/-- Each new value can be read back, and no equals sign stands behind an item that gets one. -/
def LiloSafe (loader : LiloLoader) (map : DeviceMap) (file : Text) : Prop :=
  ∀ p ∈ liloParts true (liloTokenize file), ∀ name new, p.rewritten map = some (name, new) →
    Printable loader name new ∧ ¬ StartsEquals p.rest

instance (loader : LiloLoader) (map : DeviceMap) (file : Text) :
    Decidable (LiloSafe loader map file) :=
  decidable_of_iff (∀ p ∈ liloParts true (liloTokenize file), ∀ e ∈ p.rewritten map,
    Printable loader e.1 e.2 ∧ ¬ StartsEquals p.rest)
    ⟨fun h p hp _ _ hnew => h p hp _ hnew, fun h p hp e he => h p hp e.1 e.2 he⟩

/-! ## The output -/

namespace LiloPart

/-- The text that is printed for a part. -/
def written (loader : LiloLoader) (map : DeviceMap) (p : LiloPart) : Text :=
  match p.entry with
  | some (name, value) =>
    liloItemText loader.replace (p.tokens.flatMap (·.text)) name value
      ((p.rewritten map).map Prod.snd)
  | none => p.tokens.flatMap (·.text)

/-- The tokens that are read of it. -/
def readBack (loader : LiloLoader) (map : DeviceMap) (p : LiloPart) : List LiloToken :=
  match p.entry, p.rewritten map with
  | some (_, value), some (name, new) =>
    (loader.itemMatches name value new).map LiloItemLemmas.aloneToken
  | _, _ => p.tokens

end LiloPart

namespace LiloUpdateLemmas

open LiloTextLemmas LiloItemLemmas

/-! ### The new values -/

theorem wholeMatch_of_no_newline {name t : Text} (h : '\n' ∉ t) :
    wholeMatch name t = decide (t = name) := by
  unfold wholeMatch
  have hno : t ≠ name ++ ['\n'] := by
    rintro rfl
    exact h (List.mem_append_right _ List.mem_cons_self)
  exact decide_eq_decide.mpr (or_iff_left hno)

theorem plainPath_of_id {map : DeviceMap} (hmap : map.Plain) {bdev id : Text}
    (h : map bdev = some id) : ∃ path, idToPath id = some path ∧ PlainPath path := by
  obtain ⟨hid, hplain⟩ := hmap bdev id h
  have happend (dir rest : Text) (hdir : ∀ c ∈ dir, isSpace c = false ∧ c ≠ '"' ∧ c ≠ '\\' ∧
      c ≠ '#' ∧ c ≠ '$') (hrest : ∀ c ∈ rest, c ∈ id) :
      ∀ c ∈ dir ++ rest, isSpace c = false ∧ c ≠ '"' ∧ c ≠ '\\' ∧ c ≠ '#' ∧ c ≠ '$' := by
    intro c hc
    rcases List.mem_append.mp hc with hc | hc
    · exact hdir c hc
    · exact hplain c (hrest c hc)
  rcases hid with ⟨label, rfl⟩ | ⟨uuid, rfl⟩ | ⟨path, rfl⟩
  · exact ⟨"/dev/disk/by-label/" ++ label, rfl, rfl,
      happend _ _ (forall_mem_of_all (by decide)) fun _ hc => List.mem_append_right _ hc⟩
  · exact ⟨"/dev/disk/by-uuid/" ++ uuid, rfl, rfl,
      happend _ _ (forall_mem_of_all (by decide)) fun _ hc => List.mem_append_right _ hc⟩
  · exact ⟨'/' :: path, rfl, rfl, hplain⟩

theorem mem_liloNames {map : DeviceMap} {name value new : Text}
    (h : liloMapped map name value = some new) : name ∈ liloNames := by
  unfold liloMapped at h
  split at h
  · next hname => simp [liloNames, hname]
  · split at h
    · next hname => simp [liloNames, hname]
    · split at h
      · next hname => rcases hname with hname | hname | hname <;> simp [liloNames, hname]
      · cases h

theorem newValue_of_mapped (loader : LiloLoader) {map : DeviceMap} (hmap : map.Plain)
    {name value new : Text} (hvalue : '\n' ∉ value) (h : liloMapped map name value = some new) :
    LiloNewValue loader name new := by
  have hnewline {t : Text} (ht : ∀ c ∈ t, isSpace c = false) : '\n' ∉ t :=
    fun hmem => absurd (ht _ hmem) (by decide)
  have hid {bdev id : Text} (hmem : map bdev = some id) : ∀ c ∈ id, isSpace c = false :=
    fun c hc => ((hmap bdev id hmem).2 c hc).1
  unfold liloMapped at h
  split at h
  · obtain ⟨id, hmem, hpath⟩ := Option.bind_eq_some_iff.mp h
    obtain ⟨path, hpath', hplain⟩ := plainPath_of_id hmap hmem
    obtain rfl : path = new := Option.some.inj (hpath'.symm.trans hpath)
    exact ⟨hnewline fun c hc => (hplain.plain c hc).1, fun _ => hplain⟩
  · next hboot =>
    refine ⟨?_, fun hbare => absurd (of_decide_eq_true hbare).2 hboot⟩
    split at h
    · exact hnewline (hid h)
    · split at h
      · intro hmem
        rcases kernelUpdate_chars h hmem with hmem | ⟨bdev, id, hmap', hmem⟩
        · exact hvalue hmem
        · exact hnewline (hid hmap') hmem
      · cases h

/-- The value that the update looks for is the one that the item is to get. -/
theorem liloNewValue_eq {map : DeviceMap} (hmap : map.Plain) (generic : Bool) {name : Text}
    (hname : '\n' ∉ name) (value : Text) :
    liloNewValue map generic name value =
      some (if generic then liloMapped map name value else none) := by
  unfold liloNewValue liloMapped
  rw [wholeMatch_of_no_newline hname, wholeMatch_of_no_newline hname,
    wholeMatch_of_no_newline hname]
  cases generic with
  | false => simp
  | true =>
    by_cases himage : name = "image"
    · subst himage
      rfl
    rw [if_neg (by simpa using himage), if_pos rfl]
    split
    · cases hid : map value with
      | none => rfl
      | some id =>
        obtain ⟨path, hpath, -⟩ := plainPath_of_id hmap hid
        have hzero : ¬ (id = [] ∨ id = "0") := by
          rintro (rfl | rfl) <;> cases hpath
        dsimp only
        rw [if_neg hzero, hpath, Option.bind_some, hpath]
        rfl
    · split
      · rfl
      · simp only [Bool.or_eq_true, decide_eq_true_eq, or_assoc]
        split <;> rfl

/-! ### The parts of a list of tokens -/

theorem liloParts_tokens (generic : Bool) (ts : List LiloToken) :
    (liloParts generic ts).flatMap (·.tokens) = ts := by
  fun_induction liloParts generic ts with
  | case1 generic t₁ t₂ t₃ rest heq name value hvalue hname ih =>
    rw [List.flatMap_cons, ih]
    rfl
  | case2 generic t₁ t₂ t₃ rest heq hno ih =>
    rw [List.flatMap_cons, ih]
    rfl
  | case3 generic t₁ t₂ t₃ rest hne ih =>
    rw [List.flatMap_cons, ih]
    rfl
  | case4 generic t₁ rest hshort ih =>
    rw [List.flatMap_cons, ih]
    rfl
  | case5 => rfl

/-- What every part of lossless tokens is like. -/
structure PartFacts (p : LiloPart) : Prop where
  tokens_ne : p.tokens ≠ []
  newline : ∀ name value, p.entry = some (name, value) → '\n' ∉ name ∧ '\n' ∉ value

theorem partFacts {generic : Bool} {ts : List LiloToken}
    (h : ∀ t ∈ ts, ∀ v ∈ t.value, '\n' ∉ v) : ∀ p ∈ liloParts generic ts, PartFacts p := by
  have hcons {p : LiloPart} {ps : List LiloPart} (hp : PartFacts p) (hps : ∀ p ∈ ps, PartFacts p) :
      ∀ q ∈ p :: ps, PartFacts q := by
    intro q hq
    rcases List.mem_cons.mp hq with rfl | hq
    · exact hp
    · exact hps q hq
  fun_induction liloParts generic ts with
  | case1 generic t₁ t₂ t₃ rest heq name value hvalue hname ih =>
    refine hcons ⟨List.cons_ne_nil _ _, ?_⟩ (ih fun t ht => h t (by simp [ht]))
    intro name' value' hentry
    obtain ⟨rfl, rfl⟩ := Prod.mk.inj (Option.some.inj hentry)
    exact ⟨h t₁ (by simp) _ hname, h t₃ (by simp) _ hvalue⟩
  | case2 generic t₁ t₂ t₃ rest heq hno ih =>
    exact hcons ⟨List.cons_ne_nil _ _, fun _ _ hentry => by cases hentry⟩
      (ih fun t ht => h t (by simp [ht]))
  | case3 generic t₁ t₂ t₃ rest hne ih =>
    exact hcons ⟨List.cons_ne_nil _ _, fun _ _ hentry => by cases hentry⟩
      (ih fun t ht => h t (List.mem_cons_of_mem _ ht))
  | case4 generic t₁ rest hshort ih =>
    exact hcons ⟨List.cons_ne_nil _ _, fun _ _ hentry => by cases hentry⟩
      (ih fun t ht => h t (List.mem_cons_of_mem _ ht))
  | case5 => exact fun p hp => absurd hp List.not_mem_nil

theorem rewritten_eq_some {map : DeviceMap} {p : LiloPart} {name new : Text}
    (h : p.rewritten map = some (name, new)) :
    ∃ value, p.entry = some (name, value) ∧ p.generic = true ∧
      liloMapped map name value = some new := by
  unfold LiloPart.rewritten at h
  obtain ⟨⟨name', value⟩, hentry, h⟩ := Option.bind_eq_some_iff.mp h
  split at h
  · next hgeneric =>
    obtain ⟨new', hnew, heq⟩ := Option.map_eq_some_iff.mp h
    obtain ⟨rfl, rfl⟩ := Prod.mk.inj heq
    exact ⟨value, hentry, hgeneric, hnew⟩
  · cases h

/-- The update prints the parts one behind the other. -/
theorem updateLoop_parts (loader : LiloLoader) {map : DeviceMap} (hmap : map.Plain) (generic : Bool)
    {ts : List LiloToken} (h : ∀ t ∈ ts, ∀ v ∈ t.value, '\n' ∉ v) :
    liloUpdateLoop map loader.replace generic ts =
      some ((liloParts generic ts).flatMap (·.written loader map)) := by
  fun_induction liloParts generic ts with
  | case1 generic t₁ t₂ t₃ rest heq name value hvalue hname ih =>
    have hnew := liloNewValue_eq hmap generic (h t₁ (by simp) _ hname) value
    have hwritten (p : LiloPart) (hp : p = ⟨[t₁, t₂, t₃], some (name, value), generic, rest⟩) :
        liloItemText loader.replace (t₁.text ++ (t₂.text ++ t₃.text)) name value
          (if generic then liloMapped map name value else none) = p.written loader map := by
      subst hp
      unfold LiloPart.written LiloPart.rewritten
      simp only [Option.bind_some, List.flatMap_cons, List.flatMap_nil, List.append_nil]
      cases generic with
      | false => rfl
      | true =>
        cases hmapped : liloMapped map name value <;> rfl
    rw [liloUpdateLoop, if_pos heq, hname, hvalue]
    dsimp only
    rw [hnew, ih fun t ht => h t (by simp [ht]), List.flatMap_cons, ← hwritten _ rfl]
    rfl
  | case2 generic t₁ t₂ t₃ rest heq hno ih =>
    rw [liloUpdateLoop, if_pos heq]
    split
    · next hname hvalue => exact absurd hvalue (hno _ _ hname)
    · rw [ih fun t ht => h t (by simp [ht]), List.flatMap_cons]
      simp [LiloPart.written]
  | case3 generic t₁ t₂ t₃ rest hne ih =>
    rw [liloUpdateLoop, if_neg hne, ih fun t ht => h t (List.mem_cons_of_mem _ ht),
      List.flatMap_cons]
    simp [LiloPart.written]
  | case4 generic t₁ rest hshort ih =>
    rw [liloUpdateLoop, ih fun t ht => h t (List.mem_cons_of_mem _ ht), List.flatMap_cons]
    · simp [LiloPart.written]
    · exact hshort
  | case5 => rfl

/-! ### The tokens of every output -/

theorem read_facts {ts : List LiloToken} (h : TokensRead ts) :
    ∀ t ∈ ts, t.text ≠ [] ∧ ∀ v ∈ t.value, '\n' ∉ v := by
  induction ts with
  | nil => exact fun t ht => absurd ht List.not_mem_nil
  | cons t ts ih =>
    obtain ⟨⟨ms, htoken, -⟩, hrest⟩ := h
    intro t' ht'
    rcases List.mem_cons.mp ht' with rfl | ht'
    · exact ⟨htoken.text_ne, htoken.newline⟩
    · exact ih hrest t' ht'

theorem tokensRead_right {ts us : List LiloToken} (h : TokensRead (ts ++ us)) : TokensRead us := by
  induction ts with
  | nil => exact h
  | cons t ts ih => exact ih h.2

theorem kept_eq (loader : LiloLoader) {map : DeviceMap} {p : LiloPart}
    (h : p.rewritten map = none) :
    p.written loader map = p.tokens.flatMap (·.text) ∧ p.readBack loader map = p.tokens := by
  unfold LiloPart.written LiloPart.readBack
  rw [h]
  cases p.entry <;> exact ⟨rfl, rfl⟩

theorem changed_eq (loader : LiloLoader) {map : DeviceMap} {p : LiloPart} {name value new : Text}
    (hentry : p.entry = some (name, value)) (h : p.rewritten map = some (name, new)) :
    p.written loader map =
        liloItemText loader.replace (p.tokens.flatMap (·.text)) name value (some new) ∧
      p.readBack loader map = (loader.itemMatches name value new).map aloneToken := by
  unfold LiloPart.written LiloPart.readBack
  rw [hentry, h]
  exact ⟨rfl, rfl⟩

/-- What is printed for a rewritten item begins with a newline or a comment. -/
theorem item_head (loader : LiloLoader) (old name value new z : Text) :
    ∀ c ∈ (liloItemText loader.replace old name value (some new) ++ z).head?, EndsWord c := by
  rw [loader.itemText_eq]
  unfold LiloLoader.lead
  split
  · exact fun c hc => Option.some.inj hc ▸ .inr (.inl rfl)
  · exact fun c hc => Option.some.inj hc ▸ .inl rfl

/-- The output may stand where the tokens stood. -/
theorem follows_written (loader : LiloLoader) {map : DeviceMap} {ps : List LiloPart}
    (hps : ∀ p ∈ ps, PartFacts p) (hread : TokensRead (ps.flatMap (·.tokens))) :
    Follows ((ps.flatMap (·.tokens)).flatMap (·.text)) (ps.flatMap (·.written loader map)) := by
  cases ps with
  | nil => exact ⟨fun h => h, fun h => h⟩
  | cons p ps =>
    obtain ⟨t, ts, htokens⟩ := List.exists_cons_of_ne_nil (hps p List.mem_cons_self).tokens_ne
    have hne : t.text ≠ [] := by
      refine (read_facts hread t ?_).1
      rw [List.flatMap_cons, htokens]
      exact List.mem_append_left _ List.mem_cons_self
    obtain ⟨c, text, htext⟩ := List.exists_cons_of_ne_nil hne
    have htexts : p.tokens.flatMap (·.text) = c :: (text ++ ts.flatMap (·.text)) := by
      rw [htokens, List.flatMap_cons, htext]
      rfl
    rw [List.flatMap_cons, List.flatMap_append, List.flatMap_cons, htexts]
    refine ⟨fun h => absurd h (List.cons_ne_nil _ _), fun hends => ?_⟩
    cases hnew : p.rewritten map with
    | none =>
      rw [(kept_eq loader hnew).1, htexts]
      exact hends
    | some e =>
      obtain ⟨name, new⟩ := e
      obtain ⟨value, hentry, -⟩ := rewritten_eq_some hnew
      rw [(changed_eq loader hentry hnew).1]
      exact item_head loader _ name value new _

/-- The tokens of the output, part by part. -/
theorem tokenizes_written (loader : LiloLoader) {map : DeviceMap} (hmap : map.Plain)
    {ps : List LiloPart} (hps : ∀ p ∈ ps, PartFacts p)
    (hread : TokensRead (ps.flatMap (·.tokens))) :
    Tokenizes (ps.flatMap (·.written loader map)) (ps.flatMap (·.readBack loader map)) := by
  induction ps with
  | nil =>
    intro tokens
    rw [List.flatMap_nil, List.flatMap_nil, List.append_nil]
    rfl
  | cons p ps ih =>
    have hps' : ∀ p ∈ ps, PartFacts p := fun q hq => hps q (List.mem_cons_of_mem _ hq)
    rw [List.flatMap_cons] at hread
    have hread' := tokensRead_right hread
    have hrest := ih hps' hread'
    rw [List.flatMap_cons, List.flatMap_cons]
    cases hnew : p.rewritten map with
    | none =>
      obtain ⟨hwritten, hback⟩ := kept_eq loader hnew
      rw [hwritten, hback]
      exact tokenizes_append hread (follows_written loader hps' hread') hrest
    | some e =>
      obtain ⟨name, new⟩ := e
      obtain ⟨value, hentry, -, hmapped⟩ := rewritten_eq_some hnew
      obtain ⟨hwritten, hback⟩ := changed_eq loader hentry hnew
      obtain ⟨-, hvalue⟩ := (hps p List.mem_cons_self).newline name value hentry
      have hnewValue := newValue_of_mapped loader hmap hvalue hmapped
      have hname := mem_liloNames hmapped
      intro tokens
      rw [hwritten, hback, fileMatches_item loader hname hvalue hnewValue.newline,
        List.foldl_append, fold_alone, hrest, List.append_assoc]
      exact itemMatches_alone hname hnewValue

/-! ### The values of the output -/

/-- The values that the tokens in place of a part are to have. -/
def wantedValues (map : DeviceMap) (p : LiloPart) : List Text :=
  match p.rewritten map with
  | some (name, new) => [name, ['='], new]
  | none => p.tokens.filterMap (·.value)

theorem values_of_becomes {map : DeviceMap} {ps : List LiloPart} {pieces : List (List LiloToken)}
    (h : List.Forall₂ (LiloPart.Becomes map) ps pieces) :
    pieces.flatten.filterMap (·.value) = ps.flatMap (wantedValues map) := by
  induction h with
  | nil => rfl
  | @cons p piece ps pieces hp hps ih =>
    have hvalues : piece.filterMap (·.value) = wantedValues map p := by
      unfold LiloPart.Becomes at hp
      unfold wantedValues
      split at hp
      · exact hp
      · rw [hp]
    rw [List.flatten_cons, List.filterMap_append, List.flatMap_cons, ih, hvalues]

/-- A value in front of a list is not taken back by the list behind it. -/
theorem cons_of_append_eq {α : Type} {ws g e : List α} {v : α} (h : ws ++ g = v :: (ws ++ e)) :
    g = v :: e := by
  induction ws with
  | nil => exact h
  | cons w ws ih =>
    obtain ⟨rfl, hrest⟩ := List.cons.inj h
    exact ih hrest

/-- A value that was lost is not read from the rest. -/
theorem values_ne_cons (loader : LiloLoader) {map : DeviceMap} {v : Text} (hv : Foreign v)
    (ps : List LiloPart) :
    (ps.flatMap (·.readBack loader map)).filterMap (·.value) ≠
      v :: ps.flatMap (wantedValues map) := by
  induction ps with
  | nil => exact fun h => by cases h
  | cons p ps ih =>
    intro h
    rw [List.flatMap_cons, List.filterMap_append, List.flatMap_cons] at h
    unfold wantedValues at h
    cases hnew : p.rewritten map with
    | none =>
      rw [(kept_eq loader hnew).2, hnew] at h
      exact ih (cons_of_append_eq h)
    | some e =>
      obtain ⟨name, new⟩ := e
      obtain ⟨value, hentry, -, hmapped⟩ := rewritten_eq_some hnew
      have hname := mem_liloNames hmapped
      obtain ⟨-, -, hexpansion, hquote, -⟩ := liloNames_facts name hname
      rw [(changed_eq loader hentry hnew).2, item_values loader hname] at h
      obtain ⟨rfl, -⟩ := List.cons.inj h
      rcases hv with hv | hv
      · exact hquote hv
      · rw [hexpansion] at hv
        cases hv

/-- If the values are the wanted ones, each new value is printable. -/
theorem printable_of_values (loader : LiloLoader) {map : DeviceMap} (hmap : map.Plain)
    {ps : List LiloPart} (hps : ∀ p ∈ ps, PartFacts p)
    (h : (ps.flatMap (·.readBack loader map)).filterMap (·.value) = ps.flatMap (wantedValues map)) :
    ∀ p ∈ ps, ∀ name new, p.rewritten map = some (name, new) → Printable loader name new := by
  induction ps with
  | nil => exact fun p hp => absurd hp List.not_mem_nil
  | cons p ps ih =>
    have hps' : ∀ p ∈ ps, PartFacts p := fun q hq => hps q (List.mem_cons_of_mem _ hq)
    rw [List.flatMap_cons, List.filterMap_append, List.flatMap_cons] at h
    unfold wantedValues at h
    cases hnew : p.rewritten map with
    | none =>
      rw [(kept_eq loader hnew).2, hnew] at h
      intro q hq name new hq'
      rcases List.mem_cons.mp hq with rfl | hq
      · rw [hnew] at hq'
        cases hq'
      · exact ih hps' (List.append_cancel_left h) q hq name new hq'
    | some e =>
      obtain ⟨name, new⟩ := e
      obtain ⟨value, hentry, -, hmapped⟩ := rewritten_eq_some hnew
      have hname := mem_liloNames hmapped
      obtain ⟨-, hvalue⟩ := (hps p List.mem_cons_self).newline name value hentry
      have hnewValue := newValue_of_mapped loader hmap hvalue hmapped
      rw [(changed_eq loader hentry hnew).2, item_values loader hname, hnew] at h
      have hline := (List.cons.inj (List.cons.inj h).2).2
      by_cases hprint : Printable loader name new
      · obtain ⟨t, u, htokens, ht, hu⟩ := line_read hnewValue hprint
        have hvalues : (lineTokens loader name new).filterMap (·.value) = [new] := by
          rw [htokens, List.filterMap_cons_some ht, List.filterMap_cons_none hu]
          rfl
        rw [hvalues] at hline
        intro q hq name' new' hq'
        rcases List.mem_cons.mp hq with rfl | hq
        · rw [hnew] at hq'
          obtain ⟨rfl, rfl⟩ := Prod.mk.inj (Option.some.inj hq')
          exact hprint
        · exact ih hps' (List.cons.inj hline).2 q hq name' new' hq'
      · obtain ⟨hforeign, hlost⟩ := line_not_read hnewValue hprint hline
        exact absurd hlost (values_ne_cons loader hforeign ps)

/-- Printable values are read in place of the old ones. -/
theorem becomes_readBack (loader : LiloLoader) {map : DeviceMap} (hmap : map.Plain)
    {ps : List LiloPart} (hps : ∀ p ∈ ps, PartFacts p)
    (hprint : ∀ p ∈ ps, ∀ name new, p.rewritten map = some (name, new) →
      Printable loader name new) :
    List.Forall₂ (LiloPart.Becomes map) ps (ps.map (·.readBack loader map)) := by
  rw [List.forall₂_map_right_iff, List.forall₂_same]
  intro p hp
  unfold LiloPart.Becomes
  cases hnew : p.rewritten map with
  | none => exact (kept_eq loader hnew).2
  | some e =>
    obtain ⟨name, new⟩ := e
    obtain ⟨value, hentry, -, hmapped⟩ := rewritten_eq_some hnew
    have hname := mem_liloNames hmapped
    obtain ⟨-, hvalue⟩ := (hps p hp).newline name value hentry
    obtain ⟨t, u, htokens, ht, hu⟩ :=
      line_read (newValue_of_mapped loader hmap hvalue hmapped) (hprint p hp name new hnew)
    show (p.readBack loader map).filterMap (·.value) = _
    rw [(changed_eq loader hentry hnew).2, item_values loader hname, htokens,
      List.filterMap_cons_some ht, List.filterMap_cons_none hu]
    rfl

/-! ### The entries of the output -/

theorem startsEquals_cons {t : LiloToken} {ts : List LiloToken} :
    StartsEquals (t :: ts) ↔ t.value = some ['='] ∧ ts ≠ [] := by
  cases ts with
  | nil => exact ⟨fun h => h.elim, fun h => absurd rfl h.2⟩
  | cons u ts => exact ⟨fun h => ⟨h, List.cons_ne_nil _ _⟩, fun h => h.1⟩

theorem liloEntries_alone {t : LiloToken} {ts : List LiloToken} (h : ¬ StartsEquals ts) :
    liloEntries (t :: ts) = .alone t.value :: liloEntries ts := by
  match ts with
  | [] => rfl
  | [u] => rfl
  | u :: v :: ts => exact if_neg h

theorem liloEntries_item {t u v : LiloToken} (h : u.value = some ['=']) (ts : List LiloToken) :
    liloEntries (t :: u :: v :: ts) = .item t.value v.value :: liloEntries ts := by
  rw [liloEntries, if_pos h]

theorem defined_append (es es' : List LiloEntry) :
    definedEntries (es ++ es') = definedEntries es ++ definedEntries es' :=
  List.filter_append _ _

theorem defined_cons_iff {e : LiloEntry} {es es' : List LiloEntry} :
    definedEntries (e :: es) = definedEntries (e :: es') ↔
      definedEntries es = definedEntries es' := by
  rw [← List.singleton_append, ← List.singleton_append (l := es'), defined_append, defined_append,
    List.append_cancel_left_eq]

theorem defined_blank (es : List LiloEntry) :
    definedEntries (.alone none :: es) = definedEntries es := rfl

theorem not_starts_short {ts : List LiloToken}
    (h : ∀ (t u : LiloToken) (us : List LiloToken), ts = t :: u :: us → False) :
    ¬ StartsEquals ts := by
  match ts with
  | [] => exact fun h => h
  | [_] => exact fun h => h
  | t :: u :: us => exact absurd rfl (h t u us)

/-- The blanks and comments in front of a name are no entries. -/
theorem defined_lead {texts : List Text} {t : LiloToken} {ts : List LiloToken}
    (h : t.value ≠ some ['=']) :
    definedEntries (liloEntries ((texts.map fun text => LiloToken.mk text none) ++ t :: ts)) =
      definedEntries (liloEntries (t :: ts)) := by
  induction texts with
  | nil => rfl
  | cons text texts ih =>
    have hno : ¬ StartsEquals ((texts.map fun text => LiloToken.mk text none) ++ t :: ts) := by
      cases texts with
      | nil => exact fun hstart => h (startsEquals_cons.mp hstart).1
      | cons text' texts => exact fun hstart => by cases (startsEquals_cons.mp hstart).1
    rw [List.map_cons, List.cons_append, liloEntries_alone hno, defined_blank, ih]

theorem readBack_ne {loader : LiloLoader} {map : DeviceMap} {p : LiloPart} (hp : PartFacts p) :
    p.readBack loader map ≠ [] := by
  cases hnew : p.rewritten map with
  | none =>
    rw [(kept_eq loader hnew).2]
    exact hp.tokens_ne
  | some e =>
    obtain ⟨name, new⟩ := e
    obtain ⟨value, hentry, -, hmapped⟩ := rewritten_eq_some hnew
    rw [(changed_eq loader hentry hnew).2, item_tokens loader (mem_liloNames hmapped)]
    exact List.append_ne_nil_of_right_ne_nil _ (List.cons_ne_nil _ _)

theorem readBack_eq_nil_iff (loader : LiloLoader) (map : DeviceMap) {generic : Bool}
    {ts : List LiloToken} (hps : ∀ p ∈ liloParts generic ts, PartFacts p) :
    (liloParts generic ts).flatMap (·.readBack loader map) = [] ↔ ts = [] := by
  constructor
  · intro h
    have htokens := liloParts_tokens generic ts
    cases hparts : liloParts generic ts with
    | nil =>
      rw [hparts] at htokens
      exact htokens.symm
    | cons p ps =>
      rw [hparts] at h hps
      exact absurd (List.append_eq_nil_iff.mp h).1 (readBack_ne (hps p List.mem_cons_self))
  · rintro rfl
    rfl

/-- What is read of the output begins with an equals sign only where the tokens do. -/
theorem starts_readBack (loader : LiloLoader) (map : DeviceMap) {generic : Bool}
    {ts : List LiloToken} (hno : ∀ t ∈ ts, ∀ v ∈ t.value, '\n' ∉ v) :
    StartsEquals ((liloParts generic ts).flatMap (·.readBack loader map)) ↔ StartsEquals ts := by
  have halone (generic : Bool) (t : LiloToken) (rest : List LiloToken)
      (hrest : ∀ t ∈ rest, ∀ v ∈ t.value, '\n' ∉ v) :
      StartsEquals (t :: (liloParts generic rest).flatMap (·.readBack loader map)) ↔
        StartsEquals (t :: rest) := by
    rw [startsEquals_cons, startsEquals_cons,
      ne_eq, ne_eq, readBack_eq_nil_iff loader map (partFacts hrest)]
  fun_cases liloParts generic ts with
  | case1 generic t₁ t₂ t₃ rest heq name value hvalue hname =>
    rw [List.flatMap_cons]
    cases hnew : LiloPart.rewritten map ⟨[t₁, t₂, t₃], some (name, value), generic, rest⟩ with
    | none =>
      rw [(kept_eq loader hnew).2]
      exact Iff.rfl
    | some e =>
      obtain ⟨name', new⟩ := e
      obtain ⟨value', hentry, -, hmapped⟩ := rewritten_eq_some hnew
      have hkeyword := mem_liloNames hmapped
      obtain ⟨rfl, rfl⟩ := Prod.mk.inj (Option.some.inj hentry)
      rw [(changed_eq loader hentry hnew).2, item_tokens loader hkeyword]
      constructor
      · intro hstart
        exfalso
        unfold LiloLoader.lead at hstart
        split at hstart
        all_goals cases (startsEquals_cons.mp hstart).1
      · intro hstart
        have hequals := (startsEquals_cons.mp hstart).1
        rw [hname] at hequals
        exact absurd (Option.some.inj hequals) (liloNames_facts name hkeyword).2.2.2.2.2.2
  | case2 generic t₁ t₂ t₃ rest heq hno' => exact Iff.rfl
  | case3 generic t₁ t₂ t₃ rest hne =>
    exact halone generic t₁ (t₂ :: t₃ :: rest) fun t ht => hno t (List.mem_cons_of_mem _ ht)
  | case4 generic t₁ rest hshort =>
    exact halone generic t₁ rest fun t ht => hno t (List.mem_cons_of_mem _ ht)
  | case5 => exact Iff.rfl

theorem entries_kept {map : DeviceMap} {p : LiloPart} (h : p.rewritten map = none) :
    p.entries map = liloEntries p.tokens := by
  unfold LiloPart.entries
  rw [h]

/-- An equals sign at the beginning is an entry of its own, or the name of an item. -/
theorem first_entry {map : DeviceMap} {generic : Bool} {ts : List LiloToken} (h : StartsEquals ts) :
    ∃ e es, definedEntries ((liloParts generic ts).flatMap (·.entries map)) = e :: es ∧
      ∀ v, e ≠ .item none v := by
  have hitem {t₁ t₂ t₃ : LiloToken} {p : LiloPart} {ps : List LiloPart}
      (ht₁ : t₁.value = some ['=']) (ht₂ : t₂.value = some ['=']) (hp : p.rewritten map = none)
      (htokens : p.tokens = [t₁, t₂, t₃]) :
      ∃ e es, definedEntries ((p :: ps).flatMap (·.entries map)) = e :: es ∧
        ∀ v, e ≠ .item none v := by
    rw [List.flatMap_cons, entries_kept hp, htokens, liloEntries_item ht₂, ht₁]
    exact ⟨_, _, rfl, fun v hv => by cases hv⟩
  have halone {t : LiloToken} {p : LiloPart} {ps : List LiloPart} (ht : t.value = some ['='])
      (hp : p.rewritten map = none) (htokens : p.tokens = [t]) :
      ∃ e es, definedEntries ((p :: ps).flatMap (·.entries map)) = e :: es ∧
        ∀ v, e ≠ .item none v := by
    rw [List.flatMap_cons, entries_kept hp, htokens, @liloEntries_alone t [] (fun hnil => hnil), ht]
    exact ⟨_, _, rfl, fun v hv => by cases hv⟩
  fun_cases liloParts generic ts with
  | case1 generic t₁ t₂ t₃ rest heq name value hvalue hname =>
    have hequals : t₁.value = some ['='] := h
    refine hitem hequals heq ?_ rfl
    -- no item of this name is rewritten
    cases hnew : LiloPart.rewritten map ⟨[t₁, t₂, t₃], some (name, value), generic, rest⟩ with
    | none => rfl
    | some e =>
      obtain ⟨name', new⟩ := e
      obtain ⟨value', hentry, -, hmapped⟩ := rewritten_eq_some hnew
      obtain ⟨rfl, rfl⟩ := Prod.mk.inj (Option.some.inj hentry)
      obtain rfl : name = ['='] := Option.some.inj (hname.symm.trans hequals)
      exact absurd rfl (liloNames_facts _ (mem_liloNames hmapped)).2.2.2.2.2.2
  | case2 generic t₁ t₂ t₃ rest heq hno => exact hitem h heq rfl rfl
  | case3 generic t₁ t₂ t₃ rest hne => exact halone h rfl rfl
  | case4 generic t₁ rest hshort => exact halone (startsEquals_cons.mp h).1 rfl rfl
  | case5 => exact h.elim

/-- The entry of an item that is kept is the same. -/
theorem entries_item_iff (loader : LiloLoader) {map : DeviceMap} {p : LiloPart} {ps : List LiloPart}
    {t₁ t₂ t₃ : LiloToken} (hp : p.rewritten map = none) (htokens : p.tokens = [t₁, t₂, t₃])
    (heq : t₂.value = some ['=']) :
    definedEntries (liloEntries ((p :: ps).flatMap (·.readBack loader map))) =
        definedEntries ((p :: ps).flatMap (·.entries map)) ↔
      definedEntries (liloEntries (ps.flatMap (·.readBack loader map))) =
        definedEntries (ps.flatMap (·.entries map)) := by
  rw [List.flatMap_cons, List.flatMap_cons, (kept_eq loader hp).2, entries_kept hp, htokens]
  show definedEntries (liloEntries (t₁ :: t₂ :: t₃ :: _)) =
    definedEntries (liloEntries [t₁, t₂, t₃] ++ _) ↔ _
  rw [liloEntries_item heq, liloEntries_item heq]
  exact defined_cons_iff

theorem entries_alone_iff (loader : LiloLoader) {map : DeviceMap} {p : LiloPart}
    {ps : List LiloPart} {t : LiloToken} (hp : p.rewritten map = none) (htokens : p.tokens = [t])
    (hstart : ¬ StartsEquals (ps.flatMap (·.readBack loader map))) :
    definedEntries (liloEntries ((p :: ps).flatMap (·.readBack loader map))) =
        definedEntries ((p :: ps).flatMap (·.entries map)) ↔
      definedEntries (liloEntries (ps.flatMap (·.readBack loader map))) =
        definedEntries (ps.flatMap (·.entries map)) := by
  rw [List.flatMap_cons, List.flatMap_cons, (kept_eq loader hp).2, entries_kept hp, htokens]
  show definedEntries (liloEntries (t :: ps.flatMap (·.readBack loader map))) =
    definedEntries (liloEntries [t] ++ _) ↔ _
  rw [liloEntries_alone hstart]
  exact defined_cons_iff

/-- A new value is read with its name, and the newline behind it is in front of the rest. -/
theorem entries_changed_iff (loader : LiloLoader) {map : DeviceMap} {p : LiloPart}
    {ps : List LiloPart} {name value new : Text} (hentry : p.entry = some (name, value))
    (hnew : p.rewritten map = some (name, new)) (hname : name ∈ liloNames)
    (hvalue : LiloNewValue loader name new) (hprint : Printable loader name new) :
    ∃ u : LiloToken, u.value = none ∧
      (definedEntries (liloEntries ((p :: ps).flatMap (·.readBack loader map))) =
          definedEntries ((p :: ps).flatMap (·.entries map)) ↔
        definedEntries (liloEntries (u :: ps.flatMap (·.readBack loader map))) =
          definedEntries (ps.flatMap (·.entries map))) := by
  obtain ⟨t, u, htokens, ht, hu⟩ := line_read hvalue hprint
  refine ⟨u, hu, ?_⟩
  have hentries : p.entries map = [.item (some name) (some new)] := by
    unfold LiloPart.entries
    rw [hnew]
  have hequals : (⟨name, some name⟩ : LiloToken).value ≠ some ['='] :=
    fun h => (liloNames_facts name hname).2.2.2.2.2.2 (Option.some.inj h)
  rw [List.flatMap_cons, List.flatMap_cons, (changed_eq loader hentry hnew).2,
    item_tokens loader hname, htokens, hentries, List.append_assoc]
  show definedEntries (liloEntries (_ ++ ⟨name, some name⟩ :: ⟨_, some ['=']⟩ :: t :: u :: _)) =
    _ ↔ _
  rw [defined_lead hequals, liloEntries_item rfl, ht]
  exact defined_cons_iff

/-- With printable values, the entries of the output are the wanted ones if and only if no
equals sign stands behind a rewritten item. -/
theorem entries_readBack_iff (loader : LiloLoader) {map : DeviceMap} (hmap : map.Plain)
    {generic : Bool} {ts : List LiloToken} (hno : ∀ t ∈ ts, ∀ v ∈ t.value, '\n' ∉ v)
    (hprint : ∀ p ∈ liloParts generic ts, ∀ name new, p.rewritten map = some (name, new) →
      Printable loader name new) :
    definedEntries (liloEntries ((liloParts generic ts).flatMap (·.readBack loader map))) =
        definedEntries ((liloParts generic ts).flatMap (·.entries map)) ↔
      ∀ p ∈ liloParts generic ts, ∀ name new, p.rewritten map = some (name, new) →
        ¬ StartsEquals p.rest := by
  have hskip {p : LiloPart} {ps : List LiloPart} (hp : p.rewritten map = none) :
      (∀ q ∈ p :: ps, ∀ name new, q.rewritten map = some (name, new) → ¬ StartsEquals q.rest) ↔
        ∀ q ∈ ps, ∀ name new, q.rewritten map = some (name, new) → ¬ StartsEquals q.rest := by
    rw [List.forall_mem_cons, and_iff_right]
    intro name new h
    rw [hp] at h
    cases h
  fun_induction liloParts generic ts with
  | case1 generic t₁ t₂ t₃ rest heq name value hvalue hname ih =>
    have hrest : ∀ t ∈ rest, ∀ v ∈ t.value, '\n' ∉ v := fun t ht => hno t (by simp [ht])
    have ih := ih hrest fun p hp => hprint p (List.mem_cons_of_mem _ hp)
    cases hnew : LiloPart.rewritten map ⟨[t₁, t₂, t₃], some (name, value), generic, rest⟩ with
    | none =>
      rw [entries_item_iff loader hnew rfl heq, hskip hnew]
      exact ih
    | some e =>
      obtain ⟨name', new⟩ := e
      obtain ⟨value', hentry, -, hmapped⟩ := rewritten_eq_some hnew
      have hkeyword := mem_liloNames hmapped
      obtain ⟨rfl, rfl⟩ := Prod.mk.inj (Option.some.inj hentry)
      have hnewValue := newValue_of_mapped loader hmap (hno t₃ (by simp) value hvalue) hmapped
      obtain ⟨u, hu, hiff⟩ := @entries_changed_iff loader map _
        (liloParts (liloGeneric generic name value) rest) name value new hentry hnew hkeyword
        hnewValue (hprint _ List.mem_cons_self _ _ hnew)
      rw [hiff, List.forall_mem_cons]
      have hback := @starts_readBack loader map (liloGeneric generic name value) rest hrest
      by_cases hstart : StartsEquals rest
      · -- the newline is taken for the name of an item
        constructor
        · intro heq'
          exfalso
          obtain ⟨e, es, hfirst, hne⟩ :=
            @first_entry map (liloGeneric generic name value) rest hstart
          have hstart' := hback.mpr hstart
          rw [hfirst] at heq'
          generalize (liloParts (liloGeneric generic name value) rest).flatMap
            (·.readBack loader map) = us at heq' hstart'
          match us with
          | [] => exact hstart'
          | [_] => exact hstart'
          | v :: w :: us =>
            have hv : v.value = some ['='] := hstart'
            rw [liloEntries_item hv, hu] at heq'
            exact hne _ (List.cons.inj heq').1.symm
        · exact fun h => absurd hstart (h.1 _ _ hnew)
      · rw [liloEntries_alone fun h => hstart (hback.mp h), hu, defined_blank]
        exact ih.trans (iff_and_self.mpr fun _ _ _ _ => hstart)
  | case2 generic t₁ t₂ t₃ rest heq hno' ih =>
    have ih := ih (fun t ht => hno t (by simp [ht]))
      fun p hp => hprint p (List.mem_cons_of_mem _ hp)
    rw [entries_item_iff loader rfl rfl heq, hskip rfl]
    exact ih
  | case3 generic t₁ t₂ t₃ rest hne ih =>
    have hrest : ∀ t ∈ t₂ :: t₃ :: rest, ∀ v ∈ t.value, '\n' ∉ v :=
      fun t ht => hno t (List.mem_cons_of_mem _ ht)
    have ih := ih hrest fun p hp => hprint p (List.mem_cons_of_mem _ hp)
    have hback := @starts_readBack loader map generic _ hrest
    rw [entries_alone_iff loader rfl rfl fun h => hne (hback.mp h), hskip rfl]
    exact ih
  | case4 generic t₁ rest hshort ih =>
    have hrest : ∀ t ∈ rest, ∀ v ∈ t.value, '\n' ∉ v :=
      fun t ht => hno t (List.mem_cons_of_mem _ ht)
    have ih := ih hrest fun p hp => hprint p (List.mem_cons_of_mem _ hp)
    have hback := @starts_readBack loader map generic rest hrest
    have hstart := not_starts_short hshort
    rw [entries_alone_iff loader rfl rfl fun h => hstart (hback.mp h), hskip rfl]
    exact ih
  | case5 => exact ⟨fun _ p hp => absurd hp List.not_mem_nil, fun _ => rfl⟩

/-! ### The devices of the output -/

/-- The loop of `lilo_list` over entries. -/
def entryDevices : Bool → List LiloEntry → List Text
  | generic, .item (some name) (some value) :: es =>
    (if name = "image" ∨ !generic then [] else liloItemDevices name value) ++
      entryDevices (liloGeneric generic name value) es
  | generic, _ :: es => entryDevices generic es
  | _, [] => []

theorem listLoop_entries (generic : Bool) (ts : List LiloToken) :
    liloListLoop generic ts = entryDevices generic (liloEntries ts) := by
  fun_induction liloListLoop generic ts with
  | case1 generic t₁ t₂ t₃ rest heq name value hvalue hname ih =>
    rw [liloEntries_item heq, hname, hvalue, entryDevices, ih]
  | case2 generic t₁ t₂ t₃ rest heq hno ih =>
    rw [liloEntries_item heq, ih]
    cases hname : t₁.value with
    | none => rfl
    | some name =>
      cases hvalue : t₃.value with
      | none => rfl
      | some value => exact absurd hvalue (hno name value hname)
  | case3 generic t₁ t₂ t₃ rest hne ih =>
    have hstart : ¬ StartsEquals (t₂ :: t₃ :: rest) := hne
    rw [liloEntries_alone hstart, ih]
    rfl
  | case4 generic t₁ rest hshort ih =>
    have hstart := not_starts_short hshort
    rw [liloEntries_alone hstart, ih]
    rfl
  | case5 => rfl

theorem entryDevices_defined (generic : Bool) (es : List LiloEntry) :
    entryDevices generic (definedEntries es) = entryDevices generic es := by
  fun_induction entryDevices generic es with
  | case1 generic name value es ih =>
    show _ ++ entryDevices _ (definedEntries es) = _
    rw [ih]
  | case2 generic e es hno ih =>
    have hskip {es' : List LiloEntry} :
        entryDevices generic (e :: es') = entryDevices generic es' := by
      rw [entryDevices]
      exact hno
    unfold definedEntries at ih ⊢
    rw [List.filter_cons]
    split
    · rw [hskip, ih]
    · exact ih
  | case3 => rfl

theorem liloItemDevices_image (value : Text) : liloItemDevices "image" value = [] := rfl

theorem entryDevices_item (generic : Bool) (name value : Text) (es : List LiloEntry) :
    entryDevices generic (.item (some name) (some value) :: es) =
      (if generic then liloItemDevices name value else []) ++
        entryDevices (liloGeneric generic name value) es := by
  rw [entryDevices]
  by_cases himage : name = "image"
  · rw [if_pos (.inl himage), himage, liloItemDevices_image, ite_self]
  · cases generic with
    | false => rw [if_pos (.inr rfl), if_neg Bool.false_ne_true]
    | true =>
      have hno : ¬ (name = "image" ∨ (!true) = true) := by
        rintro (h | h)
        · exact himage h
        · cases h
      rw [if_neg hno, if_pos rfl]

/-- The wanted entries list the wanted devices. -/
theorem entryDevices_parts (map : DeviceMap) (generic : Bool) (ts : List LiloToken) :
    entryDevices generic ((liloParts generic ts).flatMap (·.entries map)) =
      (liloParts generic ts).flatMap (·.devices map) := by
  have hnone {p : LiloPart} (hp : p.entry = none) :
      p.entries map = liloEntries p.tokens ∧ p.devices map = [] := by
    unfold LiloPart.devices
    refine ⟨entries_kept ?_, by rw [hp]⟩
    unfold LiloPart.rewritten
    rw [hp]
    rfl
  fun_induction liloParts generic ts with
  | case1 generic t₁ t₂ t₃ rest heq name value hvalue hname ih =>
    rw [List.flatMap_cons, List.flatMap_cons]
    cases hnew : LiloPart.rewritten map ⟨[t₁, t₂, t₃], some (name, value), generic, rest⟩ with
    | none =>
      have hdevices : (if generic then liloItemDevices name value else []) =
          LiloPart.devices map ⟨[t₁, t₂, t₃], some (name, value), generic, rest⟩ := by
        unfold LiloPart.devices
        unfold LiloPart.rewritten at hnew
        cases generic with
        | false => rfl
        | true =>
          have hmapped : liloMapped map name value = none := Option.map_eq_none_iff.mp hnew
          dsimp only
          rw [hmapped]
          rfl
      rw [entries_kept hnew, ← hdevices, ← ih]
      show entryDevices generic (liloEntries [t₁, t₂, t₃] ++ _) = _
      rw [liloEntries_item heq, hname, hvalue]
      exact entryDevices_item generic name value _
    | some e =>
      obtain ⟨name', new⟩ := e
      obtain ⟨value', hentry, hgeneric, hmapped⟩ := rewritten_eq_some hnew
      obtain ⟨rfl, rfl⟩ := Prod.mk.inj (Option.some.inj hentry)
      obtain rfl : generic = true := hgeneric
      have himage : name ≠ "image" := by
        rintro rfl
        cases hmapped
      have hsame (v : Text) : liloGeneric true name v = true := if_neg himage
      have hentries : LiloPart.entries map ⟨[t₁, t₂, t₃], some (name, value), true, rest⟩ =
          [.item (some name) (some new)] := by
        unfold LiloPart.entries
        rw [hnew]
      have hdevices : LiloPart.devices map ⟨[t₁, t₂, t₃], some (name, value), true, rest⟩ =
          liloItemDevices name new := by
        unfold LiloPart.devices
        dsimp only
        rw [hmapped]
        rfl
      rw [hsame] at ih
      rw [hentries, hdevices, hsame, ← ih, List.singleton_append, entryDevices_item, hsame]
      rfl
  | case2 generic t₁ t₂ t₃ rest heq hno ih =>
    obtain ⟨hentries, hdevices⟩ := @hnone ⟨[t₁, t₂, t₃], none, generic, rest⟩ rfl
    rw [List.flatMap_cons, List.flatMap_cons, hentries, hdevices, List.nil_append, ← ih]
    show entryDevices generic (liloEntries [t₁, t₂, t₃] ++ _) = _
    rw [liloEntries_item heq]
    cases hname : t₁.value with
    | none => rfl
    | some name =>
      cases hvalue : t₃.value with
      | none => rfl
      | some value => exact absurd hvalue (hno name value hname)
  | case3 generic t₁ t₂ t₃ rest hne ih =>
    obtain ⟨hentries, hdevices⟩ := @hnone ⟨[t₁], none, generic, t₂ :: t₃ :: rest⟩ rfl
    rw [List.flatMap_cons, List.flatMap_cons, hentries, hdevices, List.nil_append, ← ih]
    rfl
  | case4 generic t₁ rest hshort ih =>
    obtain ⟨hentries, hdevices⟩ := @hnone ⟨[t₁], none, generic, rest⟩ rfl
    rw [List.flatMap_cons, List.flatMap_cons, hentries, hdevices, List.nil_append, ← ih]
    rfl
  | case5 => rfl

end LiloUpdateLemmas

open LiloUpdateLemmas LiloTextLemmas

/-- Without a map, the devices of the parts are those that `lilo_list` lists. -/
theorem liloList_eq_devices (file : Text) :
    liloList file =
      (liloParts true (liloTokenize file)).flatMap (·.devices fun _ => none) := by
  have hmapped (name value : Text) : liloMapped (fun _ => none) name value = none := by
    unfold liloMapped kernelUpdate
    repeat' split
    all_goals rfl
  have hkept (p : LiloPart) : p.entries (fun _ => none) = liloEntries p.tokens := by
    refine entries_kept ?_
    unfold LiloPart.rewritten
    cases p.entry with
    | none => rfl
    | some e =>
      rw [Option.bind_some, hmapped, Option.map_none, ite_self]
  have hentries (generic : Bool) (ts : List LiloToken) :
      (liloParts generic ts).flatMap (·.entries fun _ => none) = liloEntries ts := by
    fun_induction liloParts generic ts with
    | case1 generic t₁ t₂ t₃ rest heq name value hvalue hname ih =>
      rw [List.flatMap_cons, hkept, ih, liloEntries_item heq, liloEntries_item heq]
      rfl
    | case2 generic t₁ t₂ t₃ rest heq hno ih =>
      rw [List.flatMap_cons, hkept, ih, liloEntries_item heq, liloEntries_item heq]
      rfl
    | case3 generic t₁ t₂ t₃ rest hne ih =>
      rw [List.flatMap_cons, hkept, ih]
      exact (@liloEntries_alone t₁ (t₂ :: t₃ :: rest) hne).symm
    | case4 generic t₁ rest hshort ih =>
      rw [List.flatMap_cons, hkept, ih]
      exact (liloEntries_alone (not_starts_short hshort)).symm
    | case5 => rfl
  unfold liloList
  rw [listLoop_entries, ← entryDevices_parts, hentries]

/-- The update maps the items of the generic sections and nothing else, if and only if each
new value can be read back from where it is printed, and no equals sign stands behind it. -/
theorem lilo_update_maps_iff (loader : LiloLoader) {file : Text} {map : DeviceMap}
    (hlossless : (liloTokenize file).flatMap (·.text) = file) (hmap : map.Plain) :
    (∃ new, loader.update file map = some new ∧ LiloFaithful map file new) ↔
      LiloSafe loader map file := by
  have hread := tokensRead hlossless
  have hno : ∀ t ∈ liloTokenize file, ∀ v ∈ t.value, '\n' ∉ v :=
    fun t ht => (read_facts hread t ht).2
  have hfacts := @partFacts true _ hno
  have hupdate : loader.update file map =
      some ((liloParts true (liloTokenize file)).flatMap (·.written loader map)) := by
    rw [loader.update_eq]
    exact updateLoop_parts loader hmap true hno
  have htokens :
      liloTokenize ((liloParts true (liloTokenize file)).flatMap (·.written loader map)) =
        (liloParts true (liloTokenize file)).flatMap (·.readBack loader map) := by
    refine tokenize_of_tokenizes (tokenizes_written loader hmap hfacts ?_)
    rwa [liloParts_tokens]
  constructor
  · rintro ⟨new, hnew, hfaithful⟩
    rw [hupdate] at hnew
    obtain rfl := Option.some.inj hnew
    obtain ⟨pieces, hpieces, hbecomes⟩ := hfaithful.tokens
    have hprint : ∀ p ∈ liloParts true (liloTokenize file), ∀ name new,
        p.rewritten map = some (name, new) → Printable loader name new := by
      refine printable_of_values loader hmap hfacts ?_
      rw [← htokens, hpieces]
      exact values_of_becomes hbecomes
    have hentries := hfaithful.entries
    rw [htokens, entries_readBack_iff loader hmap hno hprint] at hentries
    exact fun p hp name new hp' => ⟨hprint p hp name new hp', hentries p hp name new hp'⟩
  · intro hsafe
    have hprint : ∀ p ∈ liloParts true (liloTokenize file), ∀ name new,
        p.rewritten map = some (name, new) → Printable loader name new :=
      fun p hp name new hp' => (hsafe p hp name new hp').1
    have hentries := (entries_readBack_iff loader hmap hno hprint).mpr
      fun p hp name new hp' => (hsafe p hp name new hp').2
    refine ⟨_, hupdate, ?_, ?_, _, ?_, becomes_readBack loader hmap hfacts hprint⟩
    · unfold liloList
      rw [htokens, listLoop_entries, ← entryDevices_defined, hentries, entryDevices_defined,
        entryDevices_parts]
    · rw [htokens, hentries]
    · rw [htokens, List.flatMap_def]

/-- A map with one device. -/
def oneDevice : DeviceMap := fun bdev => if bdev = "/dev/hda1" then some "UUID=0a" else none

theorem oneDevice_plain : oneDevice.Plain := by
  intro bdev id h
  unfold oneDevice at h
  split at h
  · obtain rfl := Option.some.inj h
    exact ⟨.inr (.inl ⟨"0a", rfl⟩), forall_mem_of_all (by decide)⟩
  · cases h

/-- Items with blanks, comments and backslashes, in generic sections and in another one. -/
theorem lilo_update_maps_sections :
    ∃ new, LiloLoader.elilo.update ("\"x\"boot=/dev/hda1 # y\nimage=/boot/z\n root=/dev/hda1\n" ++
        "image=/vmlinuz\n append=\"a\\\\b root=/dev/hda1\"\n") oneDevice = some new ∧
      LiloFaithful oneDevice ("\"x\"boot=/dev/hda1 # y\nimage=/boot/z\n root=/dev/hda1\n" ++
        "image=/vmlinuz\n append=\"a\\\\b root=/dev/hda1\"\n") new :=
  (lilo_update_maps_iff .elilo (by decide +kernel) oneDevice_plain).mpr (by decide +kernel)

/-- A dollar sign loses its backslash, and then the whole value is undefined. -/
theorem dollar_not_listed :
    (liloTokenize "append=\"root=/dev/hda1 \\$x\"\n").flatMap (·.text) =
        "append=\"root=/dev/hda1 \\$x\"\n" ∧
      oneDevice.Plain ∧ liloList "append=\"root=/dev/hda1 \\$x\"\n" = ["/dev/hda1"] ∧
      liloUpdate "append=\"root=/dev/hda1 \\$x\"\n" oneDevice =
        some "\n# append = root=/dev/hda1 $x\nappend = \"root=UUID=0a $x\"\n\n" ∧
      liloList "\n# append = root=/dev/hda1 $x\nappend = \"root=UUID=0a $x\"\n\n" = [] ∧
      ¬ LiloFaithful oneDevice "append=\"root=/dev/hda1 \\$x\"\n"
        "\n# append = root=/dev/hda1 $x\nappend = \"root=UUID=0a $x\"\n\n" := by
  refine ⟨by decide +kernel, oneDevice_plain, by decide +kernel, by decide +kernel,
    by decide +kernel, ?_⟩
  intro h
  have hdevices : liloList "\n# append = root=/dev/hda1 $x\nappend = \"root=UUID=0a $x\"\n\n" =
      ["UUID=0a"] := h.devices.trans (by decide +kernel)
  exact absurd hdevices (by decide +kernel)

end DebianKernel.DiskId
