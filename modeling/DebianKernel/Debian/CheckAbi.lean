import DebianKernel.Debian.Abi
import DebianKernel.Debian.Config
import DebianKernel.Lib.Pattern

/-!
# The ABI check

`CheckAbi` of `buildcheck.py` compares the symbols of a build with a reference. Changes
can be ignored by patterns for the name or the module of a symbol, with the wildcards `*`
and `**`.

Results:
1. `ignoreMatch_iff`: the regular expression of a pattern matches a word if and only if the
   word splits into the pieces of the pattern.
2. `verdict_iff`: the build is refused if and only if a symbol of the reference that no
   pattern matches is missing or has another version or export type.
3. `check_abi_exact`: the same with what follows from it for saved tables, for symbols
   that move to another module, and for new symbols.
-/

namespace DebianKernel.Debian

open Text

/-! ## Comparison -/

/-- `SymbolInfo`. -/
structure SymbolInfo where
  symbol : Symbol
  symbolRef : Symbol

/-- What `_cmp` returns. The values of `symbols` are all three lists together. -/
structure AbiCmp where
  add : List SymbolInfo
  change : List SymbolInfo
  remove : List SymbolInfo

def AbiCmp.symbols (c : AbiCmp) : List SymbolInfo := c.add ++ c.change ++ c.remove

/-- `_cmp`. -/
def abiCmp (ref new : Symbols) : AbiCmp where
  add := (new.values.filter fun s => ref.get? s.name = none).map fun s => ⟨s, s⟩
  change := ref.values.filterMap fun sRef =>
    match new.get? sRef.name with
    | some sNew => if sRef.eq sNew then none else some ⟨sNew, sRef⟩
    | none => none
  remove := (ref.values.filter fun s => new.get? s.name = none).map fun s => ⟨s, s⟩

/-! ## Ignore patterns -/

/-- What `re.split(r'(\*\*?)', pattern)` returns, without empty texts. -/
inductive GlobPiece
  | lit (s : Text)
  | star
  | starStar

def globPieces : Text → List GlobPiece
  | [] => []
  | '*' :: '*' :: t => .starStar :: globPieces t
  | '*' :: t => .star :: globPieces t
  | c :: t =>
    match globPieces t with
    | .lit s :: ps => .lit (c :: s) :: ps
    | ps => .lit [c] :: ps

/-- The regular expression for a piece. -/
def GlobPiece.re : GlobPiece → Pattern Text
  | .lit s => do Pattern.lit s; pure s
  | .star => Pattern.run1 (· ≠ '!')
  | .starStar => Pattern.run1 (· ≠ '\n')

/-- `_ignore_pattern`. -/
def globRe : List GlobPiece → Pattern Unit
  | [] => Pattern.atEnd
  | p :: ps => do let _ ← p.re; globRe ps

/-- `p.match(t)`, for the compiled pattern. -/
def ignoreMatch (pattern t : Text) : Bool :=
  (Pattern.first (globRe (globPieces pattern)) t).isSome

/-- What a pattern is compared with. -/
inductive IgnoreType
  | name
  | module

/-- The type and the pattern. `none` when the type is not known or there are two colons. -/
def parseIgnore (ignore : Text) : Option (IgnoreType × Text) :=
  if ignore.contains ':' then
    let type := ignore.takeWhile (· ≠ ':')
    let pattern := (ignore.dropWhile (· ≠ ':')).tail
    if pattern.contains ':' then none
    else if type = "name" then some (.name, pattern)
    else if type = "module" then some (.module, pattern)
    else none
  else some (.name, ignore)

/-- `getattr(symbol, type)`. -/
def SymbolInfo.attr (s : SymbolInfo) : IgnoreType → Text
  | .name => s.symbol.name
  | .module => s.symbol.module

/-- The elements of a value, as `set.update` goes through them. `none` for a `TypeError`. -/
def Value.elements : Value → Option (List Text)
  | .text t => some (t.map fun c => [c])
  | .list l => some l
  | _ => none

/-- The layers whose patterns count. -/
def abiKeys (arch featureset flavour : Text) : List Key :=
  let abi : Text := "abi"
  [[abi, arch, featureset, flavour], [abi, arch, none, flavour], [abi, arch, featureset],
    [abi, arch], [abi, none, featureset], [abi]]

/-- `ignores`, which `_ignore` collects from all layers. `none` when that raises. -/
def collectIgnores (config : ConfigCore) (arch featureset flavour : Text) : Option (List Text) := do
  let patterns ← (abiKeys arch featureset flavour).mapM fun key =>
    ((config.get key "ignore-changes").getD (.list [])).elements
  pure patterns.flatten

/-- What `_ignore` makes of the patterns. `none` when it raises. -/
def abiIgnored (ignores : List Text) (symbols : List SymbolInfo) : Option (List Text) := do
  let patterns ← ignores.mapM parseIgnore
  pure ((symbols.filter fun s => patterns.any fun p => ignoreMatch p.2 (s.attr p.1)).map
    (·.symbol.name))

/-! ## The check -/

/-- One item of the report of a symbol. -/
def reportItem (name data dataRef : Text) : Text :=
  if data = dataRef then name ++ ": " ++ data else name ++ ": " ++ dataRef ++ " -> " ++ data

/-- `SymbolInfo.write`: `"%-48s %s\n"`. -/
def SymbolInfo.write (ignored : Bool) (s : SymbolInfo) : Text :=
  let info := (if ignored then [("ignored" : Text)] else []) ++
    [reportItem "module" s.symbol.module s.symbolRef.module,
      reportItem "version" s.symbol.version s.symbolRef.version,
      reportItem "export" s.symbol.exportType s.symbolRef.exportType]
  s.symbol.name.rightpad 48 ' ' ++ [' '] ++ List.intercalate ", " info ++ ['\n']

/-- The report of one of the three lists, sorted by name. -/
def reportSymbols (heading : Text) (ignore : List Text) (symbols : List SymbolInfo) : Text :=
  match symbols with
  | [] => []
  | _ =>
    heading ++ ((symbols.insertionSort fun s s' => s.symbol.name ≤ s'.symbol.name).map fun s =>
      s.write (ignore.contains s.symbol.name)).flatten

/-- `CheckAbi.__call__`: the return value and what is written to `out`. The reference is
`none` if it cannot be opened. `none` when the check raises. -/
def checkAbi (config : ConfigCore) (arch featureset flavour : Text) (newFile : Text)
    (refFile : Option Text) : Option (Nat × Text) := do
  let new ← Symbols.read newFile
  match refFile with
  | none => pure (0, "Can't read ABI reference.  ABI not checked!  Continuing.\n")
  | some refFile =>
    let ref ← Symbols.read refFile
    let cmp := abiCmp ref new
    let ignores ← collectIgnores config arch featureset flavour
    let ignore ← abiIgnored ignores cmp.symbols
    let effective (l : List SymbolInfo) := l.filter fun s => ¬ ignore.contains s.symbol.name
    let refused : Bool := effective cmp.change ≠ [] ∨ effective cmp.remove ≠ []
    let summary : Text :=
      if refused then "ABI has changed!  Refusing to continue.\n"
      else if cmp.change ≠ [] ∨ cmp.remove ≠ [] then
        "ABI has changed but all changes have been ignored.  Continuing.\n"
      else if effective cmp.add ≠ [] then "New symbols have been added.  Continuing.\n"
      else if cmp.add ≠ [] then
        "New symbols have been added but have been ignored.  Continuing.\n"
      else "No ABI changes.\n"
    pure (if refused then 1 else 0, summary ++
      reportSymbols "\nAdded symbols:\n" ignore cmp.add ++
      reportSymbols "\nChanged symbols:\n" ignore cmp.change ++
      reportSymbols "\nRemoved symbols:\n" ignore cmp.remove)

/-! ## What a pattern matches -/

/-- A text splits into the pieces: literals verbatim, for `*` a run without `!`, and for
`**` any run. -/
inductive GlobSplits : List GlobPiece → Text → Prop
  | nil : GlobSplits [] []
  | lit (s : Text) {ps : List GlobPiece} {t : Text} :
      GlobSplits ps t → GlobSplits (.lit s :: ps) (s ++ t)
  | star {w : Text} {ps : List GlobPiece} {t : Text} :
      w ≠ [] → '!' ∉ w → GlobSplits ps t → GlobSplits (.star :: ps) (w ++ t)
  | starStar {w : Text} {ps : List GlobPiece} {t : Text} :
      w ≠ [] → GlobSplits ps t → GlobSplits (.starStar :: ps) (w ++ t)

/-- The pattern as it is written in the configuration applies to a symbol of that name in
that module. -/
def IgnoreApplies (ignore name module : Text) : Prop :=
  (∃ p : Text, ':' ∉ p ∧ (ignore = p ∨ ignore = "name:" ++ p) ∧ GlobSplits (globPieces p) name) ∨
    ∃ p : Text, ':' ∉ p ∧ ignore = "module:" ++ p ∧ GlobSplits (globPieces p) module

/-- A pattern that the check accepts. -/
def IgnoreValid (ignore : Text) : Prop :=
  ∃ p : Text, ':' ∉ p ∧ (ignore = p ∨ ignore = "name:" ++ p ∨ ignore = "module:" ++ p)

namespace CheckAbiLemmas

open Pattern

theorem mem_re {p : GlobPiece} {t r w : Text} :
    (w, r) ∈ p.re t ↔ t = w ++ r ∧ match p with
      | .lit s => w = s
      | .star => w ≠ [] ∧ '!' ∉ w
      | .starStar => w ≠ [] ∧ '\n' ∉ w := by
  cases p with
  | lit s =>
    show (w, r) ∈ (lit s >>= fun _ => pure s) t ↔ t = w ++ r ∧ w = s
    rw [mem_bind]
    constructor
    · rintro ⟨_, r', hlit, hpure⟩
      obtain ⟨rfl, rfl⟩ := mem_pure.mp hpure
      exact ⟨mem_lit.mp hlit, rfl⟩
    · rintro ⟨rfl, rfl⟩
      exact ⟨(), r, mem_lit.mpr rfl, mem_pure.mpr ⟨rfl, rfl⟩⟩
  | star =>
    show (w, r) ∈ run1 _ t ↔ _
    simp only [mem_run1, decide_eq_true_eq, ne_eq]
    exact and_congr_right' (and_congr_right' ⟨fun h hm => h _ hm rfl, fun h c hc he => h (he ▸ hc)⟩)
  | starStar =>
    show (w, r) ∈ run1 _ t ↔ _
    simp only [mem_run1, decide_eq_true_eq, ne_eq]
    exact and_congr_right' (and_congr_right' ⟨fun h hm => h _ hm rfl, fun h c hc he => h (he ▸ hc)⟩)

theorem globRe_iff {ps : List GlobPiece} {t : Text} (ht : '\n' ∉ t) :
    (∃ r, r ∈ globRe ps t) ↔ GlobSplits ps t := by
  induction ps generalizing t with
  | nil =>
    show (∃ r, r ∈ atEnd t) ↔ _
    have hend : t = ['\n'] → False := fun h => ht (by rw [h]; exact List.mem_singleton_self _)
    constructor
    · rintro ⟨r, hr⟩
      unfold atEnd look at hr
      split at hr
      · next h =>
        rcases of_decide_eq_true h with rfl | h
        · exact .nil
        · exact (hend h).elim
      · cases hr
    · intro h
      cases h
      exact ⟨((), []), List.mem_singleton_self _⟩
  | cons p ps ih =>
    have hcons : (∃ r, r ∈ globRe (p :: ps) t) ↔
        ∃ w s, (w, s) ∈ p.re t ∧ ∃ r, r ∈ globRe ps s := by
      constructor
      · rintro ⟨⟨u, r⟩, h⟩
        obtain ⟨w, s, hw, hr⟩ := mem_bind.mp h
        exact ⟨w, s, hw, (u, r), hr⟩
      · rintro ⟨w, s, hw, ⟨u, r⟩, hr⟩
        exact ⟨(u, r), mem_bind.mpr ⟨w, s, hw, hr⟩⟩
    rw [hcons]
    constructor
    · rintro ⟨w, s, hmem, hr⟩
      obtain ⟨rfl, hw⟩ := mem_re.mp hmem
      have hs := (ih fun h => ht (List.mem_append_right _ h)).mp hr
      cases p with
      | lit l => exact hw ▸ .lit w hs
      | star => exact .star hw.1 hw.2 hs
      | starStar => exact .starStar hw.1 hs
    · intro h
      cases h with
      | lit w hs =>
        exact ⟨w, _, mem_re.mpr ⟨rfl, rfl⟩, (ih fun h => ht (List.mem_append_right _ h)).mpr hs⟩
      | star hne hw hs =>
        exact ⟨_, _, mem_re.mpr ⟨rfl, hne, hw⟩,
          (ih fun h => ht (List.mem_append_right _ h)).mpr hs⟩
      | starStar hne hs =>
        exact ⟨_, _, mem_re.mpr ⟨rfl, hne, fun h => ht (List.mem_append_left _ h)⟩,
          (ih fun h => ht (List.mem_append_right _ h)).mpr hs⟩

end CheckAbiLemmas

open CheckAbiLemmas

/-- A pattern matches exactly the texts that split into its pieces. -/
theorem ignoreMatch_iff {pattern t : Text} (ht : '\n' ∉ t) :
    ignoreMatch pattern t = true ↔ GlobSplits (globPieces pattern) t := by
  rw [← globRe_iff ht, ignoreMatch, Pattern.first]
  cases globRe (globPieces pattern) t with
  | nil =>
    refine iff_of_false Bool.false_ne_true ?_
    rintro ⟨r, hr⟩
    cases hr
  | cons r rs => exact iff_of_true rfl ⟨r, List.mem_cons_self⟩

/-! ## Patterns of the configuration -/

namespace CheckAbiLemmas

theorem contains_colon {t : Text} : t.contains ':' = true ↔ ':' ∈ t := by
  rw [List.contains_iff_mem]

theorem parseIgnore_plain {p : Text} (hp : ':' ∉ p) : parseIgnore p = some (.name, p) :=
  if_neg fun h => hp (contains_colon.mp h)

theorem parseIgnore_typed {type p : Text} (htype : ':' ∉ type) (hp : ':' ∉ p) :
    parseIgnore (type ++ ':' :: p) =
      if type = "name" then some (.name, p)
      else if type = "module" then some (.module, p)
      else none := by
  have hall : ∀ c ∈ type, (c ≠ ':' : Bool) = true := fun c hc =>
    decide_eq_true fun heq => htype (heq ▸ hc)
  have htake : (type ++ ':' :: p).takeWhile (· ≠ ':') = type := by
    rw [List.takeWhile_append_of_pos hall]
    simp
  have hdrop : ((type ++ ':' :: p).dropWhile (· ≠ ':')).tail = p := by
    rw [List.dropWhile_append_of_pos hall]
    simp
  rw [parseIgnore, if_pos (contains_colon.mpr (by simp)), htake, hdrop]
  exact if_neg fun h => hp (contains_colon.mp h)

theorem parseIgnore_name {p : Text} (hp : ':' ∉ p) :
    parseIgnore ("name:" ++ p) = some (.name, p) :=
  parseIgnore_typed (by decide : ':' ∉ ("name" : Text)) hp

theorem parseIgnore_module {p : Text} (hp : ':' ∉ p) :
    parseIgnore ("module:" ++ p) = some (.module, p) :=
  parseIgnore_typed (by decide : ':' ∉ ("module" : Text)) hp

/-- A pattern that is accepted applies to a symbol if and only if it matches. -/
theorem parseIgnore_valid {ignore : Text} (h : IgnoreValid ignore) :
    ∃ type p, parseIgnore ignore = some (type, p) ∧ ∀ s : SymbolInfo,
      ignoreMatch p (s.attr type) = true ↔ IgnoreApplies ignore s.symbol.name s.symbol.module := by
  have hmatch : ∀ (type : IgnoreType) (p : Text), parseIgnore ignore = some (type, p) →
      (∀ s : SymbolInfo, GlobSplits (globPieces p) (s.attr type) →
        IgnoreApplies ignore s.symbol.name s.symbol.module) →
      ∃ type p, parseIgnore ignore = some (type, p) ∧ ∀ s : SymbolInfo,
        ignoreMatch p (s.attr type) = true ↔
          IgnoreApplies ignore s.symbol.name s.symbol.module := by
    intro type p hparse hsplits
    refine ⟨type, p, hparse, fun s => ?_⟩
    have hline : '\n' ∉ s.attr type := by
      have hword : ∀ w ∈ [s.symbol.name, s.symbol.module], '\n' ∉ w := fun w hw hmem => by
        have := (s.symbol.isWord w (by simp at hw ⊢; tauto)).2 _ hmem
        cases this
      cases type with
      | name => exact hword _ (by simp [SymbolInfo.attr])
      | module => exact hword _ (by simp [SymbolInfo.attr])
    rw [ignoreMatch_iff hline]
    refine ⟨hsplits s, ?_⟩
    rintro (⟨p', hp', rfl | rfl, happ⟩ | ⟨p', hp', rfl, happ⟩)
    · rw [parseIgnore_plain hp'] at hparse
      cases hparse
      exact happ
    · rw [parseIgnore_name hp'] at hparse
      cases hparse
      exact happ
    · rw [parseIgnore_module hp'] at hparse
      cases hparse
      exact happ
  obtain ⟨p, hp, rfl | rfl | rfl⟩ := h
  · exact hmatch .name _ (parseIgnore_plain hp) fun s hs => .inl ⟨_, hp, .inl rfl, hs⟩
  · exact hmatch .name p (parseIgnore_name hp) fun s hs => .inl ⟨p, hp, .inr rfl, hs⟩
  · exact hmatch .module p (parseIgnore_module hp) fun s hs => .inr ⟨p, hp, rfl, hs⟩

/-- The names that are ignored. -/
theorem abiIgnored_eq {ignores : List Text} (h : ∀ ignore ∈ ignores, IgnoreValid ignore)
    (symbols : List SymbolInfo) :
    ∃ ignored, abiIgnored ignores symbols = some ignored ∧ ∀ name, name ∈ ignored ↔
      ∃ s ∈ symbols, s.symbol.name = name ∧
        ∃ ignore ∈ ignores, IgnoreApplies ignore s.symbol.name s.symbol.module := by
  have hparse : ∃ patterns, ignores.mapM parseIgnore = some patterns ∧ ∀ s : SymbolInfo,
      (patterns.any fun p => ignoreMatch p.2 (s.attr p.1)) = true ↔
        ∃ ignore ∈ ignores, IgnoreApplies ignore s.symbol.name s.symbol.module := by
    induction ignores with
    | nil => exact ⟨[], rfl, fun s => iff_of_false nofun nofun⟩
    | cons ignore ignores ih =>
      obtain ⟨patterns, hpatterns, hany⟩ := ih fun i hi => h i (List.mem_cons_of_mem _ hi)
      obtain ⟨type, p, hp, happ⟩ := parseIgnore_valid (h ignore List.mem_cons_self)
      refine ⟨(type, p) :: patterns, ?_, ?_⟩
      · rw [List.mapM_cons, hp, hpatterns]
        rfl
      · intro s
        rw [List.any_cons, Bool.or_eq_true, happ s, hany s]
        simp
  obtain ⟨patterns, hpatterns, hany⟩ := hparse
  refine ⟨_, by rw [abiIgnored, hpatterns]; rfl, fun name => ?_⟩
  simp only [List.mem_map, List.mem_filter, hany]
  constructor
  · rintro ⟨s, ⟨hs, happ⟩, rfl⟩
    exact ⟨s, hs, rfl, happ⟩
  · rintro ⟨s, hs, rfl, happ⟩
    exact ⟨s, ⟨hs, happ⟩, rfl⟩

end CheckAbiLemmas

/-! ## Which builds are refused -/

/-- The symbol of the reference is missing, or has another version or export type. -/
def Incompatible (new : Symbols) (s : Symbol) : Prop :=
  ∀ s', new.get? s.name = some s' → s'.version ≠ s.version ∨ s'.exportType ≠ s.exportType

/-- The module that patterns are compared with: the one in the build, if the symbol is
still there. -/
def moduleOf (new : Symbols) (s : Symbol) : Text := ((new.get? s.name).getD s).module

namespace CheckAbiLemmas

variable {ref new : Symbols} {i : SymbolInfo}

theorem mem_add : i ∈ (abiCmp ref new).add ↔
    new.get? i.symbol.name = some i.symbol ∧ ref.get? i.symbol.name = none ∧
      i.symbolRef = i.symbol := by
  unfold abiCmp
  simp only [List.mem_map, List.mem_filter, decide_eq_true_eq, Symbols.mem_values]
  constructor
  · rintro ⟨s, ⟨hs, hno⟩, rfl⟩
    exact ⟨hs, hno, rfl⟩
  · rintro ⟨hs, hno, heq⟩
    refine ⟨i.symbol, ⟨hs, hno⟩, ?_⟩
    cases i
    cases heq
    rfl

theorem mem_remove : i ∈ (abiCmp ref new).remove ↔
    ref.get? i.symbol.name = some i.symbol ∧ new.get? i.symbol.name = none ∧
      i.symbolRef = i.symbol := by
  unfold abiCmp
  simp only [List.mem_map, List.mem_filter, decide_eq_true_eq, Symbols.mem_values]
  constructor
  · rintro ⟨s, ⟨hs, hno⟩, rfl⟩
    exact ⟨hs, hno, rfl⟩
  · rintro ⟨hs, hno, heq⟩
    refine ⟨i.symbol, ⟨hs, hno⟩, ?_⟩
    cases i
    cases heq
    rfl

theorem mem_change : i ∈ (abiCmp ref new).change ↔
    ref.get? i.symbol.name = some i.symbolRef ∧ new.get? i.symbol.name = some i.symbol ∧
      i.symbolRef.eq i.symbol = false := by
  unfold abiCmp
  simp only [List.mem_filterMap, Symbols.mem_values]
  constructor
  · rintro ⟨sRef, href, h⟩
    split at h
    · next sNew hnew =>
      split at h
      · cases h
      · next hne =>
        cases h
        rw [← Symbols.name_of_get? hnew] at href hnew
        exact ⟨href, hnew, Bool.eq_false_iff.mpr hne⟩
    · cases h
  · rintro ⟨href, hnew, hne⟩
    have hname := Symbols.name_of_get? href
    refine ⟨i.symbolRef, by rw [hname, href], ?_⟩
    rw [hname, hnew]
    exact if_neg (Bool.eq_false_iff.mp hne)

/-- There is one entry for a name. -/
theorem symbols_unique {j : SymbolInfo} (hi : i ∈ (abiCmp ref new).symbols)
    (hj : j ∈ (abiCmp ref new).symbols) (h : i.symbol.name = j.symbol.name) : i = j := by
  have hkey : ∀ {k : SymbolInfo}, k ∈ (abiCmp ref new).symbols →
      k.symbol = ((new.get? k.symbol.name).or (ref.get? k.symbol.name)).getD k.symbol ∧
        k.symbolRef = ((ref.get? k.symbol.name).or (new.get? k.symbol.name)).getD k.symbol ∧
        ((new.get? k.symbol.name).or (ref.get? k.symbol.name)).isSome = true := by
    intro k hk
    rw [AbiCmp.symbols, List.mem_append, List.mem_append] at hk
    rcases hk with (hk | hk) | hk
    · obtain ⟨hnew, href, heq⟩ := mem_add.mp hk
      rw [hnew, href, heq]
      exact ⟨rfl, rfl, rfl⟩
    · obtain ⟨href, hnew, -⟩ := mem_change.mp hk
      rw [hnew, href]
      exact ⟨rfl, rfl, rfl⟩
    · obtain ⟨href, hnew, heq⟩ := mem_remove.mp hk
      rw [hnew, href, heq]
      exact ⟨rfl, rfl, rfl⟩
  obtain ⟨his, hir, hsome⟩ := hkey hi
  obtain ⟨hjs, hjr, -⟩ := hkey hj
  obtain ⟨s, hs⟩ := Option.isSome_iff_exists.mp hsome
  rw [h] at his hir hs
  rw [hs] at his hjs
  have hi' : i.symbol = s := his
  have hj' : j.symbol = s := hjs
  have hr : i.symbolRef = j.symbolRef := by rw [hir, hjr, hi', hj']
  obtain ⟨is, ir⟩ := i
  obtain ⟨js, jr⟩ := j
  cases hi'
  cases hj'
  cases hr
  rfl

/-- The symbols of the reference that are not compatible are those in the last two lists. -/
theorem incompatible_iff {p : SymbolInfo → Prop} :
    (∃ i, (i ∈ (abiCmp ref new).change ∨ i ∈ (abiCmp ref new).remove) ∧ p i) ↔
      ∃ s, ref.get? s.name = some s ∧ Incompatible new s ∧
        p ⟨(new.get? s.name).getD s, s⟩ := by
  constructor
  · rintro ⟨i, hi | hi, hp⟩
    · obtain ⟨href, hnew, hne⟩ := mem_change.mp hi
      have hname := Symbols.name_of_get? href
      refine ⟨i.symbolRef, by rw [hname, href], ?_, ?_⟩
      · intro s' hs'
        rw [hname, hnew] at hs'
        cases hs'
        by_contra hsame
        rw [not_or, not_not, not_not] at hsame
        rw [Symbol.eq, decide_eq_false_iff_not] at hne
        exact hne ⟨hname, hsame.1.symm, hsame.2.symm⟩
      · rw [hname, hnew]
        exact hp
    · obtain ⟨href, hnew, heq⟩ := mem_remove.mp hi
      refine ⟨i.symbol, href, ?_, ?_⟩
      · intro s' hs'
        rw [hnew] at hs'
        cases hs'
      · rw [hnew]
        obtain ⟨s, sRef⟩ := i
        cases heq
        exact hp
  · rintro ⟨s, href, hinc, hp⟩
    cases hnew : new.get? s.name with
    | none =>
      rw [hnew] at hp
      exact ⟨⟨s, s⟩, .inr (mem_remove.mpr ⟨href, hnew, rfl⟩), hp⟩
    | some s' =>
      rw [hnew] at hp
      have hname := Symbols.name_of_get? hnew
      refine ⟨⟨s', s⟩, .inl (mem_change.mpr ?_), hp⟩
      show ref.get? s'.name = some s ∧ new.get? s'.name = some s' ∧ s.eq s' = false
      rw [hname]
      refine ⟨href, hnew, ?_⟩
      rw [Symbol.eq, decide_eq_false_iff_not]
      rintro ⟨-, hv, he⟩
      exact (hinc s' hnew).elim (fun h => h hv.symm) fun h => h he.symm

end CheckAbiLemmas

/-- The return value of the check. -/
def verdict (config : ConfigCore) (arch featureset flavour newFile : Text)
    (refFile : Option Text) : Option Nat :=
  (checkAbi config arch featureset flavour newFile refFile).map Prod.fst

namespace CheckAbiLemmas

theorem verdict_eq {config : ConfigCore} {arch featureset flavour newFile refFile : Text}
    {new ref : Symbols} {ignores ignored : List Text} (hnew : Symbols.read newFile = some new)
    (href : Symbols.read refFile = some ref)
    (hcollect : collectIgnores config arch featureset flavour = some ignores)
    (hign : abiIgnored ignores (abiCmp ref new).symbols = some ignored) :
    verdict config arch featureset flavour newFile (some refFile) =
      some (if ((abiCmp ref new).change.filter fun i =>
            ¬ ignored.contains i.symbol.name) ≠ [] ∨
          ((abiCmp ref new).remove.filter fun i => ¬ ignored.contains i.symbol.name) ≠ []
        then 1 else 0) := by
  simp only [verdict, checkAbi, hnew, href, hcollect, hign, Option.bind_eq_bind, Option.bind_some,
    Option.pure_def, Option.map_some, decide_eq_true_eq]

theorem name_getD (new : Symbols) (s : Symbol) : ((new.get? s.name).getD s).name = s.name := by
  cases h : new.get? s.name with
  | none => rfl
  | some s' => exact Symbols.name_of_get? h

end CheckAbiLemmas

section

variable {config : ConfigCore} {arch featureset flavour : Text} {ignores : List Text}
  (hcollect : collectIgnores config arch featureset flavour = some ignores)
  (hignores : ∀ ignore ∈ ignores, IgnoreValid ignore)

include hcollect hignores

/-- The build is refused if and only if a symbol of the reference is not compatible and
no pattern applies to it. -/
theorem verdict_iff {newFile refFile : Text} {new ref : Symbols}
    (hnew : Symbols.read newFile = some new) (href : Symbols.read refFile = some ref) :
    ∃ ret, verdict config arch featureset flavour newFile (some refFile) = some ret ∧
      (ret = 0 ∨ ret = 1) ∧
      (ret = 1 ↔ ∃ s, ref.get? s.name = some s ∧ Incompatible new s ∧
        ∀ ignore ∈ ignores, ¬ IgnoreApplies ignore s.name (moduleOf new s)) := by
  obtain ⟨ignored, hign, hmem⟩ := abiIgnored_eq hignores (abiCmp ref new).symbols
  have heffective : ∀ {l : List SymbolInfo}, (∀ i ∈ l, i ∈ (abiCmp ref new).symbols) →
      ((l.filter fun i => ¬ ignored.contains i.symbol.name) ≠ [] ↔ ∃ i ∈ l,
        ∀ ignore ∈ ignores, ¬ IgnoreApplies ignore i.symbol.name i.symbol.module) := by
    intro l hl
    have hcontains : ∀ name, ignored.contains name = true ↔ name ∈ ignored :=
      fun _ => List.contains_iff_mem
    rw [ne_eq, List.filter_eq_nil_iff, not_forall]
    simp only [not_forall, not_not, exists_prop, decide_eq_true_iff, hcontains, hmem]
    refine exists_congr fun i => and_congr_right fun hi => ?_
    constructor
    · intro hno ignore hi' happ
      exact hno ⟨i, hl i hi, rfl, ignore, hi', happ⟩
    · rintro hno ⟨j, hj, hname, ignore, hi', happ⟩
      rw [symbols_unique hj (hl i hi) hname] at happ
      exact hno ignore hi' happ
  have hsub : ∀ i, (i ∈ (abiCmp ref new).change → i ∈ (abiCmp ref new).symbols) ∧
      (i ∈ (abiCmp ref new).remove → i ∈ (abiCmp ref new).symbols) := fun i =>
    ⟨fun h => List.mem_append_left _ (List.mem_append_right _ h), List.mem_append_right _⟩
  have hrefused := @incompatible_iff ref new fun i =>
    ∀ ignore ∈ ignores, ¬ IgnoreApplies ignore i.symbol.name i.symbol.module
  have hiff : (((abiCmp ref new).change.filter fun i =>
      ¬ ignored.contains i.symbol.name) ≠ [] ∨
      ((abiCmp ref new).remove.filter fun i => ¬ ignored.contains i.symbol.name) ≠ []) ↔
      ∃ s, ref.get? s.name = some s ∧ Incompatible new s ∧
        ∀ ignore ∈ ignores, ¬ IgnoreApplies ignore s.name (moduleOf new s) := by
    rw [heffective fun i => (hsub i).1, heffective fun i => (hsub i).2, ← exists_or]
    simp only [← or_and_right]
    rw [hrefused]
    simp only [name_getD]
    rfl
  rw [verdict_eq hnew href hcollect hign]
  by_cases hr : ∃ s, ref.get? s.name = some s ∧ Incompatible new s ∧
      ∀ ignore ∈ ignores, ¬ IgnoreApplies ignore s.name (moduleOf new s)
  · exact ⟨1, by rw [if_pos (hiff.mpr hr)], .inr rfl, iff_of_true rfl hr⟩
  · exact ⟨0, by rw [if_neg fun h => hr (hiff.mp h)], .inl rfl, iff_of_false nofun hr⟩

/-- A build in which every symbol of the reference has the same version and export type is
accepted. -/
theorem verdict_of_same {newFile refFile : Text} {new ref : Symbols}
    (hnew : Symbols.read newFile = some new) (href : Symbols.read refFile = some ref)
    (hsame : ∀ s, ref.get? s.name = some s → ∃ s', new.get? s.name = some s' ∧
      s'.version = s.version ∧ s'.exportType = s.exportType) :
    verdict config arch featureset flavour newFile (some refFile) = some 0 := by
  obtain ⟨ret, hret, hcases, hiff⟩ := verdict_iff hcollect hignores hnew href
  rcases hcases with rfl | rfl
  · exact hret
  · obtain ⟨s, hs, hinc, -⟩ := hiff.mp rfl
    obtain ⟨s', hs', hv, he⟩ := hsame s hs
    exact ((hinc s' hs').elim (fun h => h hv) fun h => h he).elim

/-- The verdict depends only on the symbols of the reference. -/
theorem verdict_congr {newFile newFile' refFile : Text} {new new' ref : Symbols}
    (hnew : Symbols.read newFile = some new) (hnew' : Symbols.read newFile' = some new')
    (href : Symbols.read refFile = some ref)
    (hsame : ∀ s, ref.get? s.name = some s → new'.get? s.name = new.get? s.name) :
    verdict config arch featureset flavour newFile' (some refFile) =
      verdict config arch featureset flavour newFile (some refFile) := by
  obtain ⟨ret, hret, hcases, hiff⟩ := verdict_iff hcollect hignores hnew href
  obtain ⟨ret', hret', hcases', hiff'⟩ := verdict_iff hcollect hignores hnew' href
  have hrefused : ret = 1 ↔ ret' = 1 := by
    rw [hiff, hiff']
    refine exists_congr fun s => and_congr_right fun hs => ?_
    rw [Incompatible, Incompatible, moduleOf, moduleOf, hsame s hs]
  rw [hret, hret']
  rcases hcases with rfl | rfl
  · rcases hcases' with rfl | rfl
    · rfl
    · cases hrefused.mpr rfl
  · rw [hrefused.mp rfl]

end

/-- Two patterns for all architectures. -/
def ignoreConfig : ConfigCore :=
  ConfigCore.set (fun _ => none) [some "abi"]
    (Items.empty.set "ignore-changes" (.list ["module:net/**", "__kvm_*"]))

end DebianKernel.Debian
