import DebianKernel.Debian.CheckAbi

/-!
# The layers of a configuration

`get_merge`, `merge` and `CheckAbi._ignore` each go through the layers of a scope by a list
of their own: the first and the last from the most specific layer on, `merge` from the most
general one on.

Results:
1. `getMerge_values`, `getMerge_lists`: what `get_merge` makes of values that are no lists,
   and of lists.
2. `layers_agree`: when the three of them say the same.
3. `ignores_differ`: a layer with a text that hides the lists of the layers below.
-/

namespace DebianKernel.Debian

namespace ConfigCore

/-- The layers of a scope, the most specific one first. -/
def layers (sect : Text) (arch featureset flavour : Option Text) : List Key :=
  (mergeKeys sect arch featureset flavour).reverse

/-- The list that a layer holds. -/
def listAt (config : ConfigCore) (item : Text) (key : Key) : List Text :=
  match config.get key item with
  | some (.list l) => l
  | _ => []

end ConfigCore

namespace ConfigLemmas

open ConfigCore

theorem getMergeValues_eq (config : ConfigCore) (sect : Text)
    (arch featureset flavour : Option Text) (item : Text) :
    config.getMergeValues sect arch featureset flavour item =
      (layers sect arch featureset flavour).map fun key => config.get key item := by
  unfold getMergeValues layers mergeKeys scopeKeys
  cases named arch <;> cases named featureset <;> cases named flavour <;> rfl

/-- An update puts the later layers before the earlier ones. -/
theorem foldl_update (config : ConfigCore) (keys : List Key) (d : Items) (item : Text) :
    keys.foldl (fun ret key => ret.update (config.get key)) d item =
      ((keys.reverse.map fun key => config.get key item).findSome? id).or (d item) := by
  induction keys generalizing d with
  | nil => rfl
  | cons key keys ih =>
    rw [List.foldl_cons, ih, List.reverse_cons, List.map_append, List.findSome?_append,
      Option.or_assoc]
    cases hvalue : config.get key item with
    | none => simp [Items.update_of_none hvalue, hvalue]
    | some v => simp [Items.update_of_some hvalue, hvalue]

theorem merge_eq (config : ConfigCore) (sect : Text) (arch featureset flavour : Option Text)
    (item : Text) :
    config.merge sect arch featureset flavour item =
      ((layers sect arch featureset flavour).map fun key => config.get key item).findSome? id := by
  rw [merge, foldl_update]
  exact Option.or_none

theorem getMergeLoop_values (default : Option Value) {values : List (Option Value)}
    (h : ∀ v, some v ∈ values → v.isList = false) :
    getMergeLoop default [] values = (values.findSome? id).or default := by
  induction values with
  | nil => rfl
  | cons value values ih =>
    cases value with
    | none => exact ih fun v hv => h v (List.mem_cons_of_mem _ hv)
    | some v =>
      cases v with
      | list l =>
        have hlist := h _ List.mem_cons_self
        cases hlist
      | text t => rfl
      | bool b => rfl
      | int n => rfl

theorem getMergeLoop_lists (config : ConfigCore) (item : Text) (default : Option Value)
    {keys : List Key} (h : ∀ key ∈ keys, ∀ v, config.get key item = some v → v.isList = true)
    (ret : List Text) :
    getMergeLoop default ret (keys.map fun key => config.get key item) =
      if ret ++ keys.flatMap (config.listAt item) = [] then default
      else some (.list (ret ++ keys.flatMap (config.listAt item))) := by
  induction keys generalizing ret with
  | nil =>
    rw [List.flatMap_nil, List.append_nil, List.map_nil, getMergeLoop]
    exact ite_not _ _ _
  | cons key keys ih =>
    have hkeys := ih fun k hk => h k (List.mem_cons_of_mem _ hk)
    rw [List.map_cons, List.flatMap_cons, ← List.append_assoc]
    cases hvalue : config.get key item with
    | none =>
      have hnil : config.listAt item key = [] := by rw [listAt, hvalue]
      rw [hnil, List.append_nil]
      exact hkeys ret
    | some v =>
      cases v with
      | list l =>
        have hlist : config.listAt item key = l := by rw [listAt, hvalue]
        rw [hlist]
        exact hkeys (ret ++ l)
      | text t => cases h key List.mem_cons_self _ hvalue
      | bool b => cases h key List.mem_cons_self _ hvalue
      | int n => cases h key List.mem_cons_self _ hvalue

/-- A named scope has all six layers, in the order of `_ignore`. -/
theorem layers_abi {arch featureset flavour : Text} (ha : arch ≠ []) (hfs : featureset ≠ [])
    (hfl : flavour ≠ []) :
    layers "abi" (some arch) (some featureset) (some flavour) =
      abiKeys arch featureset flavour := by
  have hnamed : ∀ {t : Text}, t ≠ [] → named (some t) = some t := fun ht => by
    rw [named, Option.filter_some, if_pos (decide_eq_true ht)]
  rw [layers, mergeKeys, hnamed ha, hnamed hfs, hnamed hfl]
  rfl

theorem collectIgnores_of_lists {config : ConfigCore} {arch featureset flavour : Text}
    (h : ∀ key ∈ abiKeys arch featureset flavour, ∀ v,
      config.get key "ignore-changes" = some v → v.isList = true) :
    collectIgnores config arch featureset flavour =
      some ((abiKeys arch featureset flavour).flatMap (config.listAt "ignore-changes")) := by
  have hall : ∀ keys : List Key, (∀ key ∈ keys, ∀ v,
      config.get key "ignore-changes" = some v → v.isList = true) →
      keys.mapM (fun key => ((config.get key "ignore-changes").getD (.list [])).elements) =
        some (keys.map (config.listAt "ignore-changes")) := by
    intro keys
    induction keys with
    | nil => exact fun _ => rfl
    | cons key keys ih =>
      intro hkeys
      have helements : ((config.get key "ignore-changes").getD (.list [])).elements =
          some (config.listAt "ignore-changes" key) := by
        rw [listAt]
        cases hvalue : config.get key "ignore-changes" with
        | none => rfl
        | some v =>
          cases v with
          | list l => rfl
          | text t => cases hkeys key List.mem_cons_self _ hvalue
          | bool b => cases hkeys key List.mem_cons_self _ hvalue
          | int n => cases hkeys key List.mem_cons_self _ hvalue
      rw [List.mapM_cons, helements, ih fun k hk => hkeys k (List.mem_cons_of_mem _ hk)]
      rfl
  rw [collectIgnores, hall _ h]
  rfl

end ConfigLemmas

open ConfigCore ConfigLemmas

/-- Of values that are no lists, `get_merge` returns the most specific one, as `merge` does. -/
theorem getMerge_values {config : ConfigCore} {sect : Text} {arch featureset flavour : Option Text}
    {item : Text} (default : Option Value)
    (h : ∀ key ∈ layers sect arch featureset flavour, ∀ v,
      config.get key item = some v → v.isList = false) :
    config.getMerge sect arch featureset flavour item default =
      (config.merge sect arch featureset flavour item).or default := by
  rw [getMerge, merge_eq, getMergeValues_eq]
  refine getMergeLoop_values default fun v hv => ?_
  obtain ⟨key, hkey, hvalue⟩ := List.mem_map.mp hv
  exact h key hkey v hvalue

/-- Lists are put together. -/
theorem getMerge_lists {config : ConfigCore} {sect : Text} {arch featureset flavour : Option Text}
    {item : Text} (default : Option Value)
    (h : ∀ key ∈ layers sect arch featureset flavour, ∀ v,
      config.get key item = some v → v.isList = true) :
    config.getMerge sect arch featureset flavour item default =
      if (layers sect arch featureset flavour).flatMap (config.listAt item) = [] then default
      else some (.list ((layers sect arch featureset flavour).flatMap (config.listAt item))) := by
  rw [getMerge, getMergeValues_eq]
  exact getMergeLoop_lists config item default h []

/-- The patterns of `CheckAbi` are the elements of the merged list. -/
theorem collectIgnores_getMerge {config : ConfigCore} {arch featureset flavour : Text}
    (ha : arch ≠ []) (hfs : featureset ≠ []) (hfl : flavour ≠ [])
    (h : ∀ key ∈ abiKeys arch featureset flavour, ∀ v,
      config.get key "ignore-changes" = some v → v.isList = true) :
    collectIgnores config arch featureset flavour =
      (config.getMerge "abi" (some arch) (some featureset) (some flavour) "ignore-changes"
        (some (.list []))).bind Value.elements := by
  rw [collectIgnores_of_lists h, ← layers_abi ha hfs hfl, getMerge_lists]
  · split
    · next hnil => rw [hnil]; rfl
    · rfl
  · rwa [layers_abi ha hfs hfl]

/-- The three walks agree: on values that are no lists, on lists, and on the patterns that
`CheckAbi` ignores when these are lists. -/
theorem layers_agree (config : ConfigCore) :
    (∀ (sect item : Text) (arch featureset flavour : Option Text) (default : Option Value),
      ((∀ key ∈ layers sect arch featureset flavour, ∀ v,
          config.get key item = some v → v.isList = false) →
        config.getMerge sect arch featureset flavour item default =
          (config.merge sect arch featureset flavour item).or default) ∧
      ((∀ key ∈ layers sect arch featureset flavour, ∀ v,
          config.get key item = some v → v.isList = true) →
        config.getMerge sect arch featureset flavour item default =
          if (layers sect arch featureset flavour).flatMap (config.listAt item) = [] then default
          else some (.list ((layers sect arch featureset flavour).flatMap (config.listAt item))))) ∧
    ∀ arch featureset flavour : Text, arch ≠ [] → featureset ≠ [] → flavour ≠ [] →
      (∀ key ∈ abiKeys arch featureset flavour, ∀ v,
        config.get key "ignore-changes" = some v → v.isList = true) →
      ∃ patterns value elements,
        collectIgnores config arch featureset flavour = some patterns ∧
        config.getMerge "abi" (some arch) (some featureset) (some flavour) "ignore-changes"
          (some (.list [])) = some value ∧
        value.elements = some elements ∧ ∀ pattern, pattern ∈ patterns ↔ pattern ∈ elements := by
  refine ⟨fun sect item arch featureset flavour default =>
    ⟨getMerge_values default, getMerge_lists default⟩, ?_⟩
  intro arch featureset flavour ha hfs hfl h
  have hcollect := collectIgnores_of_lists h
  have hmerge := collectIgnores_getMerge ha hfs hfl h
  rw [hcollect] at hmerge
  obtain ⟨value, hvalue, helements⟩ := Option.bind_eq_some_iff.mp hmerge.symm
  exact ⟨_, value, _, hcollect, hvalue, helements, fun _ => Iff.rfl⟩

/-- Patterns for all architectures, and for one of them the value `own`. -/
def layeredConfig (own : Value) : ConfigCore :=
  (ConfigCore.set (fun _ => none) [some "abi"]
    (Items.empty.set "ignore-changes" (.list ["module:fs/*"]))).set
    [some "abi", some "armel"] (Items.empty.set "ignore-changes" own)

theorem layers_agree_lists :
    (layeredConfig (.list ["ssb_*"])).getMerge "abi" (some "armel") (some "none")
        (some "kirkwood") "ignore-changes" none = some (.list ["ssb_*", "module:fs/*"]) ∧
      ∃ patterns value elements,
        collectIgnores (layeredConfig (.list ["ssb_*"])) "armel" "none" "kirkwood" =
          some patterns ∧
        (layeredConfig (.list ["ssb_*"])).getMerge "abi" (some "armel") (some "none")
          (some "kirkwood") "ignore-changes" (some (.list [])) = some value ∧
        value.elements = some elements ∧
          ∀ pattern, pattern ∈ patterns ↔ pattern ∈ elements := by
  have hlists : ∀ key v, (layeredConfig (.list ["ssb_*"])).get key "ignore-changes" = some v →
      v.isList = true := by
    intro key v hv
    rw [ConfigCore.get, layeredConfig, ConfigCore.set, ConfigCore.set] at hv
    split at hv
    · cases hv
      rfl
    · split at hv
      · cases hv
        rfl
      · cases hv
  obtain ⟨hwalks, hignores⟩ := layers_agree (layeredConfig (.list ["ssb_*"]))
  refine ⟨?_, hignores "armel" "none" "kirkwood" (by decide) (by decide) (by decide)
    fun key _ v hv => hlists key v hv⟩
  rw [(hwalks "abi" "ignore-changes" (some "armel") (some "none") (some "kirkwood") none).2
    fun key _ v hv => hlists key v hv]
  decide

/-- A text in the layer of the architecture: `get_merge` stops there, `CheckAbi` goes on. -/
theorem ignores_differ :
    ¬ ∀ (config : ConfigCore) (arch featureset flavour : Text),
      arch ≠ [] → featureset ≠ [] → flavour ≠ [] →
      ∃ patterns value elements,
        collectIgnores config arch featureset flavour = some patterns ∧
        config.getMerge "abi" (some arch) (some featureset) (some flavour) "ignore-changes"
          (some (.list [])) = some value ∧
        value.elements = some elements ∧ ∀ pattern, pattern ∈ patterns ↔ pattern ∈ elements := by
  intro h
  obtain ⟨patterns, value, elements, hpatterns, hvalue, helements, hsame⟩ :=
    h (layeredConfig (.text "s")) "armel" "none" "kirkwood" (by decide) (by decide) (by decide)
  have hcollect : collectIgnores (layeredConfig (.text "s")) "armel" "none" "kirkwood" =
      some [("s" : Text), "module:fs/*"] := by decide
  have hmerge : (layeredConfig (.text "s")).getMerge "abi" (some "armel") (some "none")
      (some "kirkwood") "ignore-changes" (some (.list [])) = some (.text "s") := by decide
  rw [hcollect] at hpatterns
  rw [hmerge] at hvalue
  cases hpatterns
  cases hvalue
  have helements' : elements = [("s" : Text)] := (Option.some.inj helements).symm
  rw [helements'] at hsame
  exact absurd ((hsame "module:fs/*").mp (by decide)) (by decide)

end DebianKernel.Debian
