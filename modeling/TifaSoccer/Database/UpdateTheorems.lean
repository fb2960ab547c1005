import TifaSoccer.Database.CompoundWriteTheorems
import TifaSoccer.Database.SnapshotTheorems

/-!
# Updates with several paths

`compoundWriteFromDictionary` merges the entries of a dictionary in the order of an enumeration,
which nothing determines, and refuses keys and values that are not valid, and paths of which one is
above another one. For that it sorts the paths and looks at neighbours only, which is enough because
the order of the paths is lexicographic.
-/

namespace TifaSoccer

/-! ## The order of the paths -/

namespace FPath

open FUtilities

/-- What `compare` looks at in a path. -/
def ranks (p : FPath) := p.components.map fun piece => rank (.key piece)

/-- The loop of `compare:` looks at the first components. -/
theorem compareLoop_cons (a b : NSString) (as bs : List NSString) :
    compareLoop (a :: as) (b :: bs) =
      if rank (.key a) < rank (.key b) then some .lt
      else if rank (.key b) < rank (.key a) then some .gt
      else compareLoop as bs := by
  simp only [compareLoop, compareKey_eq]
  rcases lt_trichotomy (rank (.key a)) (rank (.key b)) with h | h | h
  · rw [compare_lt_iff_lt.mpr h, if_pos (by decide), if_pos h]
  · rw [compare_eq_iff_eq.mpr h, if_neg (by decide), if_neg h.not_lt, if_neg h.symm.not_lt]
  · rw [compare_gt_iff_gt.mpr h, if_pos (by decide), if_neg h.not_gt, if_pos h]

/-- The loop, and the lengths if it finds no difference. -/
theorem compareLoop_ne_gt_iff (as bs : List NSString) :
    ((compareLoop as bs).getD
        (if as.length < bs.length then .lt else if bs.length < as.length then .gt else .eq)) ≠ .gt ↔
      as.map (fun piece => rank (.key piece)) ≤ bs.map fun piece => rank (.key piece) := by
  induction as generalizing bs with
  | nil =>
    refine iff_of_true ?_ (Paths.le_of_isPrefix List.nil_prefix)
    cases bs <;> simp [compareLoop]
  | cons a as ih =>
    cases bs with
    | nil => simp [compareLoop]
    | cons b bs =>
      rw [compareLoop_cons, List.map_cons, List.map_cons, Paths.cons_le_cons_iff]
      rcases lt_trichotomy (rank (.key a)) (rank (.key b)) with h | h | h
      · rw [if_pos h]
        exact iff_of_true (by simp) (.inl h)
      · rw [if_neg h.not_lt, if_neg h.symm.not_lt]
        simp only [List.length_cons, Nat.add_lt_add_iff_right]
        rw [ih bs]
        exact ⟨fun hle => .inr ⟨h, hle⟩, fun hle => (hle.resolve_left h.not_lt).2⟩
      · rw [if_neg h.not_gt, if_pos h]
        refine iff_of_false (by simp) ?_
        rintro (hlt | ⟨heq, -⟩)
        · exact absurd hlt h.not_gt
        · exact absurd heq h.ne'

/-- The sort never has to move a path with smaller ranks. -/
theorem compare_ne_gt_iff (p other : FPath) : p.compare other ≠ .gt ↔ p.ranks ≤ other.ranks := by
  rw [ranks, ranks, ← compareLoop_ne_gt_iff, ← length_eq, ← length_eq]
  unfold compare
  cases compareLoop p.components other.components <;> rfl

/-- The path has components that are keys of a dictionary. -/
def HasKeys (p : FPath) : Prop := ∃ keys : List FKey, p.components = keys.map FKey.text

/-- On keys, ranks and components have the same beginnings. -/
theorem HasKeys.ranks_prefix_iff {p q : FPath} (hp : p.HasKeys) (hq : q.HasKeys) :
    p.ranks <+: q.ranks ↔ p.components <+: q.components := by
  obtain ⟨keys, hkeys⟩ := hp
  obtain ⟨keys', hkeys'⟩ := hq
  rw [ranks, ranks, hkeys, hkeys', List.map_map, List.map_map,
    List.prefix_map_iff_of_injective FKey.text_injective,
    ← List.prefix_map_iff_of_injective FKey.rank_injective]
  rfl

end FPath

namespace FSnapshotUtilities

/-- The loop compares each path with its neighbour. -/
theorem ancestorLoop_eq_ok (fn : String) (prevPath : Option FPath) (paths : List FPath) :
    ancestorLoop fn prevPath paths = .ok () ↔
      (prevPath.toList ++ paths).IsChain fun p q => ¬ p.components <+: q.components := by
  induction paths generalizing prevPath with
  | nil => cases prevPath <;> simp [ancestorLoop]
  | cons path paths ih =>
    cases prevPath with
    | none => exact ih (some path)
    | some prev =>
      show _ ↔ List.IsChain _ (prev :: path :: paths)
      rw [ancestorLoop, List.isChain_cons_cons, ← FPath.contains_iff]
      split_ifs with hcontains
      · exact iff_of_false (fun h => by cases h) fun h => h.1 hcontains
      · rw [ih (some path)]
        exact ⟨fun h => ⟨hcontains, h⟩, fun h => h.2⟩

/-- The paths are sorted by their ranks. -/
theorem sorted_sortUpdatePaths (paths : List FPath) :
    (sortUpdatePaths paths).Pairwise fun p q => p.ranks ≤ q.ranks := by
  have hsorted : (sortUpdatePaths paths).Pairwise fun p q => decide (p.compare q ≠ .gt) = true := by
    apply List.pairwise_mergeSort
    · intro a b c hab hbc
      rw [decide_eq_true_iff, FPath.compare_ne_gt_iff] at hab hbc ⊢
      exact hab.trans hbc
    · intro a b
      rw [Bool.or_eq_true, decide_eq_true_iff, decide_eq_true_iff, FPath.compare_ne_gt_iff,
        FPath.compare_ne_gt_iff]
      exact le_total a.ranks b.ranks
  exact hsorted.imp fun h => (FPath.compare_ne_gt_iff _ _).mp (of_decide_eq_true h)

/-- The look at neighbours finds every path that is above another one. -/
theorem ancestorLoop_sorted_iff {paths : List FPath} (hkeys : ∀ p ∈ paths, p.HasKeys)
    (fn : String) :
    ancestorLoop fn none (sortUpdatePaths paths) = .ok () ↔
      paths.Pairwise fun p q => Json.Diverge p.components q.components := by
  have hperm : (sortUpdatePaths paths).Perm paths := List.mergeSort_perm _ _
  have hsymm : ∀ {p q : FPath}, Json.Diverge p.components q.components →
      Json.Diverge q.components p.components := fun h => h.symm
  rw [ancestorLoop_eq_ok, ← hperm.pairwise_iff hsymm]
  show List.IsChain _ (sortUpdatePaths paths) ↔ _
  constructor
  · intro hchain
    have hchain' : (sortUpdatePaths paths).IsChain fun p q => ¬ p.ranks <+: q.ranks := by
      refine hchain.imp_of_mem_imp fun p q hp hq hnot => ?_
      rwa [(hkeys p (hperm.mem_iff.mp hp)).ranks_prefix_iff (hkeys q (hperm.mem_iff.mp hq))]
    refine (Paths.pairwise_not_prefix (sorted_sortUpdatePaths paths) hchain').imp_of_mem ?_
    intro p q hp hq hnot
    have hp' := hkeys p (hperm.mem_iff.mp hp)
    have hq' := hkeys q (hperm.mem_iff.mp hq)
    rw [hp'.ranks_prefix_iff hq', hq'.ranks_prefix_iff hp'] at hnot
    rcases Json.prefix_or_diverge p.components q.components with h | h | h
    · exact absurd h hnot.1
    · exact absurd h hnot.2
    · exact h
  · intro hpairwise
    exact hpairwise.isChain.imp fun p q hdiv hpre => Json.not_diverge_of_prefix hpre hdiv

/-! ## The compound write -/

/-- The components of an update key. -/
theorem components_pathWithString (keyId : UpdateKey) :
    (FPath.pathWithString keyId.text).components = keyId.keys.map FKey.text := by
  rw [UpdateKey.keys, List.map_map]
  exact (List.attach_map_subtype_val _).symm

/-- Every component of every path is a valid key. -/
def ValidKeys {V : Type} (values : List (UpdateKey × NSObject V)) : Prop :=
  ∀ e ∈ values, ∀ piece ∈ (FPath.pathWithString e.1.text).components,
    FValidation.isValidKey piece = true

/-- No path is above another one, or the same. -/
def PathsApart {V : Type} (values : List (UpdateKey × NSObject V)) : Prop :=
  values.Pairwise fun e e' => Json.Diverge e.1.keys e'.1.keys

/-- Every value can be stored. -/
def StorableValues {V : Type} (F : Foundation V) (values : List (UpdateKey × NSObject V)) : Prop :=
  ∀ e ∈ values, e.2.Storable F 1000

open Classical in
/-- The JSON value of an object. -/
noncomputable def jsonOf {V : Type} (value : NSObject V) : Json FKey V :=
  if h : ∀ t ∈ value.tree, t.Canonical then ⟨value.tree, h⟩ else .null

/-- A node of a value represents its JSON value. -/
theorem represents_jsonOf {V : Type} {value : NSObject V} {node : FNode FKey V}
    (h : node.Represents value.tree) : node.Represents (jsonOf value).root := by
  rw [jsonOf, dif_pos h.canonical]
  exact h

/-- The writes of a dictionary. -/
noncomputable def writesOfValues {V : Type} (values : List (UpdateKey × NSObject V)) :
    List (List FKey × Json FKey V) :=
  values.map fun e => (e.1.keys, jsonOf e.2)

variable {V : Type}

/-- An update key is let through if all its components are valid. -/
theorem validUpdateDictionaryKey_eq_ok (fn : String) (keyId : NSString) :
    FValidation.validUpdateDictionaryKey fn keyId = .ok () ↔
      ∀ piece ∈ (FPath.pathWithString keyId).components, FValidation.isValidKey piece = true := by
  unfold FValidation.validUpdateDictionaryKey
  rw [← List.all_eq_true]
  split_ifs with h
  · exact iff_of_true rfl h
  · exact iff_of_false (fun heq => by cases heq) h

/-- The check succeeds if no path is above another one. -/
theorem pathsApart_iff (values : List (UpdateKey × NSObject V)) (fn : String) :
    ancestorLoop fn none (sortUpdatePaths (values.map fun e => .pathWithString e.1.text)) = .ok () ↔
      PathsApart values := by
  have hkeys : ∀ p ∈ values.map (fun e => FPath.pathWithString e.1.text), p.HasKeys := by
    intro p hp
    obtain ⟨e, -, rfl⟩ := List.mem_map.mp hp
    exact ⟨e.1.keys, components_pathWithString e.1⟩
  rw [ancestorLoop_sorted_iff hkeys, List.pairwise_map]
  simp only [components_pathWithString, Json.diverge_map_iff FKey.text_injective]
  exact Iff.rfl

/-- The loop over the dictionary: the writes are merged in turn if every key and value passes. -/
theorem mergeLoop_cases {F : Foundation V} {b : ℕ} (hb : b + 1 < 2 ^ 32)
    {values : List (UpdateKey × NSObject V)} (hplain : ∀ e ∈ values, e.2.Plain F b) (fn : String)
    {w : FCompoundWrite FKey V} {W : Writes FKey V} (hw : w.Represents W) :
    (ValidKeys values ∧ StorableValues F values ∧ ∃ w',
      values.foldlM (mergeEntry F fn) w = .ok w' ∧
      w'.Represents ((writesOfValues values).foldl (fun W e => W.add e.1 e.2) W)) ∨
    (¬ (ValidKeys values ∧ StorableValues F values) ∧
      ∃ e, values.foldlM (mergeEntry F fn) w = .error e) := by
  induction values generalizing w W with
  | nil => exact .inl ⟨List.forall_mem_nil _, List.forall_mem_nil _, w, rfl, hw⟩
  | cons value values ih =>
    obtain ⟨hvalue, hrest⟩ := List.forall_mem_cons.mp hplain
    rw [List.foldlM_cons]
    cases hkey : FValidation.validUpdateDictionaryKey fn value.1.text with
    | error e =>
      refine .inr ⟨fun hvalid => ?_, e, by rw [mergeEntry, hkey]; rfl⟩
      have hok := (validUpdateDictionaryKey_eq_ok fn _).mpr (hvalid.1 value List.mem_cons_self)
      rw [hkey] at hok
      cases hok
    | ok u =>
      have hhead := (validUpdateDictionaryKey_eq_ok fn value.1.text).mp hkey
      rcases nodeFrom_cases hb fn hvalue with ⟨hstorable, node, hnode, hrep⟩ | ⟨hnot, e, he⟩
      · obtain ⟨w₁, hw₁, h₁⟩ := hw.addWrite (represents_jsonOf hrep) value.1.keys
        have hturn : mergeEntry F fn w value = .ok w₁ := by
          rw [mergeEntry, hkey, hnode]
          exact hw₁
        rw [hturn, writesOfValues, List.map_cons, List.foldl_cons]
        rcases ih hrest h₁ with ⟨hvalid, hvalues, w', hw', h'⟩ | ⟨hnot, herror⟩
        · exact .inl ⟨List.forall_mem_cons.mpr ⟨hhead, hvalid⟩,
            List.forall_mem_cons.mpr ⟨hstorable, hvalues⟩, w', hw', h'⟩
        · exact .inr ⟨fun h => hnot ⟨(List.forall_mem_cons.mp h.1).2,
            (List.forall_mem_cons.mp h.2).2⟩, herror⟩
      · refine .inr ⟨fun h => hnot (h.2 value List.mem_cons_self), e, ?_⟩
        rw [mergeEntry, hkey, he]
        rfl

/-- What the compound write of a dictionary stands for: all its writes in turn, and an exception
if a key or a value is not valid or a path is above another one. -/
theorem compoundWriteFromDictionary_cases {F : Foundation V} {b : ℕ} (hb : b + 1 < 2 ^ 32)
    {values : List (UpdateKey × NSObject V)} (hplain : ∀ e ∈ values, e.2.Plain F b) (fn : String) :
    (ValidKeys values ∧ StorableValues F values ∧ PathsApart values ∧
      ∃ w, compoundWriteFromDictionary F values fn = .ok w ∧
        w.Represents (Writes.layer (writesOfValues values))) ∨
    (¬ (ValidKeys values ∧ StorableValues F values ∧ PathsApart values) ∧
      ∃ e, compoundWriteFromDictionary F values fn = .error e) := by
  unfold compoundWriteFromDictionary
  rcases mergeLoop_cases hb hplain fn FCompoundWrite.represents_emptyWrite with
    ⟨hvalid, hvalues, w, hw, hrep⟩ | ⟨hnot, e, he⟩
  · rw [hw]
    cases hancestor : ancestorLoop fn none
        (sortUpdatePaths (values.map fun e => .pathWithString e.1.text)) with
    | error e =>
      refine .inr ⟨fun h => ?_, e, rfl⟩
      rw [(pathsApart_iff values fn).mpr h.2.2] at hancestor
      cases hancestor
    | ok u =>
      exact .inl ⟨hvalid, hvalues, (pathsApart_iff values fn).mp hancestor, w, rfl, hrep⟩
  · rw [he]
    exact .inr ⟨fun h => hnot ⟨h.1, h.2.1⟩, e, rfl⟩

/-- In which order the dictionary is enumerated does not matter: an update is refused exactly if a
key or a value is not valid or one path is above another one, or the same; otherwise every order
gives a compound write with the same effect on every node without a leaf above one of the paths, and
each path then has its value. -/
theorem compoundWriteFromDictionary_in_any_order [DecidableEq V] (F : Foundation V) {b : ℕ}
    (hb : b + 1 < 2 ^ 32) (values values' : List (UpdateKey × NSObject V))
    (hperm : values.Perm values') (hplain : ∀ e ∈ values, e.2.Plain F b) (fn : String) :
    ((∃ w, compoundWriteFromDictionary F values fn = .ok w) ↔
      ValidKeys values ∧ StorableValues F values ∧ PathsApart values) ∧
    ∀ w, compoundWriteFromDictionary F values fn = .ok w →
      ∃ w', compoundWriteFromDictionary F values' fn = .ok w' ∧
      ∀ (node : FNode FKey V) (j : Json FKey V), node.Represents j.root →
        (∀ e ∈ values, j.Open e.1.keys) →
        ∃ node₁ node₂, w.applyToNode node = .ok node₁ ∧ w'.applyToNode node = .ok node₂ ∧
          node₁.isEqual node₂ = true ∧
          ∀ e ∈ values, ∀ value, nodeFrom F e.2 fn = .ok value →
            (node₁.getChild e.1.keys).isEqual value = true := by
  have hplain' : ∀ e ∈ values', e.2.Plain F b := fun e he => hplain e (hperm.mem_iff.mpr he)
  rcases compoundWriteFromDictionary_cases hb hplain fn with
    ⟨hvalid, hvalues, hapart, w, hw, hrep⟩ | ⟨hnot, e, he⟩
  · refine ⟨iff_of_true ⟨w, hw⟩ ⟨hvalid, hvalues, hapart⟩, fun w₀ hw₀ => ?_⟩
    obtain rfl : w = w₀ := Except.ok.inj (hw.symm.trans hw₀)
    have hapart' : PathsApart values' := (hperm.pairwise_iff fun h => h.symm).mp hapart
    have hvalid' : ValidKeys values' := fun e he => hvalid e (hperm.mem_iff.mpr he)
    have hvalues' : StorableValues F values' := fun e he => hvalues e (hperm.mem_iff.mpr he)
    rcases compoundWriteFromDictionary_cases hb hplain' fn with
      ⟨-, -, -, w', hw', hrep'⟩ | ⟨hnot, -⟩
    · refine ⟨w', hw', fun node j hnode hopen => ?_⟩
      obtain ⟨node₁, hnode₁, h₁⟩ := hrep.applyToNode hnode
      obtain ⟨node₂, hnode₂, h₂⟩ := hrep'.applyToNode hnode
      -- both orders come to the same value
      have hopenAt : j.OpenAt (writesOfValues values) := by
        intro u hu
        obtain ⟨e, he, rfl⟩ := List.mem_map.mp hu
        exact hopen e he
      have hmap : (writesOfValues values).Perm (writesOfValues values') := hperm.map _
      have hapartMap : Json.Apart (writesOfValues values) := List.pairwise_map.mpr hapart
      rw [Writes.setAll_layer hrep.lists hopenAt] at h₁
      rw [Writes.setAll_layer hrep'.lists (fun u hu => hopenAt u (hmap.mem_iff.mpr hu)),
        ← Json.setAll_perm hmap hapartMap hopenAt] at h₂
      refine ⟨node₁, node₂, hnode₁, hnode₂, (h₁.isEqual_iff h₂).1.mpr rfl,
        fun e he value hvalue => ?_⟩
      have hget : (j.setAll (writesOfValues values)).get e.1.keys = jsonOf e.2 := by
        refine Json.get_setAll_of_mem j (List.mem_map.mpr ⟨e, he, rfl⟩) fun u hu => ?_
        obtain ⟨e', he', rfl⟩ := List.mem_map.mp hu
        rcases eq_or_ne e' e with rfl | hne
        · exact .inl rfl
        · have hsymm : Std.Symm fun e e' : UpdateKey × NSObject V =>
              Json.Diverge e.1.keys e'.1.keys := ⟨fun _ _ h => h.symm⟩
          exact .inr (hapart.forall he' he hne)
      rcases nodeFrom_cases hb fn (hplain e he) with ⟨-, value', hvalue', hrepValue⟩ | ⟨hnot, -⟩
      · obtain rfl := Except.ok.inj (hvalue'.symm.trans hvalue)
        rw [((h₁.getChild e.1.keys).isEqual_iff (represents_jsonOf hrepValue)).1, hget]
      · exact absurd (hvalues e he) hnot
    · exact absurd ⟨hvalid', hvalues', hapart'⟩ hnot
  · refine ⟨iff_of_false ?_ hnot, fun w hw => ?_⟩
    · rintro ⟨w, hw⟩
      rw [he] at hw
      cases hw
    · rw [he] at hw
      cases hw

/-- The path `a/b` or `a/c`. -/
def sampleKey (last : ℕ) (h : last = 98 ∨ last = 99) : UpdateKey where
  text := [97, 47, last]
  notPriority := by
    rcases h with rfl | rfl <;> decide
  notMinusZero := by
    have hhead : ∀ piece ∈ (FPath.pathWithString [97, 47, last]).components,
        piece.head? ≠ some 45 := by
      rcases h with rfl | rfl <;> decide
    intro piece hpiece n _ _ heq
    exact hhead piece hpiece (heq ▸ rfl)

def sampleValues : List (UpdateKey × NSObject ℕ) :=
  [(sampleKey 98 (.inl rfl), .leaf 1), (sampleKey 99 (.inr rfl), .leaf 2)]

/-- The sample paths are apart. -/
theorem pathsApart_sampleValues : PathsApart sampleValues := by
  refine List.pairwise_pair.mpr ?_
  rw [← Json.diverge_map_iff FKey.text_injective, ← components_pathWithString,
    ← components_pathWithString]
  exact .inr (.inl (by decide))

/-- The sample update, forwards and backwards. -/
theorem compoundWriteFromDictionary_in_any_order_sample :
    ∃ w w', compoundWriteFromDictionary sampleFoundation sampleValues "updateChildValues:" = .ok w ∧
      compoundWriteFromDictionary sampleFoundation sampleValues.reverse "updateChildValues:" =
        .ok w' ∧
      ∃ node₁ node₂, w.applyToNode .emptyNode = .ok node₁ ∧ w'.applyToNode .emptyNode = .ok node₂ ∧
        node₁.isEqual node₂ = true := by
  have h := compoundWriteFromDictionary_in_any_order sampleFoundation
    (show 0 + 1 < 2 ^ 32 by decide) sampleValues sampleValues.reverse
    (List.reverse_perm sampleValues).symm
    (List.forall_mem_cons.mpr ⟨trivial, List.forall_mem_singleton.mpr trivial⟩)
    "updateChildValues:"
  have hstorable : StorableValues sampleFoundation sampleValues :=
    List.forall_mem_cons.mpr ⟨rfl, List.forall_mem_singleton.mpr rfl⟩
  obtain ⟨w, hw⟩ := h.1.mpr ⟨by unfold ValidKeys; decide, hstorable, pathsApart_sampleValues⟩
  obtain ⟨w', hw', heffect⟩ := h.2 w hw
  obtain ⟨node₁, node₂, hnode₁, hnode₂, hequal, -⟩ :=
    heffect .emptyNode .null FNode.represents_emptyNode fun e _ => Json.open_null e.1.keys
  exact ⟨w, w', hw, hw', node₁, node₂, hnode₁, hnode₂, hequal⟩

-- `00` and `-0` compare as equal, so that `00` is not found to be above `00/a` here
example :
    let paths := ["00", "-0", "00/a"].map fun s => FPath.pathWithString (.ofString s)
    (paths.Pairwise fun p q => p.compare q ≠ .gt) ∧ ancestorLoop "" none paths = .ok () ∧
      (FPath.pathWithString (.ofString "00")).contains (.pathWithString (.ofString "00/a")) =
        true :=
  ⟨by decide, rfl, rfl⟩

end FSnapshotUtilities

end TifaSoccer
