import TifaSoccer.Database.DictionaryTheorems
import TifaSoccer.Database.Node
import TifaSoccer.Lib.JsonPath

/-!
# Nodes represent JSON values

A node `Represents` a canonical JSON value: the children of an `FChildrenNode` are held by a
valid dictionary, none of them is empty, and each represents the value of its key. Reading a path
of a node is `Json.get` and updating it is `Json.set`, and an update never raises an exception.
-/

namespace TifaSoccer

variable {K V : Type} [LinearOrder K]

/-- A dictionary is empty if it has no entries. -/
theorem FImmutableSortedDictionary.Represents.isEmpty {d : FImmutableSortedDictionary K V}
    {es : List (K × V)} (h : d.Represents es) : d.isEmpty = es.isEmpty := by
  rcases h.cases with ⟨rfl, -⟩ | ⟨t, n, rfl, -, rfl⟩
  · exact List.isEmpty_map
  · cases t with
    | empty => rfl
    | node c l k v r => simp [FImmutableSortedDictionary.isEmpty, FLLRBNode.inorderTraversal]

namespace FNode

/-- The node holds the tree: the children of a children node are held by a valid dictionary, and
the one at a key `k` holds `tree k`. -/
inductive Represents : FNode K V → Option (JsonTree K V) → Prop
  | leaf (value : V) : Represents (.leaf value) (some (.leaf value))
  | children {d : FImmutableSortedDictionary K (FNode K V)} {nodes : List (K × FNode K V)}
      (dictionary : d.Represents nodes) (tree : K → JsonTree K V)
      (sub : ∀ e ∈ nodes, Represents e.2 (some (tree e.1))) :
      Represents (.children d) (JsonTree.ofEntries (nodes.map fun e => (e.1, tree e.1)))

/-- The empty node stands for nothing. -/
theorem represents_emptyNode : Represents (emptyNode : FNode K V) none :=
  .children FImmutableSortedDictionary.represents_dictionaryWithComparator
    (fun _ => .object []) (by simp)

variable {node newChildNode : FNode K V} {t c : Option (JsonTree K V)}

/-- The tree of a node is canonical. -/
theorem Represents.canonical (h : Represents node t) : ∀ t' ∈ t, t'.Canonical := by
  induction h with
  | leaf value =>
    rintro t' ⟨⟩
    exact .leaf value
  | @children d nodes dictionary tree sub ih =>
    intro t' ht'
    rw [JsonTree.ofEntries] at ht'
    split_ifs at ht' with hnil
    · cases ht'
    · obtain rfl := Option.mem_some_iff.mp ht'
      refine .object _ (by simpa using hnil) ?_ ?_
      · rw [Entries.Sorted, List.map_map]
        exact dictionary.sorted
      · intro e he
        obtain ⟨e', he', rfl⟩ := List.mem_map.mp he
        exact ih e' he' _ rfl

/-- A node is empty if it stands for nothing. -/
theorem Represents.isEmpty (h : Represents node t) : node.isEmpty = t.isNone := by
  cases h with
  | leaf value => rfl
  | @children d nodes dictionary tree sub =>
    rw [FNode.isEmpty, dictionary.isEmpty]
    cases nodes <;> rfl

/-- A node has as many children as its value has entries. -/
theorem Represents.numChildren (h : Represents node t) :
    node.numChildren = (JsonTree.entries t).length := by
  cases h with
  | leaf value => rfl
  | @children d nodes dictionary tree sub =>
    rw [FNode.numChildren, dictionary.count, JsonTree.entries_ofEntries, List.length_map]

/-- A child of the node stands for the child of the value. -/
theorem Represents.getImmediateChild (h : Represents node t) (childName : K) :
    Represents (node.getImmediateChild childName)
      (Entries.find childName (JsonTree.entries t)) := by
  cases h with
  | leaf value => exact represents_emptyNode
  | @children d nodes dictionary tree sub =>
    rw [FNode.getImmediateChild, dictionary.get, JsonTree.entries_ofEntries, Entries.find_map]
    cases hfind : Entries.find childName nodes with
    | none => exact represents_emptyNode
    | some child =>
      exact sub _ ((Entries.find_eq_some_iff dictionary.sorted).mp hfind)

/-- Writing a child of a node with children. -/
theorem represents_updateChildren {d : FImmutableSortedDictionary K (FNode K V)}
    {nodes : List (K × FNode K V)} (dictionary : d.Represents nodes) (tree : K → JsonTree K V)
    (sub : ∀ e ∈ nodes, Represents e.2 (some (tree e.1))) (childName : K)
    (hc : Represents newChildNode c) :
    ∃ node', updateChildren d childName newChildNode = .ok node' ∧
      Represents node' (JsonTree.setChild
        (JsonTree.ofEntries (nodes.map fun e => (e.1, tree e.1))) childName c) := by
  have hfinish (d' : FImmutableSortedDictionary K (FNode K V)) {nodes' : List (K × FNode K V)}
      (h' : d'.Represents nodes') (tree' : K → JsonTree K V)
      (sub' : ∀ e ∈ nodes', Represents e.2 (some (tree' e.1))) :
      Represents (if d'.isEmpty then emptyNode else .children d')
        (JsonTree.ofEntries (nodes'.map fun e => (e.1, tree' e.1))) := by
    rw [h'.isEmpty]
    cases nodes' with
    | nil => exact represents_emptyNode
    | cons e nodes' => exact .children h' tree' sub'
  cases c with
  | none =>
    have hempty : newChildNode.isEmpty = true := hc.isEmpty
    refine ⟨if (d.removeKey childName).isEmpty then emptyNode
      else .children (d.removeKey childName), ?_, ?_⟩
    · rw [updateChildren, if_pos hempty]
      exact (apply_ite Except.ok _ _ _).symm
    · rw [JsonTree.setChild_ofEntries_none, ← Entries.map_drop]
      exact hfinish _ (dictionary.removeKey childName) tree fun e he =>
        sub e (List.mem_of_mem_filter he)
  | some ct =>
    have hempty : newChildNode.isEmpty = false := hc.isEmpty
    obtain ⟨d', hd', hrep⟩ := dictionary.insertKey childName newChildNode
    refine ⟨if d'.isEmpty then emptyNode else .children d', ?_, ?_⟩
    · rw [updateChildren, if_neg (by simp [hempty]), hd']
      exact (apply_ite Except.ok _ _ _).symm
    · rw [JsonTree.setChild_some, JsonTree.entries_ofEntries,
        ← Entries.map_put tree childName newChildNode ct dictionary.sorted]
      apply hfinish _ hrep
      intro e he
      have hfind := (Entries.find_eq_some_iff hrep.sorted).mpr he
      rw [Entries.find_put] at hfind
      split_ifs at hfind with hk
      · rw [hk, Function.update_self, ← Option.some.inj hfind]
        exact hc
      · rw [Function.update_of_ne hk]
        exact sub e ((Entries.find_eq_some_iff dictionary.sorted).mp hfind)

/-- Updating a child is writing it. -/
theorem Represents.updateImmediateChild (h : Represents node t) (childName : K)
    (hc : Represents newChildNode c) :
    ∃ node', node.updateImmediateChild childName newChildNode = .ok node' ∧
      Represents node' (JsonTree.setChild t childName c) := by
  cases h with
  | leaf value =>
    rw [FNode.updateImmediateChild, hc.isEmpty]
    cases c with
    | none => exact ⟨_, rfl, .leaf value⟩
    | some ct =>
      exact represents_updateChildren
        FImmutableSortedDictionary.represents_dictionaryWithComparator (fun _ => .object [])
        (by simp) childName hc
  | children dictionary tree sub => exact represents_updateChildren dictionary tree sub childName hc

/-! ## Paths -/

variable {j v : Json K V}

/-- The same in terms of values. -/
theorem Represents.child (h : Represents node j.root) (childName : K) :
    Represents (node.getImmediateChild childName) (j.child childName).root :=
  h.getImmediateChild childName

/-- A leaf has no children. -/
theorem Represents.child_leaf {value : V} (h : Represents (.leaf value) j.root) (k : K) :
    j.child k = .null := by
  have hroot : j.root = some (.leaf value) := by
    generalize j.root = t at h
    cases h
    rfl
  apply Json.ext
  show Entries.find k (JsonTree.entries j.root) = none
  rw [hroot]
  rfl

/-- Reading along a path. -/
theorem Represents.getChild (h : Represents node j.root) (path : List K) :
    Represents (node.getChild path) (j.get path).root := by
  induction path generalizing node j with
  | nil =>
    rw [FNode.getChild]
    exact h
  | cons front path ih =>
    cases node with
    | leaf value =>
      rw [FNode.getChild, Json.get, h.child_leaf, Json.null_get]
      exact represents_emptyNode
    | children d =>
      rw [FNode.getChild]
      exact ih (h.child front)

/-- Writing along a path. -/
theorem Represents.updateChild (h : Represents node j.root) (path : List K)
    (hv : Represents newChildNode v.root) :
    ∃ node', node.updateChild path newChildNode = .ok node' ∧
      Represents node' (j.set path v).root := by
  induction path generalizing node j with
  | nil => exact ⟨newChildNode, by rw [FNode.updateChild], hv⟩
  | cons front path ih =>
    cases node with
    | leaf value =>
      rw [FNode.updateChild, hv.isEmpty]
      rw [Json.set_cons, h.child_leaf]
      cases hroot : v.root with
      | none =>
        -- nothing is removed below a leaf
        obtain rfl : v = .null := Json.ext hroot
        refine ⟨.leaf value, rfl, ?_⟩
        rw [Json.set_null_of_get (Json.null_get path), ← h.child_leaf front,
          Json.setChild_child_self]
        exact h
      | some t =>
        obtain ⟨child, hchild, hrep⟩ := ih (j := .null) represents_emptyNode
        obtain ⟨node', hnode', hrep'⟩ := h.updateImmediateChild front hrep
        refine ⟨node', ?_, hrep'⟩
        simp only [Option.isNone_some, Bool.false_eq_true, if_false, hchild]
        exact hnode'
    | children d =>
      obtain ⟨child, hchild, hrep⟩ := ih (h.child front)
      obtain ⟨node', hnode', hrep'⟩ := h.updateImmediateChild front hrep
      refine ⟨node', ?_, hrep'⟩
      rw [FNode.updateChild, hchild]
      exact hnode'

/-! ## Equality -/

/-- What `isEqual:` compares: the numbers of children, then child by child. -/
theorem isEqual_children_iff [DecidableEq V] {d d' : FImmutableSortedDictionary K (FNode K V)} :
    (FNode.children d).isEqual (.children d') = true ↔
      (d.isEmpty = true ∧ d'.isEmpty = true) ∨
      (d.count = d'.count ∧ ∀ e ∈ d.enumerateKeysAndObjects,
        (∃ child, d'.get e.1 = some child ∧ child.isEqual e.2 = true) ∨
        (d'.get e.1 = none ∧ e.2.isEmpty = true)) := by
  rw [FNode.isEqual]
  split_ifs with hempty hcount
  · simpa using Or.inl hempty
  · have hnot : ¬ (d.isEmpty = true ∧ d'.isEmpty = true) := by simpa using hempty
    rw [List.all_eq_true, or_iff_right hnot]
    constructor
    · refine fun h => ⟨hcount, fun e he => ?_⟩
      have hchild := h ⟨e, he⟩ (List.mem_attach _ _)
      split at hchild
      · exact .inl ⟨_, by assumption, hchild⟩
      · exact .inr ⟨by assumption, hchild⟩
    · rintro ⟨-, h⟩ ⟨e, he⟩ -
      rcases h e he with ⟨child, hget, hequal⟩ | ⟨hget, hequal⟩
      · split
        · rename_i child' hget'
          rw [hget] at hget'
          rw [← Option.some.inj hget']
          exact hequal
        · rename_i hget'
          rw [hget] at hget'
          cases hget'
      · split
        · rename_i child' hget'
          rw [hget] at hget'
          cases hget'
        · exact hequal
  · have hnot : ¬ (d.isEmpty = true ∧ d'.isEmpty = true) := by simpa using hempty
    simp [hnot, hcount]

/-- Nodes with children are equal if their children are, key by key. -/
theorem isEqual_children [DecidableEq V] {d d' : FImmutableSortedDictionary K (FNode K V)}
    {nodes nodes' : List (K × FNode K V)} {tree tree' : K → JsonTree K V}
    (hd : d.Represents nodes) (hd' : d'.Represents nodes')
    (hsub : ∀ e ∈ nodes, Represents e.2 (some (tree e.1)))
    (heq : ∀ e ∈ nodes, ∀ e' ∈ nodes', e.1 = e'.1 →
      (e'.2.isEqual e.2 = true ↔ tree' e'.1 = tree e.1)) :
    (FNode.children d).isEqual (.children d') = true ↔
      JsonTree.ofEntries (nodes.map fun e => (e.1, tree e.1)) =
        JsonTree.ofEntries (nodes'.map fun e => (e.1, tree' e.1)) := by
  have hkeys : ∀ {nodes : List (K × FNode K V)} {tree : K → JsonTree K V},
      Entries.Sorted nodes → Entries.Sorted (nodes.map fun e => (e.1, tree e.1)) := by
    intro nodes tree hs
    rw [Entries.Sorted, List.map_map]
    exact hs
  rw [isEqual_children_iff, hd.isEmpty, hd'.isEmpty, hd.count, hd'.count, hd.enumerate]
  simp only [hd'.get]
  constructor
  · rintro (⟨hnil, hnil'⟩ | ⟨hcount, hall⟩)
    · rw [List.isEmpty_iff.mp hnil, List.isEmpty_iff.mp hnil']
      rfl
    · congr 1
      have hsubset : (nodes.map fun e => (e.1, tree e.1)) ⊆
          nodes'.map fun e => (e.1, tree' e.1) := by
        intro x hx
        obtain ⟨e, he, rfl⟩ := List.mem_map.mp hx
        rcases hall e he with ⟨child, hchild, hequal⟩ | ⟨-, hempty⟩
        · have hmem := (Entries.find_eq_some_iff hd'.sorted).mp hchild
          have := (heq e he (e.1, child) hmem rfl).mp hequal
          exact List.mem_map.mpr ⟨(e.1, child), hmem, by rw [this]⟩
        · rw [(hsub e he).isEmpty] at hempty
          cases hempty
      have hnodup : (nodes.map fun e => (e.1, tree e.1)).Nodup :=
        List.Nodup.of_map Prod.fst ((hkeys hd.sorted).imp ne_of_lt)
      have hsubperm := List.subperm_of_subset hnodup hsubset
      exact Entries.eq_of_perm (hkeys hd.sorted) (hkeys hd'.sorted)
        (hsubperm.perm_of_length_le (by simp [hcount]))
  · intro hsame
    have hlist : (nodes.map fun e => (e.1, tree e.1)) = nodes'.map fun e => (e.1, tree' e.1) := by
      rw [← JsonTree.entries_ofEntries (nodes.map fun e => (e.1, tree e.1)), hsame,
        JsonTree.entries_ofEntries]
    right
    refine ⟨by simpa using congrArg List.length hlist, fun e he => .inl ?_⟩
    have hmem : (e.1, tree e.1) ∈ nodes'.map fun e => (e.1, tree' e.1) :=
      hlist ▸ List.mem_map.mpr ⟨e, he, rfl⟩
    obtain ⟨e', he', hpair⟩ := List.mem_map.mp hmem
    obtain ⟨hkey, htree⟩ := Prod.mk.inj hpair
    refine ⟨e'.2, (Entries.find_eq_some_iff hd'.sorted).mpr (hkey ▸ he'), ?_⟩
    exact (heq e he e' he' hkey.symm).mpr htree

/-- Two nodes are equal for `isEqual` exactly if they hold the same value. -/
theorem Represents.isEqual_iff [DecidableEq V] {node' : FNode K V} {t' : Option (JsonTree K V)}
    (h : Represents node t) (h' : Represents node' t') :
    (node.isEqual node' = true ↔ t = t') ∧ (node'.isEqual node = true ↔ t' = t) := by
  induction h generalizing node' t' with
  | leaf value =>
    cases h' with
    | leaf value' => simp [FNode.isEqual]
    | @children d nodes dictionary tree sub =>
      have hne : some (JsonTree.leaf value) ≠
          JsonTree.ofEntries (nodes.map fun e => (e.1, tree e.1)) := by
        rw [JsonTree.ofEntries]
        split_ifs <;> simp
      simp [FNode.isEqual, hne, hne.symm]
  | @children d nodes dictionary tree sub ih =>
    cases h' with
    | leaf value =>
      have hne : JsonTree.ofEntries (nodes.map fun e => (e.1, tree e.1)) ≠
          some (JsonTree.leaf value) := by
        rw [JsonTree.ofEntries]
        split_ifs <;> simp
      simp [FNode.isEqual, hne, hne.symm]
    | @children d' nodes' dictionary' tree' sub' =>
      constructor
      · refine isEqual_children dictionary dictionary' sub fun e he e' he' _ => ?_
        rw [(ih e he (sub' e' he')).2, Option.some.injEq]
      · refine isEqual_children dictionary' dictionary sub' fun e' he' e he _ => ?_
        rw [(ih e he (sub' e' he')).1, Option.some.injEq]

/-! ## Runs -/

/-- Updates of a node and the values they write, at the same paths. -/
def Updates (updates : List (List K × FNode K V)) (values : List (List K × Json K V)) : Prop :=
  List.Forall₂ (fun update w => update.1 = w.1 ∧ update.2.Represents w.2.root) updates values

/-- One update after the other. -/
def updateAll (node : FNode K V) (updates : List (List K × FNode K V)) :
    Except NSException (FNode K V) :=
  updates.foldlM (fun node update => node.updateChild update.1 update.2) node

/-- A run of updates, one after the other. -/
theorem Represents.updateAll (h : Represents node j.root) {updates : List (List K × FNode K V)}
    {values : List (List K × Json K V)} (hupdates : Updates updates values) :
    ∃ node', node.updateAll updates = .ok node' ∧ Represents node' (j.setAll values).root := by
  induction hupdates generalizing node j with
  | nil => exact ⟨node, rfl, h⟩
  | @cons update w updates values hhead htail ih =>
    obtain ⟨path, newChildNode⟩ := update
    obtain ⟨path', v⟩ := w
    obtain ⟨rfl, hv⟩ := hhead
    obtain ⟨node₁, hnode₁, h₁⟩ := h.updateChild path hv
    obtain ⟨node', hnode', h'⟩ := ih h₁
    refine ⟨node', ?_, h'⟩
    rw [FNode.updateAll, List.foldlM_cons, hnode₁]
    exact hnode'

/-- A node answers as the JSON value it stands for, after any updates of it: no update raises an
exception, and what is read at a path is a node of the value there, equal for `isEqual` to the
nodes of that value and to no others. -/
theorem updateAll_refines_json [DecidableEq V] (h : Represents node j.root)
    (updates : List (List K × FNode K V)) (values : List (List K × Json K V))
    (hupdates : Updates updates values) :
    ∃ node', node.updateAll updates = .ok node' ∧ ∀ path,
      (node'.getChild path).isEmpty = ((j.setAll values).get path).isNull ∧
      (node'.getChild path).numChildren = ((j.setAll values).get path).childrenCount ∧
      ∀ other v, Represents other v.root →
        ((node'.getChild path).isEqual other = true ↔ (j.setAll values).get path = v) := by
  obtain ⟨node', hnode', h'⟩ := h.updateAll hupdates
  refine ⟨node', hnode', fun path => ?_⟩
  have hpath := h'.getChild path
  refine ⟨hpath.isEmpty, hpath.numChildren, fun other v hv => ?_⟩
  rw [(hpath.isEqual_iff hv).1]
  exact ⟨Json.ext, congrArg Json.root⟩

/-- Two writes below each other, a removal and a write below a leaf, for concrete runs. -/
def sampleUpdates : List (List ℕ × FNode ℕ String) :=
  [([1, 2], .leaf "a"), ([1], .leaf "b"), ([1, 3, 4], .leaf "c"), ([1, 3], emptyNode)]

def sampleValues : List (List ℕ × Json ℕ String) :=
  [([1, 2], .leaf "a"), ([1], .leaf "b"), ([1, 3, 4], .leaf "c"), ([1, 3], .null)]

/-- The sample updates carry the sample values. -/
theorem updates_sample : Updates sampleUpdates sampleValues :=
  .cons ⟨rfl, .leaf "a"⟩ (.cons ⟨rfl, .leaf "b"⟩ (.cons ⟨rfl, .leaf "c"⟩
    (.cons ⟨rfl, represents_emptyNode⟩ .nil)))

/-- The refinement at the sample. -/
theorem updateAll_refines_json_sample :
    ∃ node', (emptyNode : FNode ℕ String).updateAll sampleUpdates = .ok node' ∧ ∀ path,
      (node'.getChild path).isEmpty = ((Json.null.setAll sampleValues).get path).isNull ∧
      (node'.getChild path).numChildren = ((Json.null.setAll sampleValues).get path).childrenCount ∧
      ∀ other v, Represents other v.root →
        ((node'.getChild path).isEqual other = true ↔
          (Json.null.setAll sampleValues).get path = v) :=
  updateAll_refines_json (j := .null) represents_emptyNode sampleUpdates sampleValues updates_sample

end FNode

end TifaSoccer
