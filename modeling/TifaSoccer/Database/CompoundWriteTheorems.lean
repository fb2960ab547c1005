import TifaSoccer.Database.ImmutableTreeTheorems
import TifaSoccer.Lib.Writes

/-!
# Compound writes are layers of writes

An `FCompoundWrite` represents a layer of writes: its tree has a node at each path of the layer,
and none below another one. Adding a write is `Writes.add`, applying the compound write to a node
makes the layer's writes one after the other, and what it says about a path is what the layer
writes at the path, above it or below it. None of this raises an exception.
-/

namespace TifaSoccer

variable {K V : Type} [LinearOrder K]

/-- The rest of a path below its beginning. -/
theorem relativePathFrom_append (outer rest : List K) :
    relativePathFrom outer (outer ++ rest) = .ok rest := by
  induction outer with
  | nil => rfl
  | cons k outer ih => rw [List.cons_append, relativePathFrom, if_pos rfl, ih]

namespace FCompoundWrite

/-- The tree holds the layer. -/
structure Represents (w : FCompoundWrite K V) (W : Writes K V) : Prop where
  valid : w.writeTree.Valid
  layered : W.Layered
  values : ∀ path, Option.Rel (fun node v => FNode.Represents node v.root)
    (w.writeTree.valueAtPath path) (W path)

variable {w : FCompoundWrite K V} {W : Writes K V}

/-- A path has a write in the tree if it has one in the map. -/
theorem Represents.eq_none_iff (h : w.Represents W) (path : List K) :
    w.writeTree.valueAtPath path = none ↔ W path = none := by
  have hrel := h.values path
  generalize w.writeTree.valueAtPath path = x at hrel ⊢
  generalize W path = y at hrel ⊢
  cases hrel <;> simp

/-- A node in the tree stands for a value of the map. -/
theorem Represents.exists_value (h : w.Represents W) {path : List K} {node : FNode K V}
    (hnode : w.writeTree.valueAtPath path = some node) :
    ∃ v, W path = some v ∧ node.Represents v.root := by
  have hrel := h.values path
  rw [hnode] at hrel
  generalize W path = x at hrel
  cases hrel with
  | some hv => exact ⟨_, rfl, hv⟩

/-- The writes of a compound write, in the order in which it enumerates them. -/
def writesOf (w : FCompoundWrite K V) (W : Writes K V) : List (List K × Json K V) :=
  w.enumerateWrites.map fun e => (e.1, (W e.1).getD .null)

/-- The nodes of the tree list the writes of the map. -/
theorem Represents.lists (h : w.Represents W) : W.Lists (w.writesOf W) where
  nodup := by
    rw [writesOf, List.map_map]
    exact h.valid.nodup_forEach
  mem_iff p v := by
    rw [writesOf, List.mem_map]
    constructor
    · rintro ⟨⟨q, node⟩, hmem, heq⟩
      obtain ⟨x, hx, -⟩ := h.exists_value ((h.valid.mem_forEach q node).mp hmem)
      obtain ⟨rfl, rfl⟩ := Prod.mk.inj heq
      rw [hx]
      rfl
    · intro hp
      have hsome : w.writeTree.valueAtPath p ≠ none := by
        rw [Ne, h.eq_none_iff, hp]
        simp
      obtain ⟨node, hnode⟩ := Option.ne_none_iff_exists'.mp hsome
      exact ⟨(p, node), (h.valid.mem_forEach p node).mpr hnode, by rw [hp]; rfl⟩

/-- The empty write stands for no writes. -/
theorem represents_emptyWrite : (emptyWrite : FCompoundWrite K V).Represents fun _ => none where
  valid := FImmutableTree.valid_initWithValue none
  layered := by
    intro p q v x hp
    cases hp
  values path := by
    rw [emptyWrite, FImmutableTree.valueAtPath_empty]
    exact .none

/-- A write is empty if no path has one. -/
theorem Represents.isEmpty_iff (h : w.Represents W) : w.isEmpty = true ↔ ∀ path, W path = none := by
  rw [isEmpty, h.valid.isEmpty_iff]
  exact forall_congr' h.eq_none_iff

/-- A compound write has no writes exactly if it is empty. -/
theorem Represents.isEmpty_writesOf (h : w.Represents W) : (w.writesOf W).isEmpty = w.isEmpty := by
  rw [Bool.eq_iff_iff, List.isEmpty_iff, h.isEmpty_iff, List.eq_nil_iff_forall_not_mem]
  constructor
  · intro hnil q
    by_contra hsome
    obtain ⟨v, hv⟩ := Option.ne_none_iff_exists'.mp hsome
    exact hnil (q, v) ((h.lists.mem_iff q v).mpr hv)
  · intro hnone e he
    have := (h.lists.mem_iff e.1 e.2).mp he
    rw [hnone] at this
    cases this

/-! ## Adding and removing writes -/

/-- A compound write with one node, at its root. -/
theorem represents_initWithValue {node : FNode K V} {v : Json K V} (hv : node.Represents v.root)
    (W : Writes K V) :
    (⟨.initWithValue (some node)⟩ : FCompoundWrite K V).Represents (W.overwrite [] v) where
  valid := FImmutableTree.valid_initWithValue (some node)
  layered := by
    have hnil : ∀ q x, W.overwrite [] v q = some x → q = [] := by
      intro q x hq
      rw [Writes.overwrite] at hq
      split_ifs at hq with h₁ h₂
      · exact h₁
      · exact absurd q.nil_prefix h₂
    intro p q x y hp hq hne
    exact absurd ((hnil p x hp).trans (hnil q y hq).symm) hne
  values path := by
    cases path with
    | nil =>
      rw [Writes.overwrite, if_pos rfl]
      exact .some hv
    | cons k path =>
      rw [Writes.overwrite, if_neg (by simp), if_pos List.nil_prefix]
      exact .none

/-- `addWrite:` adds a write. -/
theorem Represents.addWrite (h : w.Represents W) {node : FNode K V} {v : Json K V}
    (hv : node.Represents v.root) (path : List K) :
    ∃ w', w.addWrite node path = .ok w' ∧ w'.Represents (W.add path v) := by
  rw [FCompoundWrite.addWrite]
  split_ifs with hempty
  · obtain rfl := List.isEmpty_iff.mp hempty
    refine ⟨_, rfl, ?_⟩
    rcases Writes.add_cases h.layered [] v with ⟨r, s, x, hrs, hs, -⟩ | ⟨-, hadd⟩
    · exact absurd (List.append_eq_nil_iff.mp hrs.symm).2 hs
    · rw [hadd]
      exact represents_initWithValue hv W
  · cases hfind : w.writeTree.findRootMostValueAndPath path with
    | some found =>
      obtain ⟨r, x⟩ := found
      obtain ⟨⟨s, rfl⟩, hx⟩ := FImmutableTree.findRootMostValueAndPath_eq_some hfind
      obtain ⟨y, hy, hxy⟩ := h.exists_value hx
      obtain ⟨value, hvalue, hrep⟩ := hxy.updateChild s hv
      obtain ⟨t', ht', hvalid, hvalues⟩ := h.valid.setValue value r
      refine ⟨⟨t'⟩, ?_, hvalid, Writes.layered_add h.layered _ _, fun q => ?_⟩
      · simp only [relativePathFrom_append, hvalue, ht', bind, Except.bind]
      · rw [hvalues, Writes.add_of_cover h.layered hy, Function.update_apply]
        split_ifs
        · exact .some hrep
        · exact h.values q
    | none =>
      have hnone := FImmutableTree.findRootMostValueAndPath_eq_none hfind
      obtain ⟨t', ht', hvalid, hinside, houtside⟩ :=
        h.valid.setTree (FImmutableTree.valid_initWithValue (some node)) path
      refine ⟨⟨t'⟩, ?_, hvalid, Writes.layered_add h.layered _ _, fun q => ?_⟩
      · simp only [ht', bind, Except.bind]
      · rw [Writes.add_of_not_cover fun q hq => (h.eq_none_iff q).mp (hnone q hq)]
        by_cases hq : path <+: q
        · obtain ⟨s, rfl⟩ := hq
          rw [hinside]
          have hroot := (represents_initWithValue hv W).values s
          rw [Writes.overwrite] at hroot ⊢
          simpa using hroot
        · have hne : q ≠ path := by
            rintro rfl
            exact hq List.prefix_rfl
          rw [houtside q hq, Writes.overwrite, if_neg hne, if_neg hq]
          exact h.values q

/-- The writes of a merge, at the path of the merge. -/
def writesAt (path : List K) (ws : List (List K × Json K V)) : List (List K × Json K V) :=
  ws.map fun e => (path ++ e.1, e.2)

/-- `addCompoundWrite:` adds the writes of the other one below a path. -/
theorem Represents.addCompoundWrite (h : w.Represents W) {m : FCompoundWrite K V}
    {M : Writes K V} (hm : m.Represents M) (path : List K) :
    ∃ w', w.addCompoundWrite m path = .ok w' ∧
      w'.Represents ((writesAt path (m.writesOf M)).foldl (fun W e => W.add e.1 e.2) W) := by
  rw [FCompoundWrite.addCompoundWrite, writesOf, writesAt, List.map_map, List.foldl_map]
  have hvalue : ∀ e ∈ m.enumerateWrites, e.2.Represents ((M e.1).getD .null).root := by
    rintro ⟨q, node⟩ he
    obtain ⟨v, hv, hrep⟩ := hm.exists_value ((hm.valid.mem_forEach q node).mp he)
    rw [hv]
    exact hrep
  generalize m.enumerateWrites = es at hvalue ⊢
  induction es generalizing w W with
  | nil => exact ⟨w, rfl, h⟩
  | cons e es ih =>
    obtain ⟨w₁, hw₁, h₁⟩ := h.addWrite (hvalue e List.mem_cons_self) (path ++ e.1)
    obtain ⟨w', hw', h'⟩ := ih h₁ fun e' he' => hvalue e' (List.mem_cons_of_mem _ he')
    refine ⟨w', ?_, h'⟩
    rw [List.foldlM_cons, hw₁]
    exact hw'

/-- `removeWriteAtPath:` erases the writes at a path and below it. -/
theorem Represents.removeWriteAtPath (h : w.Represents W) (path : List K) :
    ∃ w', w.removeWriteAtPath path = .ok w' ∧ w'.Represents (W.erase path) := by
  rw [FCompoundWrite.removeWriteAtPath]
  split_ifs with hempty
  · obtain rfl := List.isEmpty_iff.mp hempty
    refine ⟨_, rfl, ?_⟩
    have herase : W.erase [] = fun _ => none := by
      funext q
      rw [Writes.erase, if_pos List.nil_prefix]
    rw [herase]
    exact represents_emptyWrite
  · obtain ⟨t', ht', hvalid, hinside, houtside⟩ :=
      h.valid.setTree (FImmutableTree.valid_initWithValue none) path
    refine ⟨⟨t'⟩, ?_, hvalid, Writes.layered_erase h.layered path, fun q => ?_⟩
    · have hset : w.writeTree.setTree .empty path = .ok t' := ht'
      simp only [hset, bind, Except.bind]
    · rw [Writes.erase]
      split_ifs with hq
      · obtain ⟨s, rfl⟩ := hq
        have hnone := FImmutableTree.valueAtPath_empty (T := FNode K V) s
        rw [hinside, show (FImmutableTree.initWithValue none).valueAtPath s = none from hnone]
        exact .none
      · rw [houtside q hq]
        exact h.values q

/-- Several paths are erased one after the other. -/
theorem Represents.removeWritesAtPaths (h : w.Represents W) (paths : List (List K)) :
    ∃ w', paths.foldlM FCompoundWrite.removeWriteAtPath w = .ok w' ∧
      w'.Represents (paths.foldl Writes.erase W) := by
  induction paths generalizing w W with
  | nil => exact ⟨w, rfl, h⟩
  | cons path paths ih =>
    obtain ⟨w₁, hw₁, h₁⟩ := h.removeWriteAtPath path
    obtain ⟨w', hw', h'⟩ := ih h₁
    refine ⟨w', ?_, h'⟩
    rw [List.foldlM_cons, hw₁]
    exact hw'

/-! ## Reading a path -/

/-- A path at or below a write has its value; a path that is neither has no complete value. -/
theorem Represents.completeNodeAtPath (h : w.Represents W) (path : List K) :
    (∃ r s v node, path = r ++ s ∧ W r = some v ∧ w.completeNodeAtPath path = .ok (some node) ∧
      node.Represents (v.get s).root) ∨
    (∀ q, q <+: path → W q = none) ∧ w.completeNodeAtPath path = .ok none := by
  rw [FCompoundWrite.completeNodeAtPath]
  cases hfind : w.writeTree.findRootMostValueAndPath path with
  | some found =>
    obtain ⟨r, x⟩ := found
    obtain ⟨⟨s, rfl⟩, hx⟩ := FImmutableTree.findRootMostValueAndPath_eq_some hfind
    obtain ⟨v, hv, hrep⟩ := h.exists_value hx
    refine .inl ⟨r, s, v, x.getChild s, rfl, hv, ?_, hrep.getChild s⟩
    simp only [relativePathFrom_append, bind, Except.bind]
  | none =>
    have hnone := FImmutableTree.findRootMostValueAndPath_eq_none hfind
    exact .inr ⟨fun q hq => (h.eq_none_iff q).mp (hnone q hq), rfl⟩

/-- At a path that is not at or below a write, what is written below it. -/
theorem Represents.childCompoundWriteAtPath (h : w.Represents W) {path : List K}
    (hpath : ∀ q, q <+: path → W q = none) :
    ∃ w', w.childCompoundWriteAtPath path = .ok w' ∧ w'.Represents fun q => W (path ++ q) := by
  rw [FCompoundWrite.childCompoundWriteAtPath]
  split_ifs with hempty
  · obtain rfl := List.isEmpty_iff.mp hempty
    exact ⟨w, rfl, h⟩
  · have hcomplete : w.completeNodeAtPath path = .ok none := by
      rcases h.completeNodeAtPath path with ⟨r, s, v, node, rfl, hv, -⟩ | ⟨-, hnone⟩
      · rw [hpath r (List.prefix_append r s)] at hv
        cases hv
      · exact hnone
    obtain ⟨hvalid, hvalues⟩ := h.valid.subtreeAtPath path
    refine ⟨⟨w.writeTree.subtreeAtPath path⟩, ?_, hvalid, ?_, fun q => ?_⟩
    · simp only [hcomplete, bind, Except.bind]
    · intro p q v v' hp hq hne
      have hdiv := h.layered (path ++ p) (path ++ q) v v' hp hq (by simpa using hne)
      exact Json.diverge_of_append hdiv
    · rw [hvalues]
      exact h.values (path ++ q)

/-! ## Applying the writes -/

/-- A subtree with a value is one write. -/
theorem applySubtreeWrite_of_value {t : FImmutableTree K (FNode K V)} {value : FNode K V}
    (h : t.value = some value) (relativePath : List K) (node : FNode K V) :
    applySubtreeWrite t relativePath node = node.updateChild relativePath value := by
  rw [applySubtreeWrite, h]

/-- Any other subtree is applied child by child. -/
theorem applySubtreeWrite_of_none {t : FImmutableTree K (FNode K V)} (h : t.value = none)
    (relativePath : List K) (node : FNode K V) :
    applySubtreeWrite t relativePath node =
      t.children.enumerateKeysAndObjects.foldlM
        (fun blockNode e => applySubtreeWrite e.2 (relativePath ++ [e.1]) blockNode) node := by
  rw [applySubtreeWrite, h]
  simp only
  conv_rhs => rw [← List.attach_map_subtype_val t.children.enumerateKeysAndObjects]
  rw [List.foldlM_map]

/-- Applying a tree makes its writes in the order in which `forEach` goes through them. -/
theorem represents_applySubtreeWrite {t : FImmutableTree K (FNode K V)} (ht : t.Valid)
    (hlayered : ∀ p q, t.valueAtPath p ≠ none → t.valueAtPath q ≠ none → p ≠ q →
      Json.Diverge p q) (value : List K → Json K V) (relativePath : List K)
    (hvalue : ∀ e ∈ t.forEachPathSoFar relativePath, e.2.Represents (value e.1).root)
    {node : FNode K V} {j : Json K V} (hnode : node.Represents j.root) :
    ∃ node', applySubtreeWrite t relativePath node = .ok node' ∧
      node'.Represents (j.setAll
        ((t.forEachPathSoFar relativePath).map fun e => (e.1, value e.1))).root := by
  induction ht generalizing relativePath node j with
  | @node rootValue d subtrees dictionary sub nonempty ih =>
    -- the paths of a child, seen from the root
    have hchild : ∀ e ∈ subtrees, ∀ p,
        (FImmutableTree.node rootValue d).valueAtPath (e.1 :: p) = e.2.valueAtPath p := by
      intro e he p
      have hfind := (Entries.find_eq_some_iff dictionary.sorted).mpr he
      rw [FImmutableTree.valueAtPath_cons, FImmutableTree.child, FImmutableTree.children,
        dictionary.get, hfind]
      rfl
    rw [FImmutableTree.forEachPathSoFar_eq, FImmutableTree.children, FImmutableTree.value,
      dictionary.enumerate] at hvalue ⊢
    cases rootValue with
    | some x =>
      have hnil : subtrees = [] := by
        rw [List.eq_nil_iff_forall_not_mem]
        intro e he
        have hne : ¬ ∀ p, e.2.valueAtPath p = none := by
          rw [← (sub e he).isEmpty_iff, nonempty e he]
          simp
        obtain ⟨p, hp⟩ := not_forall.mp hne
        exact hlayered [] (e.1 :: p) (by simp [FImmutableTree.valueAtPath, FImmutableTree.value])
          (by rwa [hchild e he p]) (by simp)
      subst hnil
      rw [applySubtreeWrite_of_value rfl]
      exact hnode.updateChild relativePath (hvalue (relativePath, x) (by simp))
    | none =>
      rw [applySubtreeWrite_of_none rfl, FImmutableTree.children, dictionary.enumerate]
      simp only [Option.toList_none, List.map_nil, List.append_nil] at hvalue ⊢
      have hfold : ∀ es : List (K × FImmutableTree K (FNode K V)), (∀ e ∈ es, e ∈ subtrees) →
          ∀ (node : FNode K V) (j : Json K V), node.Represents j.root →
            ∃ node', es.foldlM (fun blockNode e =>
              applySubtreeWrite e.2 (relativePath ++ [e.1]) blockNode) node = .ok node' ∧
            node'.Represents (j.setAll ((es.flatMap fun e =>
              e.2.forEachPathSoFar (relativePath ++ [e.1])).map
                fun e => (e.1, value e.1))).root := by
        intro es
        induction es with
        | nil => exact fun _ node j hnode => ⟨node, rfl, hnode⟩
        | cons e es ihes =>
          intro hes node j hnode
          have he := hes e List.mem_cons_self
          obtain ⟨node₁, hnode₁, hrep₁⟩ := ih e he
            (fun p q hp hq hne => by
              have hdiv := hlayered (e.1 :: p) (e.1 :: q) (by rwa [hchild e he p])
                (by rwa [hchild e he q]) (by simpa using hne)
              exact hdiv.resolve_left (absurd rfl))
            (relativePath ++ [e.1])
            (fun e' he' => hvalue e' (List.mem_flatMap.mpr ⟨e, he, he'⟩)) hnode
          obtain ⟨node', hnode', hrep'⟩ :=
            ihes (fun e' he' => hes e' (List.mem_cons_of_mem _ he')) node₁ _ hrep₁
          refine ⟨node', ?_, ?_⟩
          · rw [List.foldlM_cons, hnode₁]
            exact hnode'
          · rw [List.flatMap_cons, List.map_append, Json.setAll_append]
            exact hrep'
      exact hfold subtrees (fun e he => he) node j hnode

/-- `applyToNode:` applies all writes, in whatever order. -/
theorem Represents.applyToNode (h : w.Represents W) {node : FNode K V} {j : Json K V}
    (hnode : node.Represents j.root) :
    ∃ node', w.applyToNode node = .ok node' ∧
      node'.Represents (j.setAll (w.writesOf W)).root := by
  refine represents_applySubtreeWrite h.valid ?_ (fun q => (W q).getD .null) [] ?_ hnode
  · intro p q hp hq hne
    obtain ⟨x, hx⟩ := Option.ne_none_iff_exists'.mp (mt (h.eq_none_iff p).mpr hp)
    obtain ⟨y, hy⟩ := Option.ne_none_iff_exists'.mp (mt (h.eq_none_iff q).mpr hq)
    exact h.layered p q x y hx hy hne
  · rintro ⟨q, x⟩ he
    obtain ⟨v, hv, hrep⟩ := h.exists_value ((h.valid.mem_forEach q x).mp he)
    show x.Represents ((W q).getD .null).root
    rw [hv]
    exact hrep

/-! ## Runs -/

/-- One write after the other. -/
def addAll (w : FCompoundWrite K V) (updates : List (List K × FNode K V)) :
    Except NSException (FCompoundWrite K V) :=
  updates.foldlM (fun w update => w.addWrite update.2 update.1) w

/-- A queue of writes, added one after the other. -/
theorem represents_addAll {updates : List (List K × FNode K V)}
    {values : List (List K × Json K V)} (hupdates : FNode.Updates updates values) :
    ∃ w, emptyWrite.addAll updates = .ok w ∧ w.Represents (Writes.layer values) := by
  have hgen : ∀ (w : FCompoundWrite K V) (W : Writes K V), w.Represents W →
      ∃ w', w.addAll updates = .ok w' ∧
        w'.Represents (values.foldl (fun W e => W.add e.1 e.2) W) := by
    induction hupdates with
    | nil => exact fun w W hw => ⟨w, rfl, hw⟩
    | @cons update e updates values hhead htail ih =>
      intro w W hw
      obtain ⟨w₁, hw₁, h₁⟩ := hw.addWrite hhead.2 update.1
      rw [hhead.1] at h₁
      obtain ⟨w', hw', h'⟩ := ih w₁ _ h₁
      refine ⟨w', ?_, h'⟩
      rw [addAll, List.foldlM_cons, hw₁]
      exact hw'
  exact hgen _ _ represents_emptyWrite

/-- Writes that are merged into a compound write have the effect of updating the node with one
after the other, on every node without a leaf above one of their paths; and a node that the
compound write reports as complete is the one that the updated node has at the path. -/
theorem addAll_applies_in_order [DecidableEq V] {node : FNode K V} {j : Json K V}
    (hnode : node.Represents j.root) (updates : List (List K × FNode K V))
    (values : List (List K × Json K V)) (hupdates : FNode.Updates updates values)
    (hopen : j.OpenAt values) :
    ∃ w node₁ node₂, emptyWrite.addAll updates = .ok w ∧ w.applyToNode node = .ok node₁ ∧
      node.updateAll updates = .ok node₂ ∧ node₁.isEqual node₂ = true ∧
      ∀ path complete, w.completeNodeAtPath path = .ok (some complete) →
        complete.isEqual (node₂.getChild path) = true := by
  obtain ⟨w, hw, hrep⟩ := represents_addAll hupdates
  obtain ⟨node₁, hnode₁, h₁⟩ := hrep.applyToNode hnode
  obtain ⟨node₂, hnode₂, h₂⟩ := hnode.updateAll hupdates
  have heffect : j.setAll (w.writesOf (Writes.layer values)) = j.setAll values :=
    Writes.setAll_layer hrep.lists hopen
  refine ⟨w, node₁, node₂, hw, hnode₁, hnode₂, ?_, fun path complete hcomplete => ?_⟩
  · rw [(h₁.isEqual_iff h₂).1, heffect]
  · rcases hrep.completeNodeAtPath path with ⟨r, s, v, node', rfl, hr, hsome, hget⟩ | ⟨-, hnone⟩
    · obtain rfl : node' = complete := by
        rw [hsome] at hcomplete
        exact Option.some.inj (Except.ok.inj hcomplete)
      rw [(hget.isEqual_iff (h₂.getChild (r ++ s))).1, ← heffect,
        Writes.get_setAll_of_covered hrep.layered hrep.lists hr]
    · rw [hnone] at hcomplete
      cases hcomplete

/-- The sample queue, added and applied. -/
theorem addAll_applies_in_order_sample :
    ∃ w node₁ node₂, emptyWrite.addAll FNode.sampleUpdates = .ok w ∧
      w.applyToNode FNode.emptyNode = .ok node₁ ∧
      FNode.emptyNode.updateAll FNode.sampleUpdates = .ok node₂ ∧ node₁.isEqual node₂ = true ∧
      ∀ path complete, w.completeNodeAtPath path = .ok (some complete) →
        complete.isEqual (node₂.getChild path) = true :=
  addAll_applies_in_order (j := .null) FNode.represents_emptyNode FNode.sampleUpdates
    FNode.sampleValues FNode.updates_sample fun w _ => Json.open_null w.1

end FCompoundWrite

end TifaSoccer
