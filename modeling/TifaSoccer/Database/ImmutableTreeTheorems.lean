import TifaSoccer.Database.NodeTheorems
import TifaSoccer.Database.WriteTree

/-!
# An immutable tree is a partial function on paths

`FImmutableTree` is seen through `valueAtPath`. A tree is `Valid` if its dictionaries are and no
subtree is empty; every update keeps this, changes the values at the paths it names and never
raises an exception, and `forEach` goes through the paths that have a value, once each.
-/

namespace TifaSoccer

namespace FImmutableTree

variable {K T : Type} [LinearOrder K]

/-- The children are in a valid dictionary, and none of them is empty. -/
inductive Valid : FImmutableTree K T → Prop
  | node (value : Option T) {d : FImmutableSortedDictionary K (FImmutableTree K T)}
      {subtrees : List (K × FImmutableTree K T)} (dictionary : d.Represents subtrees)
      (sub : ∀ e ∈ subtrees, Valid e.2) (nonempty : ∀ e ∈ subtrees, e.2.isEmpty = false) :
      Valid (.node value d)

variable {t : FImmutableTree K T}

/-- A tree with a value only is valid. -/
theorem valid_initWithValue (aValue : Option T) :
    (initWithValue aValue : FImmutableTree K T).Valid :=
  .node aValue FImmutableSortedDictionary.represents_dictionaryWithComparator (by simp) (by simp)

/-- The child at a key, the empty tree if there is none. -/
def child (t : FImmutableTree K T) (k : K) : FImmutableTree K T := (t.children.get k).getD empty

/-- The children of a valid tree are valid. -/
theorem valid_child (h : t.Valid) (k : K) : (t.child k).Valid := by
  obtain ⟨value, dictionary, sub, -⟩ := h
  rw [child, children, dictionary.get]
  cases hfind : Entries.find k _ with
  | none => exact valid_initWithValue none
  | some c => exact sub _ ((Entries.find_eq_some_iff dictionary.sorted).mp hfind)

/-- The empty tree has no values. -/
theorem valueAtPath_empty (path : List K) :
    (empty : FImmutableTree K T).valueAtPath path = none := by
  cases path with
  | nil => rfl
  | cons front path => rfl

/-- A value below a child. -/
theorem valueAtPath_cons (front : K) (path : List K) :
    t.valueAtPath (front :: path) = (t.child front).valueAtPath path := by
  rw [valueAtPath, child]
  cases t.children.get front with
  | none => exact (valueAtPath_empty path).symm
  | some c => rfl

/-- A tree is empty exactly if it has no value at any path. -/
theorem Valid.isEmpty_iff (h : t.Valid) : t.isEmpty = true ↔ ∀ path, t.valueAtPath path = none := by
  induction h with
  | @node value d subtrees dictionary sub nonempty ih =>
    rw [isEmpty, Bool.and_eq_true, Option.isNone_iff_eq_none]
    constructor
    · rintro ⟨hvalue, hchildren⟩ path
      rw [children, dictionary.isEmpty, List.isEmpty_iff] at hchildren
      cases path with
      | nil => exact hvalue
      | cons front path =>
        rw [valueAtPath_cons, child, children, dictionary.get, hchildren]
        exact valueAtPath_empty path
    · intro hall
      refine ⟨hall [], ?_⟩
      rw [children, dictionary.isEmpty, List.isEmpty_iff, List.eq_nil_iff_forall_not_mem]
      rintro ⟨k, c⟩ hc
      have hfind := (Entries.find_eq_some_iff dictionary.sorted).mpr hc
      have hempty : c.isEmpty = true := by
        refine (ih (k, c) hc).mpr fun path => ?_
        have := hall (k :: path)
        rw [valueAtPath_cons, child, children, dictionary.get, hfind] at this
        exact this
      rw [nonempty (k, c) hc] at hempty
      cases hempty

/-! ## Updates -/

/-- The child that an update gives a key: it is removed if it is empty. -/
theorem Valid.updateChild (h : t.Valid) (front : K) {newChild : FImmutableTree K T}
    (hnew : newChild.Valid) {newChildren : FImmutableSortedDictionary K (FImmutableTree K T)}
    (hchildren : (newChild.isEmpty = true ∧ newChildren = t.children.removeKey front) ∨
      (newChild.isEmpty = false ∧ t.children.insertKey front newChild = .ok newChildren)) :
    (FImmutableTree.node t.value newChildren).Valid ∧ ∀ k path,
      (FImmutableTree.node t.value newChildren).valueAtPath (k :: path) =
        if k = front then newChild.valueAtPath path else t.valueAtPath (k :: path) := by
  obtain ⟨value, dictionary, sub, nonempty⟩ := h
  rcases hchildren with ⟨hempty, rfl⟩ | ⟨hne, hinsert⟩
  · have hrep := dictionary.removeKey front
    refine ⟨.node value hrep (fun e he => sub e (List.mem_of_mem_filter he))
      (fun e he => nonempty e (List.mem_of_mem_filter he)), fun k path => ?_⟩
    rw [valueAtPath_cons, valueAtPath_cons]
    simp only [child, children, hrep.get, dictionary.get, Entries.find_drop]
    split_ifs with hk
    · rw [hnew.isEmpty_iff.mp hempty path]
      exact valueAtPath_empty path
    · rfl
  · obtain ⟨d', hd', hrep⟩ := dictionary.insertKey front newChild
    obtain rfl : newChildren = d' := Except.ok.inj (hinsert.symm.trans hd')
    refine ⟨.node value hrep (fun e he => ?_) (fun e he => ?_), fun k path => ?_⟩
    · rcases Entries.mem_put he with rfl | he
      · exact hnew
      · exact sub e he
    · rcases Entries.mem_put he with rfl | he
      · exact hne
      · exact nonempty e he
    · rw [valueAtPath_cons, valueAtPath_cons]
      simp only [child, children, hrep.get, dictionary.get, Entries.find_put]
      split_ifs with hk
      · rfl
      · rfl

/-- `setValue:atPath:` sets the value there and no other. -/
theorem Valid.setValue (h : t.Valid) (newValue : T) (path : List K) :
    ∃ t', t.setValue newValue path = .ok t' ∧ t'.Valid ∧
      ∀ q, t'.valueAtPath q = if q = path then some newValue else t.valueAtPath q := by
  induction path generalizing t with
  | nil =>
    refine ⟨.node (some newValue) t.children, rfl, ?_, fun q => ?_⟩
    · obtain ⟨value, dictionary, sub, nonempty⟩ := h
      exact .node (some newValue) dictionary sub nonempty
    · cases q with
      | nil => rfl
      | cons k q => rw [valueAtPath_cons, if_neg (by simp), valueAtPath_cons, child, child]; rfl
  | cons front path ih =>
    obtain ⟨newChild, hset, hnew, hvalues⟩ := ih (valid_child h front)
    have hne : newChild.isEmpty = false := by
      rw [← Bool.not_eq_true, hnew.isEmpty_iff]
      intro hall
      have := hvalues path
      rw [hall path, if_pos rfl] at this
      cases this
    obtain ⟨newChildren, hinsert⟩ : ∃ d', t.children.insertKey front newChild = .ok d' := by
      obtain ⟨value, dictionary, -, -⟩ := h
      obtain ⟨d', hd', -⟩ := dictionary.insertKey front newChild
      exact ⟨d', hd'⟩
    obtain ⟨hvalid, hpaths⟩ := h.updateChild front hnew (.inr ⟨hne, hinsert⟩)
    refine ⟨.node t.value newChildren, ?_, hvalid, fun q => ?_⟩
    · rw [FImmutableTree.setValue]
      rw [child] at hset
      rw [hset]
      simp only [bind, Except.bind, hinsert]
    · cases q with
      | nil => rfl
      | cons k q =>
        rw [hpaths]
        by_cases hk : k = front
        · subst hk
          rw [if_pos rfl, hvalues, valueAtPath_cons]
          simp
        · rw [if_neg hk, if_neg (by simp [hk])]

/-- Replacing a subtree changes the values at its path and below. -/
theorem Valid.setTree (h : t.Valid) {newTree : FImmutableTree K T} (hnewTree : newTree.Valid)
    (path : List K) : ∃ t', t.setTree newTree path = .ok t' ∧ t'.Valid ∧
      (∀ q, t'.valueAtPath (path ++ q) = newTree.valueAtPath q) ∧
      ∀ q, ¬ path <+: q → t'.valueAtPath q = t.valueAtPath q := by
  induction path generalizing t with
  | nil => exact ⟨newTree, rfl, hnewTree, fun q => rfl, fun q hq => absurd q.nil_prefix hq⟩
  | cons front path ih =>
    obtain ⟨newChild, hset, hnew, hinside, houtside⟩ := ih (valid_child h front)
    obtain ⟨newChildren, hchildren⟩ : ∃ newChildren,
        (newChild.isEmpty = true ∧ newChildren = t.children.removeKey front) ∨
          (newChild.isEmpty = false ∧ t.children.insertKey front newChild = .ok newChildren) := by
      cases hempty : newChild.isEmpty with
      | true => exact ⟨_, .inl ⟨rfl, rfl⟩⟩
      | false =>
        obtain ⟨value, dictionary, -, -⟩ := h
        obtain ⟨d', hd', -⟩ := dictionary.insertKey front newChild
        exact ⟨d', .inr ⟨rfl, hd'⟩⟩
    obtain ⟨hvalid, hpaths⟩ := h.updateChild front hnew hchildren
    refine ⟨.node t.value newChildren, ?_, hvalid, fun q => ?_, fun q hq => ?_⟩
    · rw [child] at hset
      rcases hchildren with ⟨hempty, rfl⟩ | ⟨hempty, hinsert⟩
      · simp [FImmutableTree.setTree, hset, hempty, bind, Except.bind]
      · simp [FImmutableTree.setTree, hset, hempty, hinsert, bind, Except.bind]
    · rw [List.cons_append, hpaths, if_pos rfl, hinside]
    · cases q with
      | nil => rfl
      | cons k q =>
        rw [hpaths]
        split_ifs with hk
        · subst hk
          rw [valueAtPath_cons]
          exact houtside q fun hpre => hq (List.cons_prefix_cons.mpr ⟨rfl, hpre⟩)
        · rfl

/-! ## Searches -/

/-- The value found is the first one on the path. -/
theorem findRootMostValueAndPath_eq_some {path r : List K} {x : T}
    (h : t.findRootMostValueAndPath path = some (r, x)) :
    r <+: path ∧ t.valueAtPath r = some x := by
  induction path generalizing t r with
  | nil =>
    rw [findRootMostValueAndPath, Option.map_eq_some_iff] at h
    obtain ⟨value, hvalue, heq⟩ := h
    obtain ⟨rfl, rfl⟩ := Prod.mk.inj heq
    exact ⟨List.nil_prefix, hvalue⟩
  | cons front path ih =>
    rw [findRootMostValueAndPath] at h
    cases hvalue : t.value with
    | some value =>
      rw [hvalue] at h
      obtain ⟨rfl, rfl⟩ := Prod.mk.inj (Option.some.inj h)
      exact ⟨List.nil_prefix, hvalue⟩
    | none =>
      rw [hvalue] at h
      cases hchild : t.children.get front with
      | none => simp [hchild] at h
      | some c =>
        simp only [hchild, Option.map_eq_some_iff] at h
        obtain ⟨⟨r', x'⟩, hfound, heq⟩ := h
        obtain ⟨rfl, rfl⟩ := Prod.mk.inj heq
        obtain ⟨hpre, hx⟩ := ih hfound
        refine ⟨List.cons_prefix_cons.mpr ⟨rfl, hpre⟩, ?_⟩
        rw [valueAtPath_cons, child, hchild]
        exact hx

/-- Where the search finds nothing, there is nothing above the path. -/
theorem findRootMostValueAndPath_eq_none {path : List K}
    (h : t.findRootMostValueAndPath path = none) : ∀ q, q <+: path → t.valueAtPath q = none := by
  induction path generalizing t with
  | nil =>
    intro q hq
    obtain rfl := List.prefix_nil.mp hq
    rw [findRootMostValueAndPath, Option.map_eq_none_iff] at h
    exact h
  | cons front path ih =>
    rw [findRootMostValueAndPath] at h
    cases hvalue : t.value with
    | some value => simp [hvalue] at h
    | none =>
      rw [hvalue] at h
      intro q hq
      cases q with
      | nil => exact hvalue
      | cons k q =>
        obtain ⟨rfl, hpre⟩ := List.cons_prefix_cons.mp hq
        rw [valueAtPath_cons, child]
        cases hchild : t.children.get k with
        | none => exact valueAtPath_empty q
        | some c =>
          simp only [hchild, Option.map_eq_none_iff] at h
          exact ih h q hpre

/-- The values of a subtree are those below its path. -/
theorem Valid.subtreeAtPath (h : t.Valid) (path : List K) :
    (t.subtreeAtPath path).Valid ∧
      ∀ q, (t.subtreeAtPath path).valueAtPath q = t.valueAtPath (path ++ q) := by
  induction path generalizing t with
  | nil => exact ⟨h, fun q => rfl⟩
  | cons front path ih =>
    have hchild := ih (valid_child h front)
    rw [FImmutableTree.subtreeAtPath]
    rw [child] at hchild
    cases hget : t.children.get front with
    | none =>
      refine ⟨valid_initWithValue none, fun q => ?_⟩
      rw [List.cons_append, valueAtPath_cons, child, hget]
      exact (valueAtPath_empty q).trans (valueAtPath_empty (path ++ q)).symm
    | some c =>
      rw [hget] at hchild
      refine ⟨hchild.1, fun q => ?_⟩
      rw [List.cons_append, valueAtPath_cons, child, hget]
      exact hchild.2 q

/-! ## Enumeration -/

omit [LinearOrder K] in
/-- The block sees the children first, then the value of the root. -/
theorem forEachPathSoFar_eq (pathSoFar : List K) (t : FImmutableTree K T) :
    t.forEachPathSoFar pathSoFar =
      (t.children.enumerateKeysAndObjects.flatMap fun e =>
        e.2.forEachPathSoFar (pathSoFar ++ [e.1])) ++
      t.value.toList.map fun value => (pathSoFar, value) := by
  rw [forEachPathSoFar, ← List.flatMap_map Subtype.val fun e : K × FImmutableTree K T =>
    e.2.forEachPathSoFar (pathSoFar ++ [e.1]), List.attach_map_subtype_val]

/-- The block sees every value once it is there. -/
theorem Valid.mem_forEachPathSoFar (h : t.Valid) (pathSoFar q : List K) (x : T) :
    (q, x) ∈ t.forEachPathSoFar pathSoFar ↔
      ∃ s, q = pathSoFar ++ s ∧ t.valueAtPath s = some x := by
  induction h generalizing pathSoFar with
  | @node value d subtrees dictionary sub nonempty ih =>
    rw [forEachPathSoFar_eq, children, FImmutableTree.value, dictionary.enumerate,
      List.mem_append, List.mem_flatMap, List.mem_map]
    constructor
    · rintro (⟨e, he, hmem⟩ | ⟨y, hy, heq⟩)
      · obtain ⟨s, rfl, hs⟩ := (ih e he (pathSoFar ++ [e.1])).mp hmem
        refine ⟨e.1 :: s, by simp, ?_⟩
        have hfind := (Entries.find_eq_some_iff dictionary.sorted).mpr he
        rw [valueAtPath_cons, child, children, dictionary.get, hfind]
        exact hs
      · obtain ⟨rfl, rfl⟩ := Prod.mk.inj heq
        exact ⟨[], by simp, Option.mem_toList.mp hy⟩
    · rintro ⟨s, rfl, hs⟩
      cases s with
      | nil => exact .inr ⟨x, Option.mem_toList.mpr hs, by simp⟩
      | cons k s =>
        rw [valueAtPath_cons, child, children, dictionary.get] at hs
        cases hfind : Entries.find k subtrees with
        | none =>
          rw [hfind, Option.getD_none, valueAtPath_empty] at hs
          cases hs
        | some c =>
          rw [hfind] at hs
          have hmem := (Entries.find_eq_some_iff dictionary.sorted).mp hfind
          refine .inl ⟨(k, c), hmem, ?_⟩
          exact (ih (k, c) hmem (pathSoFar ++ [k])).mpr ⟨s, by simp, hs⟩

/-- The block sees no path twice. -/
theorem Valid.nodup_forEachPathSoFar (h : t.Valid) (pathSoFar : List K) :
    ((t.forEachPathSoFar pathSoFar).map Prod.fst).Nodup := by
  induction h generalizing pathSoFar with
  | @node value d subtrees dictionary sub nonempty ih =>
    rw [forEachPathSoFar_eq, children, FImmutableTree.value, dictionary.enumerate,
      List.map_append, List.nodup_append, List.map_flatMap, List.nodup_flatMap]
    -- every path of a child goes through the key of the child
    have hkey : ∀ e ∈ subtrees, ∀ q ∈ (e.2.forEachPathSoFar (pathSoFar ++ [e.1])).map Prod.fst,
        pathSoFar ++ [e.1] <+: q := by
      intro e he q hq
      obtain ⟨⟨q, x⟩, hmem, rfl⟩ := List.mem_map.mp hq
      obtain ⟨s, rfl, -⟩ := ((sub e he).mem_forEachPathSoFar _ q x).mp hmem
      exact List.prefix_append _ s
    refine ⟨⟨fun e he => ih e he _, ?_⟩, ?_, ?_⟩
    · have hkeys : subtrees.Pairwise fun e e' => e.1 < e'.1 :=
        List.pairwise_map.mp dictionary.sorted
      refine hkeys.imp_of_mem fun {e e'} he he' hlt => ?_
      intro q hq hq'
      have hsame := List.prefix_of_prefix_length_le (hkey e he q hq) (hkey e' he' q hq') (by simp)
      have heq := hsame.eq_of_length (by simp)
      rw [List.append_cancel_left_eq, List.cons.injEq] at heq
      exact hlt.ne heq.1
    · cases value <;> simp
    · intro q hq q' hq' hqq'
      subst hqq'
      obtain ⟨e, he, hmem⟩ := List.mem_flatMap.mp hq
      obtain rfl : q = pathSoFar := by
        cases value with
        | none => simp at hq'
        | some x => simpa using hq'
      have := (hkey e he q hmem).length_le
      simp at this

/-- `forEach` goes through every path with a value once. -/
theorem Valid.mem_forEach (h : t.Valid) (q : List K) (x : T) :
    (q, x) ∈ t.forEach ↔ t.valueAtPath q = some x := by
  rw [forEach, h.mem_forEachPathSoFar]
  simp

/-- The same from the root. -/
theorem Valid.nodup_forEach (h : t.Valid) : (t.forEach.map Prod.fst).Nodup :=
  h.nodup_forEachPathSoFar []

end FImmutableTree

end TifaSoccer
