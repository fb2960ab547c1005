import TifaSoccer.Database.BuildTheorems

/-!
# Sorted dictionaries are entry lists in key order

`Represents d es` says that the dictionary `d`, an array or a tree, holds the entries `es`. Every
operation keeps it, so over any run of insertions and removals a dictionary answers as its entry
list does, and the point where an array becomes a tree cannot be observed.
-/

namespace TifaSoccer

variable {K V : Type} [LinearOrder K]

/-! ## The array implementation -/

namespace FArraySortedDictionary

/-- The two arrays of an entry list. -/
def ofEntries (es : List (K × V)) : FArraySortedDictionary K V :=
  ⟨es.map Prod.fst, es.map Prod.snd⟩

omit [LinearOrder K] in
/-- The two arrays have as many elements as there are entries. -/
theorem length_keys_ofEntries (es : List (K × V)) : (ofEntries es).keys.length = es.length :=
  List.length_map ..

omit [LinearOrder K] in
/-- Side by side, the elements of the two arrays are the entries. -/
theorem zip_ofEntries (es : List (K × V)) :
    (ofEntries es).keys.zip (ofEntries es).values = es :=
  (List.zip_of_prod rfl rfl).symm

omit [LinearOrder K] in
/-- Inserting into both arrays at one index inserts an entry there. -/
theorem insertIdx_ofEntries (xs ys : List (K × V)) (key : K) (value : V) :
    (⟨(ofEntries (xs ++ ys)).keys.insertIdx xs.length key,
      (ofEntries (xs ++ ys)).values.insertIdx xs.length value⟩ : FArraySortedDictionary K V) =
    ofEntries (xs ++ (key, value) :: ys) := by
  have hinsert : ∀ {α : Type} (a b : List α) (x : α),
      (a ++ b).insertIdx a.length x = a ++ x :: b := by
    intro α a b x
    induction a with
    | nil => rfl
    | cons y a ih => exact congrArg (y :: ·) ih
  have hkeys := hinsert (xs.map Prod.fst) (ys.map Prod.fst) key
  have hvalues := hinsert (xs.map Prod.snd) (ys.map Prod.snd) value
  rw [List.length_map] at hkeys hvalues
  simp [ofEntries, hkeys, hvalues]

/-- The loop passes over smaller keys. -/
theorem findKeyFrom_of_forall_lt {key : K} {keys : List K} (rest : List K) (pos : ℕ)
    (h : ∀ k ∈ keys, k < key) :
    findKeyFrom key (keys ++ rest) pos = findKeyFrom key rest (pos + keys.length) := by
  induction keys generalizing pos with
  | nil => rfl
  | cons k keys ih =>
    have hk : compare key k = .gt := compare_gt_iff_gt.mpr (h k List.mem_cons_self)
    rw [List.cons_append, findKeyFrom, hk]
    simp only
    rw [ih (pos + 1) fun k hk => h k (List.mem_cons_of_mem _ hk), List.length_cons]
    congr 1
    omega

section Split

variable {xs ys : List (K × V)} {key : K} {v : V}

/-- `findKey` finds the index of a key that is there. -/
theorem findKey_split (hxs : ∀ x ∈ xs, x.1 < key) :
    (ofEntries (xs ++ (key, v) :: ys)).findKey key = some xs.length := by
  have hlt : ∀ k ∈ xs.map Prod.fst, k < key := by
    intro k hk
    obtain ⟨x, hx, rfl⟩ := List.mem_map.mp hk
    exact hxs x hx
  have heq : compare key key = .eq := compare_eq_iff_eq.mpr rfl
  rw [findKey, ofEntries, List.map_append, List.map_cons, findKeyFrom_of_forall_lt _ 0 hlt,
    findKeyFrom, heq]
  simp

/-- `findKey` finds nothing for a key that is not there. -/
theorem findKey_absent (hxs : ∀ x ∈ xs, x.1 < key) (hys : ∀ y ∈ ys, key < y.1) :
    (ofEntries (xs ++ ys)).findKey key = none := by
  have hlt : ∀ k ∈ xs.map Prod.fst, k < key := by
    intro k hk
    obtain ⟨x, hx, rfl⟩ := List.mem_map.mp hk
    exact hxs x hx
  rw [findKey, ofEntries, List.map_append, findKeyFrom_of_forall_lt _ 0 hlt]
  cases ys with
  | nil => rfl
  | cons y ys =>
    have hy : compare key y.1 = .lt := compare_lt_iff_lt.mpr (hys y List.mem_cons_self)
    rw [List.map_cons, findKeyFrom, hy]

/-- The insert position is behind all smaller keys. -/
theorem findInsertPositionForKey_split (hxs : ∀ x ∈ xs, x.1 < key)
    (hys : ∀ y ∈ ys, ¬ y.1 < key) :
    (ofEntries (xs ++ ys)).findInsertPositionForKey key = xs.length := by
  have htake : ((xs ++ ys).map Prod.fst).takeWhile
      (fun k => decide (compare k key = .lt)) = xs.map Prod.fst := by
    rw [List.map_append, List.takeWhile_append_of_pos]
    · cases ys with
      | nil => simp
      | cons y ys =>
        have hy : ¬ compare y.1 key = .lt := mt compare_lt_iff_lt.mp (hys y List.mem_cons_self)
        simp [hy]
    · intro k hk
      obtain ⟨x, hx, rfl⟩ := List.mem_map.mp hk
      exact decide_eq_true (compare_lt_iff_lt.mpr (hxs x hx))
  rw [findInsertPositionForKey, ofEntries, htake, List.length_map]

end Split

/-- Reading the arrays is reading the entries. -/
theorem get_ofEntries {es : List (K × V)} (hs : Entries.Sorted es) (key : K) :
    (ofEntries es).get key = Entries.find key es := by
  obtain ⟨xs, ys, hxs, hys, rfl | ⟨v, rfl⟩⟩ := Entries.exists_split hs key
  · rw [get, findKey_absent hxs hys, Entries.find_absent hxs hys]
  · rw [get, findKey_split hxs, Entries.find_split_eq hs]
    simp [ofEntries]

/-- The arrays contain the keys of the entries. -/
theorem contains_ofEntries {es : List (K × V)} (hs : Entries.Sorted es) (key : K) :
    (ofEntries es).contains key = (Entries.find key es).isSome := by
  obtain ⟨xs, ys, hxs, hys, rfl | ⟨v, rfl⟩⟩ := Entries.exists_split hs key
  · rw [contains, findKey_absent hxs hys, Entries.find_absent hxs hys]
    rfl
  · rw [contains, findKey_split hxs, Entries.find_split_eq hs]
    rfl

/-- Removing from both arrays removes the entry. -/
theorem removeKey_ofEntries {es : List (K × V)} (hs : Entries.Sorted es) (key : K) :
    (ofEntries es).removeKey key = ofEntries (Entries.drop key es) := by
  obtain ⟨xs, ys, hxs, hys, rfl | ⟨v, rfl⟩⟩ := Entries.exists_split hs key
  · rw [removeKey, findKey_absent hxs hys, Entries.drop_absent hxs hys]
  · rw [removeKey, findKey_split hxs, Entries.drop_split_eq hs]
    simp [ofEntries, List.eraseIdx_append]

/-- The predecessor in the array is the last key before the given one. -/
theorem getPredecessorKey_ofEntries {xs ys : List (K × V)} {key : K} {v : V}
    (hxs : ∀ x ∈ xs, x.1 < key) :
    (ofEntries (xs ++ (key, v) :: ys)).getPredecessorKey key =
      .ok (xs.getLast?.map Prod.fst) := by
  rw [getPredecessorKey, findKey_split hxs]
  rcases List.eq_nil_or_concat xs with rfl | ⟨xs, x, rfl⟩
  · rfl
  · simp [ofEntries, List.getLast?_append]

/-- A full array, as an `NSMutableDictionary` before it becomes a tree. -/
theorem foldl_setObject {es : List (K × V)} (h : (es.map Prod.fst).Nodup) :
    ((es.foldl (fun dict e => dict.setObject e.1 e.2) .empty : NSDictionary K V)).entries = es := by
  -- each entry is added behind those before it, since its key is new
  have hgen : ∀ (es : List (K × V)) (dict : NSDictionary K V),
      ((dict.entries ++ es).map Prod.fst).Nodup →
      (es.foldl (fun dict e => dict.setObject e.1 e.2) dict).entries = dict.entries ++ es := by
    intro es
    induction es with
    | nil => simp
    | cons e es ih =>
      intro dict hnodup
      have hnew : ∀ x ∈ dict.entries, x.1 ≠ e.1 := by
        intro x hx heq
        rw [List.map_append, List.nodup_append] at hnodup
        exact hnodup.2.2 _ (List.mem_map_of_mem hx) _ (by simp) heq
      have hset : (dict.setObject e.1 e.2).entries = dict.entries ++ [e] := by
        simp [NSDictionary.setObject, Entries.drop_eq_self hnew]
      rw [List.foldl_cons, ih, hset]
      · simp
      · rw [hset]
        simpa using hnodup
  exact hgen es .empty (by simpa [NSDictionary.empty] using h)

end FArraySortedDictionary

/-! ## The tree implementation -/

namespace FTreeSortedDictionary

open FLLRBNode

/-- The loop of `get` walks down to the entry. -/
theorem getLoop_eq {t : FLLRBNode K V} (hs : Entries.Sorted t.inorderTraversal) (key : K) :
    getLoop key t = Entries.find key t.inorderTraversal := by
  induction t with
  | empty => rfl
  | node c l k v r ihl ihr =>
    obtain ⟨hsl, hsr, -, -⟩ := Entries.sorted_append_cons.mp hs
    rw [getLoop, inorderTraversal]
    rcases hcmp : compare key k with _ | _ | _
    · exact (ihl hsl).trans (Entries.find_split_lt hs (compare_lt_iff_lt.mp hcmp)).symm
    · obtain rfl := compare_eq_iff_eq.mp hcmp
      exact (Entries.find_split_eq hs).symm
    · exact (ihr hsr).trans (Entries.find_split_gt hs (compare_gt_iff_gt.mp hcmp)).symm

omit [LinearOrder K] in
/-- `maxKey` is the key of the last entry. -/
theorem maxKey_eq (t : FLLRBNode K V) : t.maxKey = t.inorderTraversal.getLast?.map Prod.fst := by
  induction t with
  | empty => rfl
  | node c l k v r _ ihr =>
    cases r with
    | empty => simp [maxKey]
    | node rc rl rk rv rr =>
      rw [maxKey, ihr]
      · simp [List.getLast?_append, List.getLast?_cons]
      · simp

omit [LinearOrder K] in
/-- The reverse traversal has the entries from the last to the first. -/
theorem reverseTraversal_eq (t : FLLRBNode K V) :
    t.reverseTraversal = t.inorderTraversal.reverse := by
  induction t with
  | empty => rfl
  | node c l k v r ihl ihr => simp [reverseTraversal, ihl, ihr]

/-- The largest key below a key of the tree, or `rightParent` if there is none. -/
theorem predecessorLoop_eq {t : FLLRBNode K V} {key : K} (rightParent : Option K)
    (hs : Entries.Sorted t.inorderTraversal)
    (hkey : (Entries.find key t.inorderTraversal).isSome = true) :
    predecessorLoop key t rightParent =
      .ok (((Entries.below key t.inorderTraversal).getLast?.map Prod.fst).or rightParent) := by
  induction t generalizing rightParent with
  | empty => simp [Entries.find] at hkey
  | node c l k v r ihl ihr =>
    obtain ⟨hsl, hsr, -, -⟩ := Entries.sorted_append_cons.mp hs
    rw [predecessorLoop]
    rw [inorderTraversal] at hkey ⊢
    rcases hcmp : compare key k with _ | _ | _
    · have hlt := compare_lt_iff_lt.mp hcmp
      rw [Entries.find_split_lt hs hlt] at hkey
      rw [Entries.below_split_lt hs hlt.le]
      exact ihl rightParent hsl hkey
    · obtain rfl := compare_eq_iff_eq.mp hcmp
      rw [Entries.below_split_eq hs]
      cases l with
      | empty => simp
      | node => simp [maxKey_eq, List.getLast?_append, List.getLast?_cons]
    · have hgt := compare_gt_iff_gt.mp hcmp
      rw [Entries.find_split_gt hs hgt] at hkey
      rw [Entries.below_split_gt hs hgt]
      refine (ihr (some k) hsr hkey).trans ?_
      rw [List.getLast?_append, List.getLast?_cons]
      cases (Entries.below key r.inorderTraversal).getLast? <;> simp

/-- A key that is not in the tree has no predecessor, and asking for it is an error. -/
theorem predecessorLoop_absent {t : FLLRBNode K V} {key : K} (rightParent : Option K)
    (hs : Entries.Sorted t.inorderTraversal)
    (hkey : Entries.find key t.inorderTraversal = none) :
    predecessorLoop key t rightParent =
      .error ⟨"NonexistentKey", "getPredecessorKey called with nonexistent key."⟩ := by
  induction t generalizing rightParent with
  | empty => rfl
  | node c l k v r ihl ihr =>
    obtain ⟨hsl, hsr, -, -⟩ := Entries.sorted_append_cons.mp hs
    rw [predecessorLoop]
    rw [inorderTraversal] at hkey
    rcases hcmp : compare key k with _ | _ | _
    · rw [Entries.find_split_lt hs (compare_lt_iff_lt.mp hcmp)] at hkey
      exact ihl rightParent hsl hkey
    · obtain rfl := compare_eq_iff_eq.mp hcmp
      rw [Entries.find_split_eq hs] at hkey
      simp at hkey
    · rw [Entries.find_split_gt hs (compare_gt_iff_gt.mp hcmp)] at hkey
      exact ihr (some k) hsr hkey

end FTreeSortedDictionary

/-! ## The abstraction -/

namespace FImmutableSortedDictionary

open FLLRBNode

/-- The dictionary holds the entries `es`: in two arrays that have not reached the threshold yet,
or in a valid tree. -/
def Represents (d : FImmutableSortedDictionary K V) (es : List (K × V)) : Prop :=
  Entries.Sorted es ∧
    match d with
    | .array d => d = .ofEntries es ∧
        es.length ≤ SORTED_DICTIONARY_ARRAY_TO_RB_TREE_SIZE_THRESHOLD
    | .tree d => (∃ n, Balanced d.root .BLACK n) ∧ d.root.inorderTraversal = es

variable {d : FImmutableSortedDictionary K V} {es : List (K × V)}

/-- The entries of a dictionary are sorted. -/
theorem Represents.sorted (h : Represents d es) : Entries.Sorted es := h.1

/-- A dictionary that represents `es` is the array of `es` or a valid tree. -/
theorem Represents.cases (h : Represents d es) :
    (d = .array (.ofEntries es) ∧
      es.length ≤ SORTED_DICTIONARY_ARRAY_TO_RB_TREE_SIZE_THRESHOLD) ∨
    ∃ t n, d = .tree ⟨t⟩ ∧ Balanced t .BLACK n ∧ t.inorderTraversal = es := by
  obtain ⟨hs, h⟩ := h
  cases d with
  | array d =>
    obtain ⟨rfl, hlen⟩ := h
    exact .inl ⟨rfl, hlen⟩
  | tree d =>
    obtain ⟨⟨n, hbal⟩, hin⟩ := h
    exact .inr ⟨d.root, n, rfl, hbal, hin⟩

/-! ### Operations keep it -/

/-- A new dictionary has no entries. -/
theorem represents_dictionaryWithComparator :
    Represents (dictionaryWithComparator : FImmutableSortedDictionary K V) [] :=
  ⟨List.Pairwise.nil, rfl, Nat.zero_le _⟩

/-- A dictionary made from an `NSDictionary` has its entries, sorted. -/
theorem represents_fromDictionary (dictionary : NSDictionary K V)
    (hlen : dictionary.entries.length + 1 < 2 ^ 32) :
    ∃ d, fromDictionary dictionary = .ok d ∧ Represents d dictionary.sortedEntries := by
  unfold fromDictionary
  split_ifs with hsize
  · refine ⟨.array (.ofEntries dictionary.sortedEntries), ?_,
      dictionary.sorted_sortedEntries, rfl, ?_⟩
    · rw [FArraySortedDictionary.fromDictionary_eq]
      rfl
    · rwa [dictionary.sortedEntries_perm.length_eq]
  · obtain ⟨d, n, hd, hbal, hin⟩ :=
      FTreeSortedDictionary.fromDictionary_spec dictionary hlen
    refine ⟨.tree d, ?_, dictionary.sorted_sortedEntries, ⟨n, hbal⟩, hin⟩
    rw [hd]
    rfl

/-- The array that is full becomes a tree of its entries and the new one. -/
theorem represents_insertKey_full {key : K} (value : V) (hs : Entries.Sorted es)
    (habsent : key ∉ es.map Prod.fst)
    (hlen : es.length ≤ SORTED_DICTIONARY_ARRAY_TO_RB_TREE_SIZE_THRESHOLD) :
    ∃ tree, FTreeSortedDictionary.fromDictionary
        (((es.foldl (fun dict e => dict.setObject e.1 e.2) .empty : NSDictionary K V)).setObject
          key value) = .ok tree ∧
      Represents (.tree tree) (Entries.put key value es) := by
  have hnodup : (es.map Prod.fst).Nodup := List.Pairwise.imp ne_of_lt hs
  set dict : NSDictionary K V := es.foldl (fun dict e => dict.setObject e.1 e.2) .empty
  have hne : ∀ x ∈ es, x.1 ≠ key := by
    rintro x hx rfl
    exact habsent (List.mem_map_of_mem hx)
  have hentries : dict.entries = es := FArraySortedDictionary.foldl_setObject hnodup
  have hdict : (dict.setObject key value).entries = es ++ [(key, value)] := by
    calc (dict.setObject key value).entries
        = Entries.drop key dict.entries ++ [(key, value)] := rfl
      _ = es ++ [(key, value)] := by rw [hentries, Entries.drop_eq_self hne]
  obtain ⟨tree, n, htree, hbal, hin⟩ :=
    FTreeSortedDictionary.fromDictionary_spec (dict.setObject key value) (by
      rw [hdict, List.length_append, List.length_singleton]
      have : SORTED_DICTIONARY_ARRAY_TO_RB_TREE_SIZE_THRESHOLD = 25 := rfl
      omega)
  refine ⟨tree, htree, Entries.sorted_put hs key value, ⟨n, hbal⟩, ?_⟩
  -- both lists are in key order and have the same entries
  rw [hin]
  apply Entries.eq_of_perm (dict.setObject key value).sorted_sortedEntries
    (Entries.sorted_put hs key value)
  refine (dict.setObject key value).sortedEntries_perm.trans ?_
  rw [hdict]
  exact List.perm_append_comm.trans (Entries.put_perm habsent value).symm

/-- `insertKey:withValue:` puts the entry in its place, also where it turns the arrays into a tree.
-/
theorem Represents.insertKey (h : Represents d es) (key : K) (value : V) :
    ∃ d', d.insertKey key value = .ok d' ∧ Represents d' (Entries.put key value es) := by
  rcases h.cases with ⟨rfl, hlen⟩ | ⟨t, n, rfl, hbal, rfl⟩
  · have hs := h.sorted
    obtain ⟨xs, ys, hxs, hys, rfl | ⟨v, rfl⟩⟩ := Entries.exists_split hs key
    · have hput := Entries.put_absent value hxs hys
      simp only [FImmutableSortedDictionary.insertKey, FArraySortedDictionary.insertKey,
        FArraySortedDictionary.findKey_absent hxs hys]
      split_ifs with hfull
      · have habsent : key ∉ (xs ++ ys).map Prod.fst := by
          intro hmem
          obtain ⟨e, he, rfl⟩ := List.mem_map.mp hmem
          rcases List.mem_append.mp he with he | he
          · exact lt_irrefl _ (hxs e he)
          · exact lt_irrefl _ (hys e he)
        obtain ⟨tree, htree, hrep⟩ := represents_insertKey_full value hs habsent hlen
        refine ⟨.tree tree, ?_, hrep⟩
        rw [FArraySortedDictionary.zip_ofEntries, htree]
        rfl
      · refine ⟨.array (.ofEntries (Entries.put key value (xs ++ ys))), ?_,
          Entries.sorted_put hs key value, rfl, ?_⟩
        · rw [hput, FArraySortedDictionary.findInsertPositionForKey_split hxs
            fun y hy => (hys y hy).asymm, FArraySortedDictionary.insertIdx_ofEntries]
        · rw [FArraySortedDictionary.length_keys_ofEntries] at hfull
          rw [hput]
          simp only [List.length_append, List.length_cons] at hfull ⊢
          omega
    · have hput := Entries.put_split_eq value hs
      refine ⟨.array (.ofEntries (Entries.put key value (xs ++ (key, v) :: ys))), ?_,
        Entries.sorted_put hs key value, rfl, ?_⟩
      · simp only [FImmutableSortedDictionary.insertKey, FArraySortedDictionary.insertKey,
          FArraySortedDictionary.findKey_split hxs, hput]
        simp [FArraySortedDictionary.ofEntries]
      · rw [hput]
        simpa using hlen
  · obtain ⟨m, hbal'⟩ := hbal.insertKey key value
    refine ⟨.tree ⟨(t.insertKey key value).withColor .BLACK⟩, rfl,
      Entries.sorted_put h.sorted key value, ⟨m, hbal'⟩, ?_⟩
    simp only [inorderTraversal_withColor]
    exact inorderTraversal_insertKey key value h.sorted

/-- `removeKey:` drops the entry, if there is one. -/
theorem Represents.removeKey (h : Represents d es) (key : K) :
    Represents (d.removeKey key) (Entries.drop key es) := by
  have hs := h.sorted
  rcases h.cases with ⟨rfl, hlen⟩ | ⟨t, n, rfl, hbal, rfl⟩
  · refine ⟨Entries.sorted_drop hs key, FArraySortedDictionary.removeKey_ofEntries hs key, ?_⟩
    exact (Entries.length_drop_le key es).trans hlen
  · simp only [FImmutableSortedDictionary.removeKey, FTreeSortedDictionary.removeKey,
      FTreeSortedDictionary.contains, FTreeSortedDictionary.get,
      FTreeSortedDictionary.getLoop_eq hs]
    refine ⟨Entries.sorted_drop hs key, ?_⟩
    cases hfind : Entries.find key t.inorderTraversal with
    | none =>
      -- the tree is left alone
      rw [Entries.drop_eq_self_of_find hfind]
      exact ⟨⟨n, hbal⟩, rfl⟩
    | some v =>
      obtain ⟨hbal', hin⟩ := hbal.remove key hs
      refine ⟨hbal', ?_⟩
      simp only [Option.isSome_some, Bool.not_true, Bool.false_eq_true, if_false,
        inorderTraversal_withColor]
      exact hin

/-! ### What a dictionary answers -/

/-- `get:` reads the entry. -/
theorem Represents.get (h : Represents d es) (key : K) : d.get key = Entries.find key es := by
  rcases h.cases with ⟨rfl, -⟩ | ⟨t, n, rfl, -, rfl⟩
  · exact FArraySortedDictionary.get_ofEntries h.sorted key
  · exact FTreeSortedDictionary.getLoop_eq h.sorted key

/-- `containsKey:` says whether there is an entry. -/
theorem Represents.contains (h : Represents d es) (key : K) :
    d.contains key = (Entries.find key es).isSome := by
  rcases h.cases with ⟨rfl, -⟩ | ⟨t, n, rfl, -, rfl⟩
  · exact FArraySortedDictionary.contains_ofEntries h.sorted key
  · exact congrArg Option.isSome (FTreeSortedDictionary.getLoop_eq h.sorted key)

/-- The block sees the entries in their order. -/
theorem Represents.enumerate (h : Represents d es) : d.enumerateKeysAndObjects = es := by
  rcases h.cases with ⟨rfl, -⟩ | ⟨t, n, rfl, -, rfl⟩
  · exact FArraySortedDictionary.zip_ofEntries es
  · rfl

/-- In reverse, the block sees the entries from the last to the first. -/
theorem Represents.enumerateReverse (h : Represents d es) :
    d.enumerateKeysAndObjectsReverse = es.reverse := by
  rcases h.cases with ⟨rfl, -⟩ | ⟨t, n, rfl, -, rfl⟩
  · exact congrArg List.reverse (FArraySortedDictionary.zip_ofEntries es)
  · exact FTreeSortedDictionary.reverseTraversal_eq t

/-- `count` is the number of entries. -/
theorem Represents.count (h : Represents d es) : d.count = es.length := by
  rcases h.cases with ⟨rfl, -⟩ | ⟨t, n, rfl, -, rfl⟩
  · exact FArraySortedDictionary.length_keys_ofEntries es
  · exact count_eq_length t

/-- `minKey` is the key of the first entry. -/
theorem Represents.minKey (h : Represents d es) : d.minKey = es.head?.map Prod.fst := by
  rcases h.cases with ⟨rfl, -⟩ | ⟨t, n, rfl, -, rfl⟩
  · exact List.head?_map ..
  · exact congrArg (Option.map Prod.fst) (min_eq_head? t)

/-- `maxKey` is the key of the last entry. -/
theorem Represents.maxKey (h : Represents d es) : d.maxKey = es.getLast?.map Prod.fst := by
  rcases h.cases with ⟨rfl, -⟩ | ⟨t, n, rfl, -, rfl⟩
  · exact List.getLast?_map ..
  · exact FTreeSortedDictionary.maxKey_eq t

/-- `getPredecessorKey:` is the last key below a key that is there. -/
theorem Represents.getPredecessorKey (h : Represents d es) {key : K}
    (hkey : (Entries.find key es).isSome = true) :
    d.getPredecessorKey key = .ok ((Entries.below key es).getLast?.map Prod.fst) := by
  rcases h.cases with ⟨rfl, -⟩ | ⟨t, n, rfl, -, rfl⟩
  · obtain ⟨xs, ys, hxs, hys, rfl | ⟨v, rfl⟩⟩ := Entries.exists_split h.sorted key
    · rw [Entries.find_absent hxs hys] at hkey
      simp at hkey
    · rw [Entries.below_split_eq h.sorted]
      exact FArraySortedDictionary.getPredecessorKey_ofEntries hxs
  · exact (FTreeSortedDictionary.predecessorLoop_eq none h.sorted hkey).trans (by simp)

/-- Two dictionaries are equal for `isEqual` exactly if they hold the same entries, whatever
their implementations. -/
theorem Represents.isEqual_iff [DecidableEq V] {d d' : FImmutableSortedDictionary K V}
    {es es' : List (K × V)} (h : Represents d es) (h' : Represents d' es') :
    d.isEqual d' = true ↔ es = es' := by
  unfold isEqual
  rw [h.count, h'.count, h.enumerate]
  constructor
  · intro heq
    split_ifs at heq with hlen
    have hsub : es ⊆ es' := by
      intro e he
      have hfind := List.all_eq_true.mp heq e he
      rw [h'.get, decide_eq_true_eq] at hfind
      exact (Entries.find_eq_some_iff h'.sorted).mp hfind
    have hnodup : es.Nodup := by
      have hkeys : (es.map Prod.fst).Nodup := List.Pairwise.imp ne_of_lt h.sorted
      exact List.Nodup.of_map _ hkeys
    -- a sublist up to order, of the same length
    have hsubperm : es.Subperm es' := List.subperm_of_subset hnodup hsub
    exact Entries.eq_of_perm h.sorted h'.sorted (hsubperm.perm_of_length_le (by omega))
  · rintro rfl
    rw [if_neg (by simp), List.all_eq_true]
    intro e he
    rw [h'.get, decide_eq_true_eq]
    exact (Entries.find_eq_some_iff h.sorted).mpr he

end FImmutableSortedDictionary

/-! ## Runs -/

/-- An update of a dictionary. -/
inductive DictionaryOp (K V : Type) where
  | setObject (anObject : V) (aKey : K)
  | removeObjectForKey (aKey : K)

def DictionaryOp.isInsertion : DictionaryOp K V → Bool
  | .setObject _ _ => true
  | .removeObjectForKey _ => false

/-- An update of an entry list. -/
def DictionaryOp.onEntries (es : List (K × V)) : DictionaryOp K V → List (K × V)
  | .setObject anObject aKey => Entries.put aKey anObject es
  | .removeObjectForKey aKey => Entries.drop aKey es

namespace FImmutableSortedDictionary

def perform (d : FImmutableSortedDictionary K V) :
    DictionaryOp K V → Except NSException (FImmutableSortedDictionary K V)
  | .setObject anObject aKey => d.insertKey aKey anObject
  | .removeObjectForKey aKey => .ok (d.removeKey aKey)

/-- A dictionary made of an `NSDictionary` and updated. -/
def run (dictionary : NSDictionary K V) (ops : List (DictionaryOp K V)) :
    Except NSException (FImmutableSortedDictionary K V) := do
  ops.foldlM perform (← fromDictionary dictionary)

/-- The entries after a run. -/
def runEntries (dictionary : NSDictionary K V) (ops : List (DictionaryOp K V)) : List (K × V) :=
  ops.foldl DictionaryOp.onEntries dictionary.sortedEntries

/-- Thirty insertions into an empty dictionary, past the threshold, and a removal, for concrete
runs. -/
def sampleOps : List (DictionaryOp ℕ String) :=
  (List.range 30).map (fun n => .setObject "v" n) ++ [.removeObjectForKey 7]

/-- Every operation does to the entries what it should. -/
theorem Represents.perform {d : FImmutableSortedDictionary K V} {es : List (K × V)}
    (h : Represents d es) (op : DictionaryOp K V) :
    ∃ d', d.perform op = .ok d' ∧ Represents d' (op.onEntries es) := by
  cases op with
  | setObject anObject aKey => exact h.insertKey aKey anObject
  | removeObjectForKey aKey => exact ⟨_, rfl, h.removeKey aKey⟩

/-- A run never raises an exception. -/
theorem represents_run (dictionary : NSDictionary K V) (ops : List (DictionaryOp K V))
    (hlen : dictionary.entries.length + 1 < 2 ^ 32) :
    ∃ d, run dictionary ops = .ok d ∧ Represents d (runEntries dictionary ops) := by
  have hgen : ∀ (d : FImmutableSortedDictionary K V) (es : List (K × V)), Represents d es →
      ∃ d', ops.foldlM FImmutableSortedDictionary.perform d = .ok d' ∧
        Represents d' (ops.foldl DictionaryOp.onEntries es) := by
    induction ops with
    | nil => exact fun d es h => ⟨d, rfl, h⟩
    | cons op ops ih =>
      intro d es h
      obtain ⟨d₁, hd₁, h₁⟩ := h.perform op
      obtain ⟨d', hd', h'⟩ := ih d₁ _ h₁
      refine ⟨d', ?_, h'⟩
      rw [List.foldlM_cons, hd₁]
      exact hd'
  obtain ⟨d, hd, hrep⟩ := represents_fromDictionary dictionary hlen
  obtain ⟨d', hd', hrep'⟩ := hgen d _ hrep
  refine ⟨d', ?_, hrep'⟩
  rw [run, hd]
  exact hd'

/-- The number of entries stays below 2^31 whichever insertions find a key already there: `count`,
which is an `int`, does not overflow at any time. -/
def CountsFit (dictionary : NSDictionary K V) (ops : List (DictionaryOp K V)) : Prop :=
  dictionary.entries.length + ops.countP DictionaryOp.isInsertion < 2 ^ 31

omit [LinearOrder K] in
/-- The initial entries are few enough for the builder of the tree. -/
theorem CountsFit.initial {dictionary : NSDictionary K V} {ops : List (DictionaryOp K V)}
    (h : CountsFit dictionary ops) : dictionary.entries.length + 1 < 2 ^ 32 := by
  unfold CountsFit at h
  omega

/-- Only insertions make a dictionary larger, each by one entry at most. -/
theorem length_onEntries_le (es : List (K × V)) (op : DictionaryOp K V) :
    (op.onEntries es).length ≤ es.length + [op].countP DictionaryOp.isInsertion := by
  cases op with
  | setObject anObject aKey => exact Entries.length_put_le aKey anObject es
  | removeObjectForKey aKey => exact (Entries.length_drop_le aKey es).trans (Nat.le_add_right _ _)

/-- A run has at most the initial entries and one more for each insertion. -/
theorem length_runEntries_le (dictionary : NSDictionary K V) (ops : List (DictionaryOp K V)) :
    (runEntries dictionary ops).length ≤
      dictionary.entries.length + ops.countP DictionaryOp.isInsertion := by
  have hgen : ∀ es : List (K × V), (ops.foldl DictionaryOp.onEntries es).length ≤
      es.length + ops.countP DictionaryOp.isInsertion := by
    induction ops with
    | nil => exact fun es => le_rfl
    | cons op ops ih =>
      intro es
      have hstep := length_onEntries_le es op
      have hrest := ih (op.onEntries es)
      rw [List.foldl_cons, List.countP_cons]
      rw [List.countP_singleton] at hstep
      omega
  rw [← dictionary.sortedEntries_perm.length_eq]
  exact hgen dictionary.sortedEntries

/-- Over any run of insertions and removals, from any initial entries, a dictionary answers as
the list of its entries in key order does, whichever implementation it has reached. -/
theorem run_refines_entries (dictionary : NSDictionary K V) (ops : List (DictionaryOp K V))
    (hint : CountsFit dictionary ops) :
    ∃ d, run dictionary ops = .ok d ∧ (runEntries dictionary ops).length < 2 ^ 31 ∧
      (∀ key, d.get key = Entries.find key (runEntries dictionary ops) ∧
        d.contains key = (Entries.find key (runEntries dictionary ops)).isSome) ∧
      d.count = (runEntries dictionary ops).length ∧
      d.minKey = (runEntries dictionary ops).head?.map Prod.fst ∧
      d.maxKey = (runEntries dictionary ops).getLast?.map Prod.fst ∧
      d.enumerateKeysAndObjects = runEntries dictionary ops ∧
      d.enumerateKeysAndObjectsReverse = (runEntries dictionary ops).reverse := by
  obtain ⟨d, hd, hrep⟩ := represents_run dictionary ops hint.initial
  exact ⟨d, hd, (length_runEntries_le dictionary ops).trans_lt hint,
    fun key => ⟨hrep.get key, hrep.contains key⟩, hrep.count, hrep.minKey, hrep.maxKey,
    hrep.enumerate, hrep.enumerateReverse⟩

/-- The sample stays within the range of `int`. -/
theorem countsFit_sampleOps : CountsFit .empty sampleOps := by
  unfold CountsFit
  decide

/-- The refinement at the sample. -/
theorem run_refines_entries_sampleOps :
    ∃ d, run .empty sampleOps = .ok d ∧ (runEntries .empty sampleOps).length < 2 ^ 31 ∧
      (∀ key, d.get key = Entries.find key (runEntries .empty sampleOps) ∧
        d.contains key = (Entries.find key (runEntries .empty sampleOps)).isSome) ∧
      d.count = (runEntries .empty sampleOps).length ∧
      d.minKey = (runEntries .empty sampleOps).head?.map Prod.fst ∧
      d.maxKey = (runEntries .empty sampleOps).getLast?.map Prod.fst ∧
      d.enumerateKeysAndObjects = runEntries .empty sampleOps ∧
      d.enumerateKeysAndObjectsReverse = (runEntries .empty sampleOps).reverse :=
  run_refines_entries .empty sampleOps countsFit_sampleOps

/-- Every dictionary a run reaches is cheap to search: an array has at most the threshold's number
of entries, a tree passes its self-check and is at most twice as deep as a perfect one. -/
theorem run_balanced (dictionary : NSDictionary K V) (ops : List (DictionaryOp K V))
    (hint : CountsFit dictionary ops) :
    ∃ d, run dictionary ops = .ok d ∧
      (∀ a, d = .array a → d.count ≤ SORTED_DICTIONARY_ARRAY_TO_RB_TREE_SIZE_THRESHOLD) ∧
      ∀ t, d = .tree t → (∃ blackDepth, t.root.check = .ok blackDepth) ∧
        t.root.checkMaxDepth = .ok true ∧ t.root.depth ≤ 2 * (t.root.count + 1).log2 := by
  obtain ⟨d, hd, hrep⟩ := represents_run dictionary ops hint.initial
  refine ⟨d, hd, ?_, ?_⟩
  · rintro a rfl
    rw [hrep.count]
    exact hrep.2.2
  · rintro t rfl
    obtain ⟨n, hbal⟩ := hrep.2.1
    have hdepth : t.root.depth ≤ 2 * n := by simpa using hbal.depth_le
    have hlog : n ≤ (t.root.count + 1).log2 := (Nat.le_log2 (by omega)).mpr hbal.two_pow_le
    exact ⟨⟨n, hbal.check_eq⟩, hbal.checkMaxDepth_eq, by omega⟩

/-- The balance at the sample. -/
theorem run_balanced_sampleOps :
    ∃ d, run .empty sampleOps = .ok d ∧
      (∀ a, d = .array a → d.count ≤ SORTED_DICTIONARY_ARRAY_TO_RB_TREE_SIZE_THRESHOLD) ∧
      ∀ t, d = .tree t → (∃ blackDepth, t.root.check = .ok blackDepth) ∧
        t.root.checkMaxDepth = .ok true ∧ t.root.depth ≤ 2 * (t.root.count + 1).log2 :=
  run_balanced .empty sampleOps countsFit_sampleOps

/-- Two runs end in dictionaries that are equal for `isEqual` exactly if they leave the same
entries, although one may have grown into a tree and the other not. -/
theorem run_isEqual_iff [DecidableEq V] (dictionary dictionary' : NSDictionary K V)
    (ops ops' : List (DictionaryOp K V)) (hint : CountsFit dictionary ops)
    (hint' : CountsFit dictionary' ops') :
    ∃ d d', run dictionary ops = .ok d ∧ run dictionary' ops' = .ok d' ∧
      (d.isEqual d' = true ↔ runEntries dictionary ops = runEntries dictionary' ops') := by
  obtain ⟨d, hd, hrep⟩ := represents_run dictionary ops hint.initial
  obtain ⟨d', hd', hrep'⟩ := represents_run dictionary' ops' hint'.initial
  exact ⟨d, d', hd, hd', hrep.isEqual_iff hrep'⟩

/-- Equality at the sample and a run with fewer operations. -/
theorem run_isEqual_iff_sampleOps :
    ∃ d d', run .empty sampleOps = .ok d ∧ run .empty (sampleOps.take 7) = .ok d' ∧
      (d.isEqual d' = true ↔ runEntries .empty sampleOps = runEntries .empty (sampleOps.take 7)) :=
  run_isEqual_iff .empty .empty sampleOps (sampleOps.take 7) countsFit_sampleOps
    (by unfold CountsFit; decide)

/-- A key that is not there has no predecessor: both classes raise. -/
theorem Represents.getPredecessorKey_absent {d : FImmutableSortedDictionary K V}
    {es : List (K × V)} (h : Represents d es) {key : K} (hkey : Entries.find key es = none) :
    ∃ e, d.getPredecessorKey key = .error e := by
  rcases h.cases with ⟨rfl, -⟩ | ⟨t, n, rfl, -, rfl⟩
  · obtain ⟨xs, ys, hxs, hys, rfl | ⟨v, rfl⟩⟩ := Entries.exists_split h.sorted key
    · simp only [FImmutableSortedDictionary.getPredecessorKey,
        FArraySortedDictionary.getPredecessorKey, FArraySortedDictionary.findKey_absent hxs hys]
      exact ⟨_, rfl⟩
    · rw [Entries.find_split_eq h.sorted] at hkey
      simp at hkey
  · exact ⟨_, FTreeSortedDictionary.predecessorLoop_absent none h.sorted hkey⟩

/-- Over any run, the predecessor of a stored key is the largest stored key below it, and asking
for that of another key raises an exception. -/
theorem run_getPredecessorKey (dictionary : NSDictionary K V) (ops : List (DictionaryOp K V))
    (hlen : dictionary.entries.length + 1 < 2 ^ 32) :
    ∃ d, run dictionary ops = .ok d ∧ ∀ key,
      (d.contains key = false → ∃ e, d.getPredecessorKey key = .error e) ∧
      (d.contains key = true → ∃ p, d.getPredecessorKey key = .ok p ∧
        (p = none → ∀ k, d.contains k = true → key ≤ k) ∧
        ∀ q, p = some q → d.contains q = true ∧ q < key ∧
          ∀ k, d.contains k = true → k < key → k ≤ q) := by
  obtain ⟨d, hd, hrep⟩ := represents_run dictionary ops hlen
  refine ⟨d, hd, fun key => ⟨fun hkey => ?_, fun hkey => ?_⟩⟩
  · rw [hrep.contains, Option.isSome_eq_false_iff, Option.isNone_iff_eq_none] at hkey
    exact hrep.getPredecessorKey_absent hkey
  · rw [hrep.contains] at hkey
    refine ⟨_, hrep.getPredecessorKey hkey, ?_, ?_⟩
    · intro hnone k hk
      obtain ⟨v, hv⟩ := (Entries.isSome_find_iff hrep.sorted).mp (hrep.contains k ▸ hk)
      exact Entries.getLast?_below_eq_none (Option.map_eq_none_iff.mp hnone) (k, v) hv
    · intro q hq
      obtain ⟨⟨q', v⟩, hlast, rfl⟩ := Option.map_eq_some_iff.mp hq
      obtain ⟨hmem, hlt, hmax⟩ := Entries.getLast?_below_eq_some hrep.sorted hlast
      refine ⟨?_, hlt, ?_⟩
      · rw [hrep.contains]
        exact (Entries.isSome_find_iff hrep.sorted).mpr ⟨v, hmem⟩
      · intro k hk hklt
        obtain ⟨v', hv'⟩ := (Entries.isSome_find_iff hrep.sorted).mp (hrep.contains k ▸ hk)
        exact hmax (k, v') hv' hklt

/-- The predecessors at the sample. -/
theorem run_getPredecessorKey_sampleOps :
    ∃ d, run .empty sampleOps = .ok d ∧ ∀ key,
      (d.contains key = false → ∃ e, d.getPredecessorKey key = .error e) ∧
      (d.contains key = true → ∃ p, d.getPredecessorKey key = .ok p ∧
        (p = none → ∀ k, d.contains k = true → key ≤ k) ∧
        ∀ q, p = some q → d.contains q = true ∧ q < key ∧
          ∀ k, d.contains k = true → k < key → k ≤ q) :=
  run_getPredecessorKey .empty sampleOps (by decide)

end FImmutableSortedDictionary

end TifaSoccer
