import TifaSoccer.Database.Snapshot
import TifaSoccer.Database.NodeTheorems
import TifaSoccer.Database.ReferenceTheorems

/-!
# Values are read back as they were written

A value and the node made of it stand for the same JSON value, in which nulls and empty objects
are left out and an array is an object with its indices as keys; and the value that a node is
read as stands for the JSON value of the node, whether it is a dictionary or an array. So what is
read from a node makes an equal node again.
-/

namespace TifaSoccer

/-! ## Indices -/

namespace FUtilities

/-- The loop over the digits computes the number in base ten. -/
theorem parseDigits_eq_some_iff (str : NSString) (value n : ℕ) :
    parseDigits str value = some n ↔ (∀ c ∈ str, 48 ≤ c ∧ c ≤ 57) ∧
      n = Nat.ofDigits 10 (str.reverse.map (· - 48)) + 10 ^ str.length * value := by
  induction str generalizing value with
  | nil => simp [parseDigits, eq_comm]
  | cons c str ih =>
    rw [parseDigits]
    split_ifs with hc
    · refine iff_of_false (by simp) fun h => ?_
      have := h.1 c List.mem_cons_self
      omega
    · rw [ih, List.reverse_cons, List.map_append, Nat.ofDigits_append, List.forall_mem_cons]
      have hdigit : 48 ≤ c ∧ c ≤ 57 := by omega
      simp only [hdigit, and_self, true_and, List.map_cons, List.map_nil, Nat.ofDigits_singleton,
        List.length_map, List.length_reverse, List.length_cons, pow_succ]
      have hring : 10 ^ str.length * (value * 10 + (c - 48)) =
          10 ^ str.length * (c - 48) + 10 ^ str.length * 10 * value := by ring
      rw [hring, add_assoc]

/-- Printing a digit and reading it gives it back. -/
theorem map_digits {ds : List ℕ} : ((ds.map (· + 48)).map (· - 48)) = ds := by
  rw [List.map_map]
  exact List.map_id'' (fun d => by simp) ds

/-- A printed number is read back. -/
theorem parseDigits_ofNat (n : ℕ) : parseDigits (.ofNat n) 0 = some n := by
  rw [parseDigits_eq_some_iff]
  refine ⟨fun c hc => NSString.digit_of_mem_ofNat hc, ?_⟩
  unfold NSString.ofNat
  split_ifs with hn
  · simp [hn]
  · rw [← List.map_reverse, List.reverse_reverse, map_digits, Nat.ofDigits_digits]
    simp

/-- A string of digits without a leading zero is the decimal form of its value. -/
theorem ofNat_of_parseDigits {key : NSString} {n : ℕ} (hne : key ≠ [])
    (hzero : ¬ (key.head? = some 48 ∧ key.length > 1)) (h : parseDigits key 0 = some n) :
    key = .ofNat n := by
  obtain ⟨hdigits, hvalue⟩ := (parseDigits_eq_some_iff key 0 n).mp h
  rw [mul_zero, add_zero] at hvalue
  obtain ⟨c, rest, rfl⟩ := List.exists_cons_of_ne_nil hne
  by_cases hc : c = 48
  · -- a zero stands alone
    subst hc
    obtain rfl : rest = [] := by
      by_contra hrest
      have := List.length_pos_iff.mpr hrest
      exact hzero ⟨rfl, by simpa using this⟩
    obtain rfl : n = 0 := by simpa using hvalue
    rfl
  · have hc48 := (hdigits c List.mem_cons_self).1
    have hlt : ∀ d ∈ (c :: rest).reverse.map (· - 48), d < 10 := by
      intro d hd
      obtain ⟨x, hx, rfl⟩ := List.mem_map.mp hd
      have := hdigits x (List.mem_reverse.mp hx)
      omega
    have hlast : ∀ hL : (c :: rest).reverse.map (· - 48) ≠ [],
        ((c :: rest).reverse.map (· - 48)).getLast hL ≠ 0 := by
      intro hL
      simp only [List.reverse_cons, List.map_append, List.map_cons, List.map_nil,
        List.getLast_append_singleton]
      omega
    have hroundtrip := Nat.digits_ofDigits 10 (by omega) _ hlt hlast
    rw [← hvalue] at hroundtrip
    have hn : n ≠ 0 := by
      rintro rfl
      simp at hroundtrip
    rw [NSString.ofNat, if_neg hn, hroundtrip, ← List.map_reverse, List.reverse_reverse,
      List.map_map]
    have hback : ∀ x ∈ c :: rest, ((· + 48) ∘ (· - 48)) x = id x := by
      intro x hx
      have := hdigits x hx
      simp only [Function.comp_apply, id_eq]
      omega
    rw [List.map_congr_left hback, List.map_id]

/-- Different numbers are printed as different keys. -/
theorem ofNat_injective : Function.Injective FKey.ofNat := by
  intro n m h
  have htext : NSString.ofNat n = NSString.ofNat m := congrArg FKey.text h
  have hparse := parseDigits_ofNat n
  rw [htext, parseDigits_ofNat m] at hparse
  exact (Option.some.inj hparse).symm

end FUtilities

/-! ## What a value stands for -/

/-- The object with the given entries, which come in any order. -/
def NSObject.ofUnsorted {V : Type} (es : List (FKey × JsonTree FKey V)) :
    Option (JsonTree FKey V) :=
  JsonTree.ofEntries (es.mergeSort fun a b => decide (a.1 ≤ b.1))

namespace NSObject

variable {V : Type}

mutual

/-- The JSON value: nulls are left out, and an array is an object with its indices as keys. -/
def tree : NSObject V → Option (JsonTree FKey V)
  | .null => none
  | .leaf value => some (.leaf value)
  | .dictionary entries => NSObject.ofUnsorted (treeEntries entries)
  | .array objects => NSObject.ofUnsorted (treeObjects 0 objects)

def treeEntries : List (FKey × NSObject V) → List (FKey × JsonTree FKey V)
  | [] => []
  | (key, value) :: entries => (tree value).toList.map (fun t => (key, t)) ++ treeEntries entries

def treeObjects (i : ℕ) : List (NSObject V) → List (FKey × JsonTree FKey V)
  | [] => []
  | value :: objects =>
    (tree value).toList.map (fun t => (FKey.ofNat i, t)) ++ treeObjects (i + 1) objects

end

end NSObject

/-- The key is a name: it does not start with a dot, and it is no number if it has other digits than
0 to 9. -/
def Foundation.PlainKey {V : Type} (F : Foundation V) (key : FKey) : Prop :=
  key.text.head? ≠ some 46 ∧
    (FUtilities.parseDigits key.text 0 = none → F.scanInteger key.text = none)

/-- A string of at most 10 MB, or a number. -/
def Foundation.StorableLeaf {V : Type} (F : Foundation V) (value : V) : Prop :=
  match F.leafKind value with
  | .string lengthOfBytes => lengthOfBytes ≤ FValidation.kFirebaseMaxLeafSize
  | .number isNaN => isNaN = false

namespace NSObject

variable {V : Type} (F : Foundation V)

mutual

/-- Dictionaries have different keys, all of them plain, and dictionaries and arrays have at most
`b` entries. -/
def Plain (b : ℕ) : NSObject V → Prop
  | .null => True
  | .leaf _ => True
  | .dictionary entries =>
    (entries.map Prod.fst).Nodup ∧ entries.length ≤ b ∧ PlainEntries b entries
  | .array objects => objects.length ≤ b ∧ PlainObjects b objects

def PlainEntries (b : ℕ) : List (FKey × NSObject V) → Prop
  | [] => True
  | (key, value) :: entries => F.PlainKey key ∧ Plain b value ∧ PlainEntries b entries

def PlainObjects (b : ℕ) : List (NSObject V) → Prop
  | [] => True
  | value :: objects => Plain b value ∧ PlainObjects b objects

end

mutual

/-- The value passes the validation: it has at most `n` levels, and its leaves and keys are
valid. -/
def Storable (n : ℕ) : NSObject V → Prop
  | .null => True
  | .leaf value => F.StorableLeaf value
  | .dictionary entries => StorableEntries n entries
  | .array objects => StorableObjects n objects

def StorableEntries (n : ℕ) : List (FKey × NSObject V) → Prop
  | [] => True
  | (key, value) :: entries =>
    0 < n ∧ FValidation.isValidKey key.text = true ∧ Storable (n - 1) value ∧
      StorableEntries n entries

def StorableObjects (n : ℕ) : List (NSObject V) → Prop
  | [] => True
  | value :: objects => 0 < n ∧ Storable (n - 1) value ∧ StorableObjects n objects

end

variable {F}

/-- The entries of an array: the values that are stored, under their indices. -/
theorem mem_treeObjects {i : ℕ} {objects : List (NSObject V)} {e : FKey × JsonTree FKey V} :
    e ∈ treeObjects i objects ↔
      ∃ j value, objects[j]? = some value ∧ value.tree = some e.2 ∧ e.1 = FKey.ofNat (i + j) := by
  induction objects generalizing i with
  | nil => simp [treeObjects]
  | cons object objects ih =>
    obtain ⟨k, t⟩ := e
    simp only [treeObjects, List.mem_append, List.mem_map, Option.mem_toList, ih, Prod.mk.injEq]
    constructor
    · rintro (⟨t', ht', rfl, rfl⟩ | ⟨j, value, hj, ht, rfl⟩)
      · exact ⟨0, object, rfl, ht', rfl⟩
      · exact ⟨j + 1, value, hj, ht, by rw [add_right_comm, add_assoc]⟩
    · rintro ⟨j, value, hj, ht, rfl⟩
      cases j with
      | zero =>
        obtain rfl : object = value := by simpa using hj
        exact .inl ⟨t, ht, rfl, rfl⟩
      | succ j => exact .inr ⟨j, value, hj, ht, by rw [add_right_comm, add_assoc]⟩

/-- The stored keys of a dictionary are keys of it, in its order. -/
theorem keys_treeEntries (entries : List (FKey × NSObject V)) :
    ((treeEntries entries).map Prod.fst).Sublist (entries.map Prod.fst) := by
  induction entries with
  | nil => exact List.Sublist.slnil
  | cons entry entries ih =>
    obtain ⟨key, value⟩ := entry
    simp only [treeEntries, List.map_append, List.map_cons]
    cases value.tree with
    | none => exact ih.cons key
    | some t => exact ih.cons_cons key

/-- The stored keys of an array are indices of it. -/
theorem keys_treeObjects (i : ℕ) (objects : List (NSObject V)) :
    ((treeObjects i objects).map Prod.fst).Sublist
      ((List.range' i objects.length).map FKey.ofNat) := by
  induction objects generalizing i with
  | nil => exact List.Sublist.slnil
  | cons object objects ih =>
    simp only [treeObjects, List.map_append, List.length_cons, List.range'_succ, List.map_cons]
    cases object.tree with
    | none => exact (ih (i + 1)).cons _
    | some t => exact (ih (i + 1)).cons_cons _

/-- No index is stored twice. -/
theorem nodup_keys_treeObjects (i : ℕ) (objects : List (NSObject V)) :
    ((treeObjects i objects).map Prod.fst).Nodup :=
  ((List.nodup_range').map FUtilities.ofNat_injective).sublist (keys_treeObjects i objects)

/-- No more is stored of a dictionary than it has entries. -/
theorem length_treeEntries_le (entries : List (FKey × NSObject V)) :
    (treeEntries entries).length ≤ entries.length := by
  simpa using (keys_treeEntries entries).length_le

/-- No more is stored of an array than it has objects. -/
theorem length_treeObjects_le (i : ℕ) (objects : List (NSObject V)) :
    (treeObjects i objects).length ≤ objects.length := by
  simpa using (keys_treeObjects i objects).length_le

end NSObject

/-- The order in which entries are collected does not matter. -/
theorem NSObject.ofUnsorted_eq {V : Type} {es es' : List (FKey × JsonTree FKey V)}
    (h : Entries.Sorted es) (hperm : es.Perm es') : ofUnsorted es' = JsonTree.ofEntries es := by
  have hnodup : (es'.map Prod.fst).Nodup := (hperm.map Prod.fst).nodup_iff.mp (h.imp fun h => h.ne)
  have heq := Entries.eq_of_perm (NSDictionary.mk es' hnodup).sorted_sortedEntries h
    ((NSDictionary.mk es' hnodup).sortedEntries_perm.trans hperm.symm)
  exact congrArg JsonTree.ofEntries heq

/-! ## Making a node of a value -/

namespace FSnapshotUtilities

variable {V : Type}

/-- The children found so far and the values they hold. -/
def Holds (children : NSDictionary FKey (FNode FKey V)) (es : List (FKey × JsonTree FKey V)) :
    Prop :=
  List.Forall₂ (fun c e => c.1 = e.1 ∧ c.2.Represents (some e.2)) children.entries es

/-- The collected children have the keys of the entries. -/
theorem Holds.keys_eq {children : NSDictionary FKey (FNode FKey V)}
    {es : List (FKey × JsonTree FKey V)} (h : Holds children es) :
    children.entries.map Prod.fst = es.map Prod.fst := by
  rw [← List.forall₂_eq_eq_eq, List.forall₂_map_left_iff, List.forall₂_map_right_iff]
  exact h.imp fun c e hce => hce.1

/-- One turn of either loop: an empty child is left out. -/
theorem Holds.addChild {children : NSDictionary FKey (FNode FKey V)}
    {es : List (FKey × JsonTree FKey V)} (h : Holds children es) {key : FKey}
    (hkey : key ∉ es.map Prod.fst) {childNode : FNode FKey V} {t : Option (JsonTree FKey V)}
    (hchild : childNode.Represents t) :
    Holds (addChild children key childNode) (es ++ t.toList.map fun t => (key, t)) := by
  unfold FSnapshotUtilities.addChild
  rw [hchild.isEmpty]
  cases t with
  | none => simpa using h
  | some t =>
    have hdrop : Entries.drop key children.entries = children.entries := by
      apply Entries.drop_eq_self
      intro e he heq
      rw [← h.keys_eq] at hkey
      exact hkey (heq ▸ List.mem_map_of_mem he)
    show List.Forall₂ _ (Entries.drop key children.entries ++ [(key, childNode)]) _
    rw [hdrop]
    exact List.rel_append h (.cons ⟨rfl, hchild⟩ .nil)

/-- The node built from the collected children. -/
theorem Holds.nodeWithChildren {children : NSDictionary FKey (FNode FKey V)}
    {es : List (FKey × JsonTree FKey V)} (h : Holds children es) (hsmall : es.length + 1 < 2 ^ 32) :
    ∃ node, nodeWithChildren children = .ok node ∧
      node.Represents (NSObject.ofUnsorted es) := by
  unfold FSnapshotUtilities.nodeWithChildren
  split_ifs with hempty
  · refine ⟨_, rfl, ?_⟩
    obtain rfl : es = [] := by
      rw [← List.length_eq_zero_iff, ← h.length_eq, hempty]
    have hnil : NSObject.ofUnsorted ([] : List (FKey × JsonTree FKey V)) = JsonTree.ofEntries [] :=
      NSObject.ofUnsorted_eq List.Pairwise.nil (List.Perm.refl [])
    rw [hnil]
    exact FNode.represents_emptyNode
  · have hnodup : (es.map Prod.fst).Nodup := h.keys_eq ▸ children.nodup
    have hsorted := (NSDictionary.mk es hnodup).sorted_sortedEntries
    have hperm := (NSDictionary.mk es hnodup).sortedEntries_perm
    obtain ⟨d, hd, hrep⟩ := FImmutableSortedDictionary.represents_fromDictionary children
      (h.length_eq ▸ hsmall)
    -- the value held under a key
    let tree : FKey → JsonTree FKey V := fun k =>
      (Entries.find k (NSDictionary.mk es hnodup).sortedEntries).getD (.object [])
    have htree : ∀ e ∈ es, tree e.1 = e.2 := by
      intro e he
      have hfind := (Entries.find_eq_some_iff hsorted).mpr (hperm.mem_iff.mpr he)
      show (Entries.find e.1 _).getD _ = e.2
      rw [hfind, Option.getD_some]
    have hheld : List.Forall₂ (fun c e => c.2.Represents (some (tree c.1)) ∧ (c.1, tree c.1) = e)
        children.entries es := by
      have hboth := (List.forall₂_and_left _ _).mpr ⟨htree, h.flip⟩
      refine hboth.flip.imp ?_
      rintro c ⟨k, t⟩ ⟨heq, hk, hc⟩
      obtain rfl : tree k = t := heq
      obtain rfl : c.1 = k := hk
      exact ⟨hc, rfl⟩
    obtain ⟨hsub, hmap⟩ := (List.forall₂_and_left _ _).mp hheld
    have hentries : children.entries.map (fun c => (c.1, tree c.1)) = es := by
      rw [← List.forall₂_eq_eq_eq, List.forall₂_map_left_iff]
      exact hmap
    have hsortedMap : NSObject.ofUnsorted es =
        JsonTree.ofEntries (children.sortedEntries.map fun c => (c.1, tree c.1)) := by
      apply NSObject.ofUnsorted_eq
      · rw [Entries.Sorted, List.map_map]
        exact children.sorted_sortedEntries
      · rw [← hentries]
        exact children.sortedEntries_perm.map _
    refine ⟨.children d, by rw [hd]; rfl, ?_⟩
    rw [hsortedMap]
    exact .children hrep tree fun c hc => hsub c (children.sortedEntries_perm.mem_iff.mp hc)

/-- Up to depth 1000 nothing is raised. -/
theorem checkDepth_ok {depth : ℕ} (h : depth ≤ 1000) (fn : String) (path : List NSString) :
    checkDepth fn depth path = .ok () := by
  rw [checkDepth, if_neg (by omega)]

/-- Below a thousand levels nothing is stored. -/
theorem internalNodeFrom_deep {F : Foundation V} {depth : ℕ} (h : depth > 1000) (fn : String)
    (path : List NSString) (value : NSObject V) :
    ∃ e, internalNodeFrom F fn depth path value = .error e := by
  obtain ⟨e, he⟩ : ∃ e, checkDepth fn depth path = .error e := ⟨_, if_pos h⟩
  refine ⟨e, ?_⟩
  cases value <;> rw [internalNodeFrom, he] <;> rfl

/-- A valid key does not raise. -/
theorem validDictionaryKey_ok {key : NSString} (h : FValidation.isValidKey key = true) (fn : String)
    (path : List NSString) : FValidation.validDictionaryKey fn key path = .ok () := by
  rw [FValidation.validDictionaryKey, if_neg (by simp [h])]

/-- The three keys that are let through start with a dot. -/
theorem validDictionaryKey_error {key : NSString} (hdot : key.head? ≠ some 46)
    (h : FValidation.isValidKey key = false) (fn : String) (path : List NSString) :
    ∃ e, FValidation.validDictionaryKey fn key path = .error e := by
  have hne : ∀ name : NSString, name.head? = some 46 → key ≠ name := by
    rintro name hname rfl
    exact hdot hname
  exact ⟨_, if_pos ⟨hne _ (by decide), hne _ (by decide), hne _ (by decide), h⟩⟩

/-- A leaf is let through if it is storable. -/
theorem isValidLeafValue_cases (F : Foundation V) (fn : String) (value : V) (path : List NSString) :
    (F.StorableLeaf value ∧ FValidation.isValidLeafValue F fn value path = .ok ()) ∨
      (¬ F.StorableLeaf value ∧ ∃ e, FValidation.isValidLeafValue F fn value path = .error e) := by
  unfold Foundation.StorableLeaf FValidation.isValidLeafValue
  cases F.leafKind value with
  | string lengthOfBytes =>
    by_cases h : lengthOfBytes ≤ FValidation.kFirebaseMaxLeafSize
    · exact .inl ⟨h, if_neg (by omega)⟩
    · exact .inr ⟨h, _, if_pos (by omega)⟩
  | number isNaN => cases isNaN <;> simp

/-- What becomes of a child: on a level too many nothing is stored. -/
theorem child_cases {F : Foundation V} (fn : String) {n depth : ℕ} (hdepth : depth + n = 1000)
    (path : List NSString) (value : NSObject V)
    (h : 0 < n →
      (value.Storable F (n - 1) ∧ ∃ node, internalNodeFrom F fn (depth + 1) path value = .ok node ∧
        node.Represents value.tree) ∨
      (¬ value.Storable F (n - 1) ∧
        ∃ e, internalNodeFrom F fn (depth + 1) path value = .error e)) :
    ((0 < n ∧ value.Storable F (n - 1)) ∧
      ∃ node, internalNodeFrom F fn (depth + 1) path value = .ok node ∧
        node.Represents value.tree) ∨
    (¬ (0 < n ∧ value.Storable F (n - 1)) ∧
      ∃ e, internalNodeFrom F fn (depth + 1) path value = .error e) := by
  rcases Nat.eq_zero_or_pos n with hn | hn
  · exact .inr ⟨fun hstorable => absurd hstorable.1 (by omega),
      internalNodeFrom_deep (by omega) fn path value⟩
  · rcases h hn with ⟨hstorable, hnode⟩ | ⟨hnot, herror⟩
    · exact .inl ⟨⟨hn, hstorable⟩, hnode⟩
    · exact .inr ⟨fun hstorable => hnot hstorable.2, herror⟩

open NSObject in
mutual

/-- A node is made exactly of the values that pass the validation, and it represents them. -/
theorem internalNodeFrom_cases {F : Foundation V} {b : ℕ} (hb : b + 1 < 2 ^ 32) (fn : String)
    {n depth : ℕ} (hdepth : depth + n = 1000) (path : List NSString) (value : NSObject V)
    (h : value.Plain F b) :
    (value.Storable F n ∧ ∃ node, internalNodeFrom F fn depth path value = .ok node ∧
      node.Represents value.tree) ∨
    (¬ value.Storable F n ∧ ∃ e, internalNodeFrom F fn depth path value = .error e) := by
  have hcheck := checkDepth_ok (show depth ≤ 1000 by omega) fn path
  cases value with
  | null =>
    exact .inl ⟨trivial, .emptyNode, by rw [internalNodeFrom, hcheck]; rfl,
      FNode.represents_emptyNode⟩
  | leaf value =>
    rcases isValidLeafValue_cases F fn value path with ⟨hvalid, hok⟩ | ⟨hnot, e, he⟩
    · exact .inl ⟨hvalid, .leaf value, by rw [internalNodeFrom, hcheck, hok]; rfl, .leaf value⟩
    · exact .inr ⟨hnot, e, by rw [internalNodeFrom, hcheck, he]; rfl⟩
  | dictionary entries =>
    obtain ⟨hnodup, hlen, hentries⟩ := h
    rcases dictionaryLoop_cases hb fn hdepth path .empty [] .nil entries hentries hnodup with
      ⟨hstorable, children, hchildren, hholds⟩ | ⟨hnot, e, he⟩
    · have hlength := length_treeEntries_le entries
      obtain ⟨node, hnode, hrep⟩ := hholds.nodeWithChildren (by rw [List.nil_append]; omega)
      exact .inl ⟨hstorable, node, by rw [internalNodeFrom, hcheck, hchildren]; exact hnode, hrep⟩
    · exact .inr ⟨hnot, e, by rw [internalNodeFrom, hcheck, he]; rfl⟩
  | array objects =>
    obtain ⟨hlen, hobjects⟩ := h
    rcases arrayLoop_cases hb fn hdepth path 0 .empty [] .nil (by simp) objects hobjects with
      ⟨hstorable, children, hchildren, hholds⟩ | ⟨hnot, e, he⟩
    · have hlength := length_treeObjects_le 0 objects
      obtain ⟨node, hnode, hrep⟩ := hholds.nodeWithChildren (by rw [List.nil_append]; omega)
      exact .inl ⟨hstorable, node, by rw [internalNodeFrom, hcheck, hchildren]; exact hnode, hrep⟩
    · exact .inr ⟨hnot, e, by rw [internalNodeFrom, hcheck, he]; rfl⟩

/-- The loop over a dictionary, by induction on the entries still to come. -/
theorem dictionaryLoop_cases {F : Foundation V} {b : ℕ} (hb : b + 1 < 2 ^ 32) (fn : String)
    {n depth : ℕ} (hdepth : depth + n = 1000) (path : List NSString)
    (children : NSDictionary FKey (FNode FKey V)) (es : List (FKey × JsonTree FKey V))
    (hes : Holds children es) (entries : List (FKey × NSObject V))
    (h : PlainEntries F b entries)
    (hnodup : (es.map Prod.fst ++ entries.map Prod.fst).Nodup) :
    (StorableEntries F n entries ∧ ∃ children',
      dictionaryLoop F fn depth path children entries = .ok children' ∧
      Holds children' (es ++ treeEntries entries)) ∨
    (¬ StorableEntries F n entries ∧
      ∃ e, dictionaryLoop F fn depth path children entries = .error e) := by
  cases entries with
  | nil => exact .inl ⟨trivial, children, rfl, by simpa [treeEntries] using hes⟩
  | cons entry entries =>
    obtain ⟨key, value⟩ := entry
    obtain ⟨hplain, hvalue, hrest⟩ := h
    cases hkey : FValidation.isValidKey key.text with
    | false =>
      obtain ⟨e, he⟩ := validDictionaryKey_error hplain.1 hkey fn path
      refine .inr ⟨fun hstorable => ?_, e, by rw [dictionaryLoop, he]; rfl⟩
      have hvalid : FValidation.isValidKey key.text = true := hstorable.2.1
      rw [hkey] at hvalid
      cases hvalid
    | true =>
      have hok := validDictionaryKey_ok hkey fn path
      rcases child_cases fn hdepth (path ++ [key.text]) value
        (fun hn => internalNodeFrom_cases hb fn (by omega) _ value hvalue) with
        ⟨⟨hn, hstored⟩, childNode, hchild, hrep⟩ | ⟨hnot, e, he⟩
      · rw [List.map_cons] at hnodup
        have hnot : key ∉ es.map Prod.fst := fun hmem =>
          (List.nodup_append.mp hnodup).2.2 key hmem key List.mem_cons_self rfl
        have hnodup' : ((es ++ value.tree.toList.map fun t => (key, t)).map Prod.fst ++
            entries.map Prod.fst).Nodup := by
          rw [List.map_append, List.append_assoc]
          refine hnodup.sublist (List.Sublist.append_left ?_ _)
          cases value.tree with
          | none => exact List.sublist_cons_self key _
          | some t => exact List.Sublist.refl _
        have hloop : dictionaryLoop F fn depth path children ((key, value) :: entries) =
            dictionaryLoop F fn depth path (addChild children key childNode) entries := by
          rw [dictionaryLoop, hok, if_neg hplain.1, hchild]
          rfl
        rw [hloop, treeEntries, ← List.append_assoc]
        rcases dictionaryLoop_cases hb fn hdepth path (addChild children key childNode) _
          (hes.addChild hnot hrep) entries hrest hnodup' with ⟨hstorable, hrest⟩ | ⟨hnot, herror⟩
        · exact .inl ⟨⟨hn, hkey, hstored, hstorable⟩, hrest⟩
        · exact .inr ⟨fun hstorable => hnot hstorable.2.2.2, herror⟩
      · refine .inr ⟨fun hstorable => hnot ⟨hstorable.1, hstorable.2.2.1⟩, e, ?_⟩
        rw [dictionaryLoop, hok, if_neg hplain.1, he]
        rfl

/-- The loop over an array, by induction on the objects still to come. -/
theorem arrayLoop_cases {F : Foundation V} {b : ℕ} (hb : b + 1 < 2 ^ 32) (fn : String)
    {n depth : ℕ} (hdepth : depth + n = 1000) (path : List NSString) (i : ℕ)
    (children : NSDictionary FKey (FNode FKey V)) (es : List (FKey × JsonTree FKey V))
    (hes : Holds children es) (hkeys : ∀ k ∈ es.map Prod.fst, ∃ j < i, k = FKey.ofNat j)
    (objects : List (NSObject V)) (h : PlainObjects F b objects) :
    (StorableObjects F n objects ∧ ∃ children',
      arrayLoop F fn depth path i children objects = .ok children' ∧
      Holds children' (es ++ treeObjects i objects)) ∨
    (¬ StorableObjects F n objects ∧
      ∃ e, arrayLoop F fn depth path i children objects = .error e) := by
  cases objects with
  | nil => exact .inl ⟨trivial, children, rfl, by simpa [treeObjects] using hes⟩
  | cons value objects =>
    obtain ⟨hvalue, hrest⟩ := h
    rcases child_cases fn hdepth (path ++ [(FKey.ofNat i).text]) value
      (fun hn => internalNodeFrom_cases hb fn (by omega) _ value hvalue) with
      ⟨⟨hn, hstored⟩, childNode, hchild, hrep⟩ | ⟨hnot, e, he⟩
    · have hnot : FKey.ofNat i ∉ es.map Prod.fst := by
        intro hmem
        obtain ⟨j, hj, heq⟩ := hkeys _ hmem
        have := FUtilities.ofNat_injective heq
        omega
      have hkeys' : ∀ k ∈ (es ++ value.tree.toList.map fun t => (FKey.ofNat i, t)).map Prod.fst,
          ∃ j < i + 1, k = FKey.ofNat j := by
        intro k hk
        rw [List.map_append, List.mem_append] at hk
        rcases hk with hk | hk
        · obtain ⟨j, hj, rfl⟩ := hkeys k hk
          exact ⟨j, by omega, rfl⟩
        · refine ⟨i, by omega, ?_⟩
          cases htree : value.tree with
          | none => simp [htree] at hk
          | some t => simpa [htree] using hk
      have hloop : arrayLoop F fn depth path i children (value :: objects) =
          arrayLoop F fn depth path (i + 1) (addChild children (FKey.ofNat i) childNode)
            objects := by
        rw [arrayLoop, hchild]
        rfl
      rw [hloop, treeObjects, ← List.append_assoc]
      rcases arrayLoop_cases hb fn hdepth path (i + 1) (addChild children (FKey.ofNat i) childNode)
        _ (hes.addChild hnot hrep) hkeys' objects hrest with ⟨hstorable, hrest⟩ | ⟨hnot, herror⟩
      · exact .inl ⟨⟨hn, hstored, hstorable⟩, hrest⟩
      · exact .inr ⟨fun hstorable => hnot hstorable.2.2, herror⟩
    · refine .inr ⟨fun hstorable => hnot ⟨hstorable.1, hstorable.2.1⟩, e, ?_⟩
      rw [arrayLoop, he]
      rfl

end

/-- `nodeFrom` returns a node that stands for the value, or raises because the value cannot be
stored. -/
theorem nodeFrom_cases {F : Foundation V} {b : ℕ} (hb : b + 1 < 2 ^ 32) (fn : String)
    {value : NSObject V} (h : value.Plain F b) :
    (value.Storable F 1000 ∧ ∃ node, nodeFrom F value fn = .ok node ∧
      node.Represents value.tree) ∨
    (¬ value.Storable F 1000 ∧ ∃ e, nodeFrom F value fn = .error e) :=
  internalNodeFrom_cases hb fn (Nat.zero_add 1000) [] value h

end FSnapshotUtilities

/-! ## Reading a node as a value -/

namespace FNode

open FUtilities

/-- Each child is counted. -/
theorem KeyCount.numKeys_add (s : KeyCount) (key : NSString) :
    (s.add F key).numKeys = s.numKeys + 1 := by
  simp only [KeyCount.add]
  split_ifs
  · rfl
  · rfl
  · split
    · split_ifs <;> rfl
    · rfl

/-- The keys are still integers after one more key only if it is one, without a leading zero. -/
theorem KeyCount.add_spec {s : KeyCount} {key : NSString}
    (h : (s.add F key).allIntegerKeys = true) :
    s.allIntegerKeys = true ∧ s.maxKey ≤ (s.add F key).maxKey ∧
      ∃ num, intForString F key = some num ∧ ¬ (key.head? = some 48 ∧ key.length > 1) ∧
        num ≤ (s.add F key).maxKey := by
  simp only [KeyCount.add] at h ⊢
  split_ifs at h ⊢ with hall hzero
  · simp_all
  · have hs : s.allIntegerKeys = true := by simpa using hall
    cases hnum : intForString F key with
    | none => simp [hnum] at h
    | some num =>
      simp only
      split_ifs with hmax
      · exact ⟨hs, by simpa using hmax.le, num, rfl, hzero, le_rfl⟩
      · exact ⟨hs, le_rfl, num, rfl, hzero, by simpa using hmax⟩

/-- What the loop has found out about the keys: their number, and the largest one if all are
integers. -/
theorem KeyCount.foldl_spec (keys : List NSString) (s : KeyCount) :
    (keys.foldl (KeyCount.add F) s).numKeys = s.numKeys + keys.length ∧
    ((keys.foldl (KeyCount.add F) s).allIntegerKeys = true →
      s.allIntegerKeys = true ∧ s.maxKey ≤ (keys.foldl (KeyCount.add F) s).maxKey ∧
      ∀ key ∈ keys, ∃ num, intForString F key = some num ∧
        ¬ (key.head? = some 48 ∧ key.length > 1) ∧
        num ≤ (keys.foldl (KeyCount.add F) s).maxKey) := by
  induction keys generalizing s with
  | nil => exact ⟨rfl, fun h => ⟨h, le_rfl, by simp⟩⟩
  | cons key keys ih =>
    rw [List.foldl_cons]
    obtain ⟨hnum, hint⟩ := ih (s.add F key)
    refine ⟨?_, fun h => ?_⟩
    · rw [hnum, KeyCount.numKeys_add, List.length_cons]
      omega
    · obtain ⟨hadd, hle, hkeys⟩ := hint h
      obtain ⟨hs, hle', num, hnum, hzero, hmax⟩ := KeyCount.add_spec hadd
      refine ⟨hs, hle'.trans hle, List.forall_mem_cons.mpr ⟨?_, hkeys⟩⟩
      exact ⟨num, hnum, hzero, hmax.trans hle⟩

/-- A key that is read as a number without leading zeros is that number, printed. -/
theorem eq_ofNat_of_intForString {key : FKey} {num : ℕ} (hkey : F.PlainKey key)
    (h : intForString F key.text = some num)
    (hzero : ¬ (key.text.head? = some 48 ∧ key.text.length > 1)) (hnum : num < 2 ^ 63 - 1) :
    key = FKey.ofNat num := by
  unfold intForString at h
  split_ifs at h with hne
  cases hn : parseDigits key.text 0 with
  | none =>
    rw [hn] at h
    rw [hkey.2 hn] at h
    cases h
  | some n =>
    rw [hn] at h
    have hmin := Option.some.inj h
    obtain rfl : n = num := by omega
    exact FKey.text_injective (ofNat_of_parseDigits hne hzero hn)

end FNode

/-- A JSON value that can be stored: with at most `n` levels, valid leaves, valid and plain keys,
and at most `b` entries in an object. -/
inductive StorableTree {V : Type} (F : Foundation V) (b : ℕ) : ℕ → JsonTree FKey V → Prop
  | leaf (n : ℕ) {value : V} (valid : F.StorableLeaf value) : StorableTree F b n (.leaf value)
  | object {n : ℕ} {es : List (FKey × JsonTree FKey V)}
      (valid : ∀ e ∈ es, FValidation.isValidKey e.1.text = true) (plain : ∀ e ∈ es, F.PlainKey e.1)
      (small : es.length ≤ b) (sub : ∀ e ∈ es, StorableTree F b n e.2) :
      StorableTree F b (n + 1) (.object es)

namespace NSObject

variable {V : Type} {F : Foundation V}

/-- Plain entries, one by one. -/
theorem plainEntries_iff {b : ℕ} {entries : List (FKey × NSObject V)} :
    PlainEntries F b entries ↔ ∀ e ∈ entries, F.PlainKey e.1 ∧ e.2.Plain F b := by
  induction entries with
  | nil => simp [PlainEntries]
  | cons entry entries ih =>
    rw [List.forall_mem_cons, ← ih, PlainEntries]
    simp only [and_assoc]

/-- Plain objects, one by one. -/
theorem plainObjects_iff {b : ℕ} {objects : List (NSObject V)} :
    PlainObjects F b objects ↔ ∀ o ∈ objects, o.Plain F b := by
  induction objects with
  | nil => simp [PlainObjects]
  | cons object objects ih => rw [List.forall_mem_cons, ← ih, PlainObjects]

/-- Storable entries, one by one. -/
theorem storableEntries_iff {n : ℕ} {entries : List (FKey × NSObject V)} :
    StorableEntries F n entries ↔ ∀ e ∈ entries, 0 < n ∧
      FValidation.isValidKey e.1.text = true ∧ e.2.Storable F (n - 1) := by
  induction entries with
  | nil => simp [StorableEntries]
  | cons entry entries ih =>
    rw [List.forall_mem_cons, ← ih, StorableEntries]
    simp only [and_assoc]

/-- Storable objects, one by one. -/
theorem storableObjects_iff {n : ℕ} {objects : List (NSObject V)} :
    StorableObjects F n objects ↔ ∀ o ∈ objects, 0 < n ∧ o.Storable F (n - 1) := by
  induction objects with
  | nil => simp [StorableObjects]
  | cons object objects ih =>
    rw [List.forall_mem_cons, ← ih, StorableObjects]
    simp only [and_assoc]

/-- A printed index is a valid key. -/
theorem isValidKey_ofNat (i : ℕ) : FValidation.isValidKey (FKey.ofNat i).text = true := by
  refine (FValidation.isValidKey_iff _).mpr ⟨?_, fun c hc hbad => ?_⟩
  · show NSString.ofNat i ≠ []
    intro hnil
    unfold NSString.ofNat at hnil
    split_ifs at hnil with hi
    rw [List.map_eq_nil_iff, List.reverse_eq_nil_iff, Nat.digits_eq_nil_iff_eq_zero] at hnil
    exact hi hnil
  · have := NSString.digit_of_mem_ofNat hc
    simp only [FValidation.kInvalidKeyCharacters, List.mem_cons, List.not_mem_nil, or_false] at hbad
    omega

/-- A printed index is a plain key. -/
theorem plainKey_ofNat (i : ℕ) : F.PlainKey (FKey.ofNat i) := by
  refine ⟨fun hhead => ?_, fun hnone => ?_⟩
  · have := NSString.digit_of_mem_ofNat (List.mem_of_mem_head? hhead)
    omega
  · have hsome : FUtilities.parseDigits (FKey.ofNat i).text 0 = some i :=
      FUtilities.parseDigits_ofNat i
    rw [hsome] at hnone
    cases hnone

/-- The object of entries that can be stored can. -/
theorem storableTree_ofUnsorted {b n : ℕ} {es : List (FKey × JsonTree FKey V)}
    (h : ∀ e ∈ es, (0 < n ∧ FValidation.isValidKey e.1.text = true) ∧ F.PlainKey e.1 ∧
      StorableTree F b (n - 1) e.2)
    (hlen : es.length ≤ b) : ∀ t ∈ ofUnsorted es, StorableTree F b n t := by
  intro t ht
  have hperm : (es.mergeSort fun a b => decide (a.1 ≤ b.1)).Perm es := List.mergeSort_perm _ _
  unfold ofUnsorted JsonTree.ofEntries at ht
  split_ifs at ht with hempty
  · cases ht
  · obtain rfl := Option.mem_some_iff.mp ht
    have hne : es ≠ [] := by
      rintro rfl
      simp at hempty
    obtain ⟨e, es', rfl⟩ := List.exists_cons_of_ne_nil hne
    obtain ⟨m, rfl⟩ : ∃ m, n = m + 1 := ⟨n - 1, by have := (h e List.mem_cons_self).1.1; omega⟩
    refine .object (fun e he => ?_) (fun e he => ?_) ?_ fun e he => ?_
    · exact (h e (hperm.mem_iff.mp he)).1.2
    · exact (h e (hperm.mem_iff.mp he)).2.1
    · rw [hperm.length_eq]
      exact hlen
    · exact (h e (hperm.mem_iff.mp he)).2.2

mutual

/-- What a value stands for can be stored if the value can. -/
theorem Storable.tree {b n : ℕ} (value : NSObject V) (hplain : value.Plain F b)
    (h : value.Storable F n) : ∀ t ∈ value.tree, StorableTree F b n t := by
  cases value with
  | null => simp [NSObject.tree]
  | leaf value =>
    intro t ht
    obtain rfl : JsonTree.leaf value = t := Option.some.inj ht
    exact .leaf n h
  | dictionary entries =>
    refine storableTree_ofUnsorted (StorableEntries.treeEntries entries hplain.2.2 h) ?_
    exact (length_treeEntries_le entries).trans hplain.2.1
  | array objects =>
    refine storableTree_ofUnsorted (StorableObjects.treeObjects 0 objects hplain.2 h) ?_
    exact (length_treeObjects_le 0 objects).trans hplain.1

/-- What is stored of a storable dictionary is storable. -/
theorem StorableEntries.treeEntries {b n : ℕ} (entries : List (FKey × NSObject V))
    (hplain : PlainEntries F b entries) (h : StorableEntries F n entries) :
    ∀ e ∈ NSObject.treeEntries entries, (0 < n ∧ FValidation.isValidKey e.1.text = true) ∧
      F.PlainKey e.1 ∧ StorableTree F b (n - 1) e.2 := by
  cases entries with
  | nil => simp [NSObject.treeEntries]
  | cons entry entries =>
    obtain ⟨key, value⟩ := entry
    obtain ⟨hn, hkey, hvalue, hrest⟩ := h
    intro e he
    rw [NSObject.treeEntries, List.mem_append] at he
    rcases he with he | he
    · obtain ⟨t, ht, rfl⟩ := List.mem_map.mp he
      exact ⟨⟨hn, hkey⟩, hplain.1,
        Storable.tree value hplain.2.1 hvalue t (Option.mem_toList.mp ht)⟩
    · exact StorableEntries.treeEntries entries hplain.2.2 hrest e he

/-- What is stored of a storable array is storable. -/
theorem StorableObjects.treeObjects {b n : ℕ} (i : ℕ) (objects : List (NSObject V))
    (hplain : PlainObjects F b objects) (h : StorableObjects F n objects) :
    ∀ e ∈ NSObject.treeObjects i objects, (0 < n ∧ FValidation.isValidKey e.1.text = true) ∧
      F.PlainKey e.1 ∧ StorableTree F b (n - 1) e.2 := by
  cases objects with
  | nil => simp [NSObject.treeObjects]
  | cons value objects =>
    obtain ⟨hn, hvalue, hrest⟩ := h
    intro e he
    rw [NSObject.treeObjects, List.mem_append] at he
    rcases he with he | he
    · obtain ⟨t, ht, rfl⟩ := List.mem_map.mp he
      exact ⟨⟨hn, isValidKey_ofNat i⟩, plainKey_ofNat i,
        Storable.tree value hplain.1 hvalue t (Option.mem_toList.mp ht)⟩
    · exact StorableObjects.treeObjects (i + 1) objects hplain.2 hrest e he

end

/-- The entries of a dictionary whose values all stand for something. -/
theorem treeEntries_eq_map {entries : List (FKey × NSObject V)} {f : FKey → JsonTree FKey V}
    (h : ∀ e ∈ entries, e.2.tree = some (f e.1)) :
    treeEntries entries = entries.map fun e => (e.1, f e.1) := by
  induction entries with
  | nil => rfl
  | cons entry entries ih =>
    obtain ⟨hhead, htail⟩ := List.forall_mem_cons.mp h
    obtain ⟨key, value⟩ := entry
    rw [treeEntries, hhead, ih htail]
    rfl

end NSObject

namespace FNode

open NSObject

variable {V : Type} {enumeration : List (FKey × NSObject V) → List (FKey × NSObject V)}

/-- The value given as an array. -/
theorem array_spec {F : Foundation V} {b n : ℕ} {nodes : List (FKey × NSObject V)}
    (hsorted : Entries.Sorted nodes) {tree : FKey → JsonTree FKey V}
    (htree : ∀ e ∈ nodes, e.2.tree = some (tree e.1))
    (hsub : ∀ e ∈ nodes, 0 < n ∧ e.2.Plain F b ∧ e.2.Storable F (n - 1)) (hne : nodes ≠ [])
    {maxKey : ℕ} (hkeys : ∀ e ∈ nodes, ∃ num ≤ maxKey, e.1 = FKey.ofNat num)
    (hmax : maxKey + 1 ≤ b) {objects : List (NSObject V)}
    (hobjects : objects = (List.range (maxKey + 1)).map fun i =>
      (Entries.find (FKey.ofNat i) nodes).getD .null) :
    (NSObject.array objects).Plain F b ∧ (NSObject.array objects).Storable F n ∧
      (NSObject.array objects).tree = JsonTree.ofEntries (nodes.map fun e => (e.1, tree e.1)) := by
  subst hobjects
  have hsortedTree : Entries.Sorted (nodes.map fun e => (e.1, tree e.1)) := by
    rw [Entries.Sorted, List.map_map]
    exact hsorted
  have hn : 0 < n := by
    obtain ⟨e, nodes', rfl⟩ := List.exists_cons_of_ne_nil hne
    exact (hsub e List.mem_cons_self).1
  have hobject : ∀ o ∈ (List.range (maxKey + 1)).map fun i =>
      (Entries.find (FKey.ofNat i) nodes).getD .null, o.Plain F b ∧ o.Storable F (n - 1) := by
    intro o ho
    obtain ⟨i, -, rfl⟩ := List.mem_map.mp ho
    cases hfind : Entries.find (FKey.ofNat i) nodes with
    | none => exact ⟨trivial, trivial⟩
    | some value => exact (hsub _ ((Entries.find_eq_some_iff hsorted).mp hfind)).2
  refine ⟨⟨by simpa using hmax, plainObjects_iff.mpr fun o ho => (hobject o ho).1⟩,
    storableObjects_iff.mpr fun o ho => ⟨hn, (hobject o ho).2⟩, ?_⟩
  refine ofUnsorted_eq hsortedTree ?_
  -- both lists have the same entries, each key once
  refine (List.perm_ext_iff_of_nodup ?_ ?_).mpr fun e => ?_
  · exact List.Nodup.of_map Prod.fst (hsortedTree.imp fun h => h.ne)
  · exact List.Nodup.of_map Prod.fst (nodup_keys_treeObjects 0 _)
  · rw [mem_treeObjects, List.mem_map]
    constructor
    · rintro ⟨e', he', rfl⟩
      obtain ⟨num, hnum, hkey⟩ := hkeys e' he'
      refine ⟨num, e'.2, ?_, htree e' he', by rw [zero_add]; exact hkey⟩
      have hfind := (Entries.find_eq_some_iff hsorted).mpr he'
      rw [hkey] at hfind
      rw [List.getElem?_map, List.getElem?_range (by omega), Option.map_some, hfind,
        Option.getD_some]
    · rintro ⟨j, value, hj, hvalue, hkey⟩
      rw [zero_add] at hkey
      rw [List.getElem?_map] at hj
      obtain ⟨i, hi, rfl⟩ := Option.map_eq_some_iff.mp hj
      obtain ⟨hlt, hij⟩ := List.getElem?_eq_some_iff.mp hi
      rw [List.getElem_range] at hij
      subst hij
      cases hfind : Entries.find (FKey.ofNat j) nodes with
      | none =>
        rw [hfind] at hvalue
        cases hvalue
      | some x =>
        rw [hfind, Option.getD_some] at hvalue
        have hmem := (Entries.find_eq_some_iff hsorted).mp hfind
        refine ⟨_, hmem, ?_⟩
        have heq := Option.some.inj ((htree _ hmem).symm.trans hvalue)
        exact Prod.ext hkey.symm heq

/-- The value given as a dictionary. -/
theorem dictionary_spec {F : Foundation V} (henumeration : ∀ obj, (enumeration obj).Perm obj)
    {b n : ℕ} {nodes : List (FKey × NSObject V)} (hsorted : Entries.Sorted nodes)
    {tree : FKey → JsonTree FKey V} (htree : ∀ e ∈ nodes, e.2.tree = some (tree e.1))
    (hplain : ∀ e ∈ nodes, F.PlainKey e.1 ∧ e.2.Plain F b)
    (hstorable : ∀ e ∈ nodes, 0 < n ∧ FValidation.isValidKey e.1.text = true ∧
      e.2.Storable F (n - 1))
    (hlen : nodes.length ≤ b) :
    (NSObject.dictionary (enumeration nodes)).Plain F b ∧
      (NSObject.dictionary (enumeration nodes)).Storable F n ∧
      (NSObject.dictionary (enumeration nodes)).tree =
        JsonTree.ofEntries (nodes.map fun e => (e.1, tree e.1)) := by
  have hperm := henumeration nodes
  refine ⟨⟨(hperm.map Prod.fst).nodup_iff.mpr (hsorted.imp fun h => h.ne), ?_,
    plainEntries_iff.mpr fun e he => hplain e (hperm.mem_iff.mp he)⟩,
    storableEntries_iff.mpr fun e he => hstorable e (hperm.mem_iff.mp he), ?_⟩
  · rw [hperm.length_eq]
    exact hlen
  · refine ofUnsorted_eq ?_ ?_
    · rw [Entries.Sorted, List.map_map]
      exact hsorted
    · rw [treeEntries_eq_map fun e he => htree e (hperm.mem_iff.mp he)]
      exact (hperm.map _).symm

/-- The two shapes in which children are exported: an array if the keys are dense, a dictionary
otherwise. -/
theorem valForExport_children {exp : Bool} {d : FImmutableSortedDictionary FKey (FNode FKey V)}
    {nodes : List (FKey × FNode FKey V)} (hd : d.Represents nodes) (hne : nodes ≠ [])
    {obj : List (FKey × NSObject V)}
    (hobj : obj = nodes.map fun e => (e.1, valForExport F enumeration exp e.2)) {s : KeyCount}
    (hs : s = (obj.map fun e => e.1.text).foldl (KeyCount.add F) {}) :
    valForExport F enumeration exp (.children d) =
      if !exp && s.allIntegerKeys && decide (s.maxKey < 2 * s.numKeys) then
        .array ((List.range (s.maxKey + 1)).map fun i =>
          (Entries.find (FKey.ofNat i) obj).getD .null)
      else .dictionary (enumeration obj) := by
  have hattach : (d.enumerateKeysAndObjects.attach.map fun e =>
      (e.1.1, valForExport F enumeration exp e.1.2)) = obj := by
    rw [hobj, ← hd.enumerate]
    exact List.attach_map_val (f := fun e : FKey × FNode FKey V =>
      (e.1, valForExport F enumeration exp e.2))
  have hempty : d.isEmpty = false := by
    rw [hd.isEmpty]
    simpa using hne
  rw [valForExport, if_neg (by simp [hempty]), hattach]
  simp only [← hs]

/-- The value that a node is read as stands for the JSON value of the node, for reading and for
exporting, and in whatever order the dictionaries are enumerated. -/
theorem Represents.valForExport (henumeration : ∀ obj, (enumeration obj).Perm obj) (exp : Bool)
    {b : ℕ} (hb : b < 2 ^ 30) {node : FNode FKey V} {t : Option (JsonTree FKey V)}
    (h : node.Represents t) {n : ℕ} (ht : ∀ t' ∈ t, StorableTree F b n t') :
    (node.valForExport F enumeration exp).Plain F (2 * b) ∧
      (node.valForExport F enumeration exp).Storable F n ∧
      (node.valForExport F enumeration exp).tree = t := by
  induction h generalizing n with
  | leaf value =>
    rw [FNode.valForExport]
    cases ht _ rfl with
    | leaf _ valid => exact ⟨trivial, valid, rfl⟩
  | @children d nodes dictionary tree sub ih =>
    rcases eq_or_ne nodes [] with rfl | hne
    · have hempty : d.isEmpty = true := dictionary.isEmpty
      rw [FNode.valForExport, if_pos hempty]
      exact ⟨trivial, trivial, rfl⟩
    have hobject : JsonTree.ofEntries (nodes.map fun e => (e.1, tree e.1)) =
        some (.object (nodes.map fun e => (e.1, tree e.1))) := by
      rw [JsonTree.ofEntries, if_neg (by simpa using hne)]
    cases ht _ hobject with
    | @object m es valid plain small hlevels =>
      rw [List.length_map] at small
      obtain ⟨obj, hobj⟩ : ∃ obj, obj = nodes.map fun e =>
        (e.1, FNode.valForExport F enumeration exp e.2) := ⟨_, rfl⟩
      obtain ⟨s, hs⟩ : ∃ s, s = (obj.map fun e => e.1.text).foldl (KeyCount.add F) {} := ⟨_, rfl⟩
      have hsorted : Entries.Sorted obj := by
        rw [hobj, Entries.Sorted, List.map_map]
        exact dictionary.sorted
      -- each child is read as a value that stands for the child
      have hchild : ∀ e ∈ obj, (FValidation.isValidKey e.1.text = true ∧ F.PlainKey e.1) ∧
          e.2.Plain F (2 * b) ∧ e.2.Storable F m ∧ e.2.tree = some (tree e.1) := by
        intro e he
        rw [hobj] at he
        obtain ⟨e', he', rfl⟩ := List.mem_map.mp he
        have hmem : (e'.1, tree e'.1) ∈ nodes.map fun e => (e.1, tree e.1) :=
          List.mem_map.mpr ⟨e', he', rfl⟩
        refine ⟨⟨valid _ hmem, plain _ hmem⟩, ih e' he' fun t' ht' => ?_⟩
        obtain rfl := Option.mem_some_iff.mp ht'
        exact hlevels _ hmem
      have hmap : (nodes.map fun e => (e.1, tree e.1)) = obj.map fun e => (e.1, tree e.1) := by
        rw [hobj, List.map_map]
        rfl
      have hlen : obj.length = nodes.length := by rw [hobj, List.length_map]
      rw [valForExport_children dictionary hne hobj hs, hmap]
      split_ifs with harray
      · simp only [Bool.and_eq_true, decide_eq_true_eq] at harray
        obtain ⟨hnum, hint⟩ := KeyCount.foldl_spec (obj.map fun e => e.1.text) {}
        rw [← hs] at hnum hint
        rw [List.length_map] at hnum
        have hmax : s.maxKey < 2 * obj.length := by
          have := harray.2
          simp only at hnum
          omega
        refine array_spec hsorted (fun e he => (hchild e he).2.2.2)
          (fun e he => ⟨Nat.succ_pos m, (hchild e he).2.1, (hchild e he).2.2.1⟩) ?_ ?_ ?_ rfl
        · simpa [hobj] using hne
        · intro e he
          obtain ⟨num, hnum, hzero, hle⟩ :=
            (hint harray.1.2).2.2 e.1.text (List.mem_map.mpr ⟨e, he, rfl⟩)
          exact ⟨num, hle, eq_ofNat_of_intForString (hchild e he).1.2 hnum hzero (by omega)⟩
        · omega
      · refine dictionary_spec henumeration hsorted (fun e he => (hchild e he).2.2.2) ?_ ?_ ?_
        · exact fun e he => ⟨(hchild e he).1.2, (hchild e he).2.1⟩
        · exact fun e he => ⟨Nat.succ_pos m, (hchild e he).1.1, (hchild e he).2.2.1⟩
        · omega

end FNode

namespace FSnapshotUtilities

variable {V : Type}

/-- A value makes a node exactly if it passes the validation; the node is read back, as a snapshot
or as an export, as a value that stands for the same JSON value; and whatever is read from a node,
also after updates of it, makes an equal node again. -/
theorem stored_reads_back [DecidableEq V] (F : Foundation V)
    (enumeration : List (FKey × NSObject V) → List (FKey × NSObject V))
    (henumeration : ∀ obj, (enumeration obj).Perm obj) (b : ℕ) (hb : b < 2 ^ 30) (fn : String) :
    (∀ value : NSObject V, value.Plain F b →
      ((∃ node, nodeFrom F value fn = .ok node) ↔ value.Storable F 1000) ∧
      ∀ node, nodeFrom F value fn = .ok node → node.Represents value.tree ∧
        ∀ exp, (node.valForExport F enumeration exp).tree = value.tree) ∧
    ∀ (node : FNode FKey V) (j : Json FKey V), node.Represents j.root →
      (∀ t ∈ j.root, StorableTree F b 1000 t) →
      ∀ exp, ∃ node', nodeFrom F (node.valForExport F enumeration exp) fn = .ok node' ∧
        node'.isEqual node = true := by
  constructor
  · intro value hplain
    rcases nodeFrom_cases (by omega) fn hplain with ⟨hstorable, node, hnode, hrep⟩ | ⟨hnot, e, he⟩
    · refine ⟨iff_of_true ⟨node, hnode⟩ hstorable, fun node' hnode' => ?_⟩
      obtain rfl := Except.ok.inj (hnode.symm.trans hnode')
      refine ⟨hrep, fun exp => ?_⟩
      exact (hrep.valForExport henumeration exp hb (hstorable.tree value hplain)).2.2
    · refine ⟨iff_of_false ?_ hnot, fun node hnode => ?_⟩
      · rintro ⟨node, hnode⟩
        rw [he] at hnode
        cases hnode
      · rw [he] at hnode
        cases hnode
  · intro node j hrep hj exp
    obtain ⟨hplain, hstorable, htree⟩ := hrep.valForExport henumeration exp hb hj
    rcases nodeFrom_cases (show 2 * b + 1 < 2 ^ 32 by omega) fn hplain with
      ⟨-, node', hnode', hrep'⟩ | ⟨hnot, -⟩
    · refine ⟨node', hnode', ?_⟩
      rw [htree] at hrep'
      exact (hrep'.isEqual_iff hrep).1.mpr rfl
    · exact absurd hstorable hnot

/-- Leaves are numbers. -/
def sampleFoundation : Foundation ℕ := ⟨fun _ => .number false, fun _ => none⟩

/-- The value of `a`: an array with a null in it. -/
def sampleObject : NSObject ℕ :=
  .dictionary [(⟨[97], fun n _ _ h => by simp [FUtilities.minusZero] at h⟩,
    .array [.leaf 1, .null, .leaf 2])]

/-- The sample has plain keys and few entries. -/
theorem plain_sampleObject : sampleObject.Plain sampleFoundation 3 := by
  refine ⟨by simp, by simp, ⟨by decide, fun _ => rfl⟩, ⟨by simp, ?_⟩, trivial⟩
  exact ⟨trivial, trivial, trivial, trivial⟩

/-- The sample is storable. -/
theorem storable_sampleObject : sampleObject.Storable sampleFoundation 1000 := by
  refine ⟨by decide, by decide, ?_, trivial⟩
  exact ⟨by decide, rfl, by decide, trivial, by decide, rfl, trivial⟩

/-- The round trip at the sample. -/
theorem stored_reads_back_sampleObject :
    ∃ node node', nodeFrom sampleFoundation sampleObject "setValue:" = .ok node ∧
      nodeFrom sampleFoundation (node.valForExport sampleFoundation id false) "setValue:" =
        .ok node' ∧
      node'.isEqual node = true := by
  have h := stored_reads_back sampleFoundation id (fun obj => List.Perm.refl obj) 3 (by omega)
    "setValue:"
  obtain ⟨hiff, hread⟩ := h.1 sampleObject plain_sampleObject
  obtain ⟨node, hnode⟩ := hiff.mpr storable_sampleObject
  obtain ⟨hrep, -⟩ := hread node hnode
  obtain ⟨node', hnode', hequal⟩ := h.2 node ⟨sampleObject.tree, hrep.canonical⟩ hrep
    (storable_sampleObject.tree sampleObject plain_sampleObject) false
  exact ⟨node, node', hnode, hnode', hequal⟩

end FSnapshotUtilities

end TifaSoccer
