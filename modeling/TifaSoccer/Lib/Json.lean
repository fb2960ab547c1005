import Mathlib.Data.List.Sort
import Mathlib.Data.String.Basic

/-!
# Canonical JSON values

The values a tree-shaped key-value store keeps: null, a leaf, or an object. The store never
keeps an empty object, and it enumerates the children of an object in key order. Both facts
are part of the type `Json`, so two stores with the same contents are equal and the number of
children of an object is the length of its entry list.

* `Entries.put` / `Entries.drop` are the two updates of an entry list in key order;
* `JsonTree` is the raw tree and `JsonTree.Canonical` says that no object in it is empty or
  out of order;
* `Json.child`, `Json.setChild` read and write one child, `Json.get`, `Json.set` go down a
  path. A write creates the missing ancestors and a removal drops the ancestors it empties;
* `Json.set_undo` takes a write back, where no leaf had stood in its way.
-/

universe u v

/-! ## Entry lists in key order -/

namespace Entries

variable {K : Type u} {β : Type v} [LinearOrder K]

/-- The entry at key `k`. -/
def find (k : K) : List (K × β) → Option β
  | [] => none
  | (k', b) :: es => if k = k' then some b else find k es

/-- Put `b` at key `k`, replacing what is there. -/
def put (k : K) (b : β) : List (K × β) → List (K × β)
  | [] => [(k, b)]
  | (k', b') :: es =>
    if k = k' then (k, b) :: es
    else if k < k' then (k, b) :: (k', b') :: es
    else (k', b') :: put k b es

/-- Drop the entry at key `k`. -/
def drop (k : K) (es : List (K × β)) : List (K × β) :=
  es.filter fun e => decide (e.1 ≠ k)

/-- The keys are strictly increasing. -/
def Sorted (es : List (K × β)) : Prop :=
  (es.map Prod.fst).Pairwise (· < ·)

/-- Reading after putting. -/
theorem find_put (k k' : K) (b : β) (es : List (K × β)) :
    find k' (put k b es) = if k' = k then some b else find k' es := by
  induction es with
  | nil => simp only [put, find]
  | cons e es ih =>
    obtain ⟨k₁, b₁⟩ := e
    simp only [put]
    by_cases hk : k = k₁
    · subst hk
      rw [if_pos rfl, find, find]
      split_ifs <;> rfl
    · rw [if_neg hk]
      by_cases hlt : k < k₁
      · rw [if_pos hlt, find]
      · rw [if_neg hlt, find, find, ih]
        -- the two guards `k' = k` and `k' = k₁` exclude each other
        by_cases hk' : k' = k
        · subst hk'; rw [if_neg hk]; simp
        · rw [if_neg hk', if_neg hk']

/-- Reading after dropping. -/
theorem find_drop (k k' : K) (es : List (K × β)) :
    find k' (drop k es) = if k' = k then none else find k' es := by
  induction es with
  | nil => simp [drop, find]
  | cons e es ih =>
    obtain ⟨k₁, b₁⟩ := e
    simp only [drop] at ih ⊢
    by_cases hk : k₁ = k
    · subst hk
      rw [List.filter_cons_of_neg (by simp), ih, find]
      split_ifs <;> rfl
    · rw [List.filter_cons_of_pos (by simpa using hk), find, find, ih]
      by_cases hk' : k' = k
      · subst hk'; rw [if_neg (fun h => hk h.symm)]; simp
      · rw [if_neg hk', if_neg hk']

/-- An entry after putting is the new one or an old one. -/
theorem mem_put {k : K} {b : β} {es : List (K × β)} {e : K × β} (h : e ∈ put k b es) :
    e = (k, b) ∨ e ∈ es := by
  induction es with
  | nil => simpa [put] using h
  | cons e' es ih =>
    simp only [put] at h
    split_ifs at h
    · rcases List.mem_cons.mp h with h | h
      · exact .inl h
      · exact .inr (List.mem_cons_of_mem _ h)
    · exact List.mem_cons.mp h
    · rcases List.mem_cons.mp h with h | h
      · exact .inr (h ▸ List.mem_cons_self)
      · exact (ih h).imp_right (List.mem_cons_of_mem _)

/-- There is an entry after putting. -/
theorem put_ne_nil (k : K) (b : β) (es : List (K × β)) : put k b es ≠ [] := by
  cases es with
  | nil => simp [put]
  | cons e es => simp only [put]; split_ifs <;> simp

/-- Putting keeps the order of the keys. -/
theorem sorted_put {es : List (K × β)} (h : Sorted es) (k : K) (b : β) : Sorted (put k b es) := by
  induction es with
  | nil => simp [Sorted, put]
  | cons e es ih =>
    obtain ⟨k', b'⟩ := e
    have hhead : ∀ x ∈ es.map Prod.fst, k' < x := (List.pairwise_cons.mp h).1
    have htail : Sorted es := (List.pairwise_cons.mp h).2
    simp only [put]
    split_ifs with hk hlt
    · subst hk; exact h
    · refine List.pairwise_cons.mpr ⟨?_, h⟩
      intro x hx
      rcases List.mem_cons.mp hx with rfl | hx
      · exact hlt
      · exact hlt.trans (hhead x hx)
    · refine List.pairwise_cons.mpr ⟨?_, ih htail⟩
      intro x hx
      obtain ⟨e, he, rfl⟩ := List.mem_map.mp hx
      rcases mem_put he with rfl | he
      · exact lt_of_le_of_ne (not_lt.mp hlt) (Ne.symm hk)
      · exact hhead _ (List.mem_map_of_mem he)

/-- Dropping keeps the order of the keys. -/
theorem sorted_drop {es : List (K × β)} (h : Sorted es) (k : K) : Sorted (drop k es) :=
  List.Pairwise.sublist (List.filter_sublist.map Prod.fst) h

/-- In a sorted list an entry is found under its own key. -/
theorem find_eq_some_iff {es : List (K × β)} (h : Sorted es) {k : K} {b : β} :
    find k es = some b ↔ (k, b) ∈ es := by
  induction es with
  | nil => simp [find]
  | cons e es ih =>
    obtain ⟨k', b'⟩ := e
    have hhead : ∀ x ∈ es.map Prod.fst, k' < x := (List.pairwise_cons.mp h).1
    have htail : Sorted es := (List.pairwise_cons.mp h).2
    by_cases hk : k = k'
    · subst hk
      simp only [find, if_true, List.mem_cons, Prod.mk.injEq, true_and, Option.some.injEq]
      constructor
      · exact fun h => .inl h.symm
      · rintro (h | h)
        · exact h.symm
        · exact absurd (hhead k (List.mem_map_of_mem h)) (lt_irrefl k)
    · rw [find, if_neg hk, ih htail]
      simp [hk]

/-- A put at a new key adds one entry, a put at a used key adds none. -/
theorem length_put {es : List (K × β)} (h : Sorted es) (k : K) (b : β) :
    (put k b es).length = if k ∈ es.map Prod.fst then es.length else es.length + 1 := by
  induction es with
  | nil => simp [put]
  | cons e es ih =>
    obtain ⟨k', b'⟩ := e
    have hhead : ∀ x ∈ es.map Prod.fst, k' < x := (List.pairwise_cons.mp h).1
    have htail : Sorted es := (List.pairwise_cons.mp h).2
    simp only [put]
    by_cases hk : k = k'
    · simp [hk]
    · rw [if_neg hk]
      by_cases hlt : k < k'
      · have hnot : k ∉ es.map Prod.fst := fun hmem => lt_asymm hlt (hhead k hmem)
        rw [if_pos hlt, if_neg]
        · rfl
        · simpa [hk] using hnot
      · rw [if_neg hlt, List.length_cons, ih htail]
        have hiff : k ∈ ((k', b') :: es).map Prod.fst ↔ k ∈ es.map Prod.fst := by simp [hk]
        simp only [hiff, List.length_cons]
        split_ifs <;> rfl

/-- A put at a new key adds its entry and keeps the others. -/
theorem put_perm {k : K} {es : List (K × β)} (h : k ∉ es.map Prod.fst) (b : β) :
    (put k b es).Perm ((k, b) :: es) := by
  induction es with
  | nil => exact .refl _
  | cons e es ih =>
    obtain ⟨k', b'⟩ := e
    rw [List.map_cons, List.mem_cons, not_or] at h
    simp only [put, if_neg h.1]
    split_ifs
    · exact .refl _
    · exact ((ih h.2).cons (k', b')).trans (.swap (k, b) (k', b') es)

/-- Dropping adds no entries. -/
theorem length_drop_le (k : K) (es : List (K × β)) : (drop k es).length ≤ es.length :=
  List.length_filter_le _ _

end Entries

/-! ## Raw trees -/

/-- A JSON tree with keys `K` and leaves `V`. -/
inductive JsonTree (K : Type u) (V : Type v) where
  | leaf (value : V)
  | object (entries : List (K × JsonTree K V))

namespace JsonTree

variable {K : Type u} {V : Type v}

/-- The entries of an object; a leaf and null have none. -/
def entries : Option (JsonTree K V) → List (K × JsonTree K V)
  | some (.object es) => es
  | _ => []

variable [LinearOrder K]

/-- Every object is non-empty and lists its children in key order. -/
inductive Canonical : JsonTree K V → Prop
  | leaf (value : V) : Canonical (.leaf value)
  | object (es : List (K × JsonTree K V)) (ne : es ≠ []) (sorted : Entries.Sorted es)
      (sub : ∀ e ∈ es, Canonical e.2) : Canonical (.object es)

/-- Replace one child. Removing the last child of an object removes the object; removing a
child of a leaf changes nothing; writing a child of a leaf replaces the leaf. -/
def setChild (t : Option (JsonTree K V)) (k : K) : Option (JsonTree K V) → Option (JsonTree K V)
  | some c => some (.object (Entries.put k c (entries t)))
  | none =>
    match t with
    | some (.object es) =>
      match Entries.drop k es with
      | [] => none
      | e :: es => some (.object (e :: es))
    | t => t

/-- The entries of a canonical tree are sorted. -/
theorem entries_sorted {t : Option (JsonTree K V)} (h : ∀ t' ∈ t, Canonical t') :
    Entries.Sorted (entries t) := by
  match t, h with
  | none, _ => exact List.Pairwise.nil
  | some (.leaf _), _ => exact List.Pairwise.nil
  | some (.object es), h =>
    cases h _ rfl with
    | object _ _ sorted _ => exact sorted

/-- The children of a canonical tree are canonical. -/
theorem entries_sub {t : Option (JsonTree K V)} (h : ∀ t' ∈ t, Canonical t') :
    ∀ e ∈ entries t, Canonical e.2 := by
  match t, h with
  | none, _ => simp [entries]
  | some (.leaf _), _ => simp [entries]
  | some (.object es), h =>
    cases h _ rfl with
    | object _ _ _ sub => exact sub

/-- Writing a child puts an entry. -/
theorem entries_setChild_some (t : Option (JsonTree K V)) (k : K) (c : JsonTree K V) :
    entries (setChild t k (some c)) = Entries.put k c (entries t) := rfl

/-- Removing a child drops an entry. -/
theorem entries_setChild_none (t : Option (JsonTree K V)) (k : K) :
    entries (setChild t k none) = Entries.drop k (entries t) := by
  match t with
  | none => rfl
  | some (.leaf _) => rfl
  | some (.object es) =>
    simp only [setChild, entries]
    cases Entries.drop k es <;> rfl

/-- Writing a child keeps a tree canonical. -/
theorem canonical_setChild {t c : Option (JsonTree K V)} (k : K) (ht : ∀ t' ∈ t, Canonical t')
    (hc : ∀ t' ∈ c, Canonical t') : ∀ t' ∈ setChild t k c, Canonical t' := by
  have hs := entries_sorted ht
  have hsub := entries_sub ht
  cases c with
  | some c =>
    rintro t' ⟨⟩
    refine .object _ (Entries.put_ne_nil _ _ _) (Entries.sorted_put hs k c) fun e he => ?_
    rcases Entries.mem_put he with rfl | he
    · exact hc c rfl
    · exact hsub e he
  | none =>
    match t, ht, hs, hsub with
    | none, ht, _, _ => exact ht
    | some (.leaf _), ht, _, _ => exact ht
    | some (.object es), _, hs, hsub =>
      intro t' h
      simp only [setChild] at h
      split at h
      · cases h
      · rename_i e es' heq
        cases h
        have hsorted : Entries.Sorted (Entries.drop k es) := Entries.sorted_drop hs k
        rw [heq] at hsorted
        refine .object _ (by simp) hsorted fun e' he' => hsub e' ?_
        exact List.mem_of_mem_filter (heq ▸ he')

end JsonTree

/-! ## Canonical values -/

/-- A canonical JSON value; `root = none` is null. -/
@[ext] structure Json (K : Type u) (V : Type v) [LinearOrder K] where
  root : Option (JsonTree K V)
  canonical : ∀ t ∈ root, t.Canonical

namespace Json

variable {K : Type u} {V : Type v} [LinearOrder K]

def null : Json K V := ⟨none, by simp⟩

def leaf (v : V) : Json K V := ⟨some (.leaf v), by rintro t ⟨⟩; exact .leaf v⟩

def isNull (j : Json K V) : Bool := j.root.isNone

/-- The children of a value, in key order. -/
def entries (j : Json K V) : List (K × JsonTree K V) := JsonTree.entries j.root

def keys (j : Json K V) : List K := j.entries.map Prod.fst

def childrenCount (j : Json K V) : ℕ := j.entries.length

/-- The child at a key, null when there is none. -/
def child (j : Json K V) (k : K) : Json K V :=
  ⟨Entries.find k j.entries, fun _ h => JsonTree.entries_sub j.canonical _
    ((Entries.find_eq_some_iff (JsonTree.entries_sorted j.canonical)).mp h)⟩

def setChild (j : Json K V) (k : K) (v : Json K V) : Json K V :=
  ⟨JsonTree.setChild j.root k v.root, JsonTree.canonical_setChild k j.canonical v.canonical⟩

/-- The value at a path. -/
def get : Json K V → List K → Json K V
  | j, [] => j
  | j, k :: p => get (j.child k) p

/-- Write a value at a path; writing null removes what is there. -/
def set : Json K V → List K → Json K V → Json K V
  | _, [], v => v
  | j, k :: p, v => j.setChild k (set (j.child k) p v)

/-- The object with the given fields; a field that is null is not stored. -/
def object (fields : List (K × Json K V)) : Json K V :=
  fields.foldl (fun j f => j.setChild f.1 f.2) null

/-! ### Reading after a write -/

/-- A write at the empty path replaces the value. -/
@[simp] theorem set_nil (j v : Json K V) : j.set [] v = v := rfl

/-- A write below a child replaces the child. -/
@[simp] theorem set_cons (j v : Json K V) (k : K) (p : List K) :
    j.set (k :: p) v = j.setChild k ((j.child k).set p v) := rfl

/-- Nothing has no child. -/
@[simp] theorem child_null (k : K) : (null : Json K V).child k = null := rfl

/-- Reading a child after writing one: the written value at its key, the old child elsewhere. -/
@[simp] theorem child_setChild (j v : Json K V) (k k' : K) :
    (j.setChild k v).child k' = if k' = k then v else j.child k' := by
  have hroot : ((j.setChild k v).child k').root = if k' = k then v.root else (j.child k').root := by
    obtain ⟨vr, hv⟩ := v
    simp only [child, entries, setChild]
    cases vr with
    | none => rw [JsonTree.entries_setChild_none, Entries.find_drop]
    | some c => rw [JsonTree.entries_setChild_some, Entries.find_put]
  split_ifs with hk
  · exact Json.ext (by rw [hroot, if_pos hk])
  · exact Json.ext (by rw [hroot, if_neg hk])

/-- `isNull` decides whether there is a value. -/
theorem isNull_iff {j : Json K V} : j.isNull = true ↔ j = null := by
  rw [isNull, Option.isNone_iff_eq_none]
  constructor
  · intro h; exact Json.ext h
  · intro h; rw [h]; rfl

/-- Removing a child of nothing leaves nothing. -/
@[simp] theorem setChild_null_null (k : K) : (null : Json K V).setChild k null = null := rfl

/-- The entries are the children with a value. -/
theorem mem_entries_iff {j : Json K V} {k : K} {t : JsonTree K V} :
    (k, t) ∈ j.entries ↔ (j.child k).root = some t :=
  (Entries.find_eq_some_iff (JsonTree.entries_sorted j.canonical)).symm

/-- The keys are those of the children with a value. -/
theorem mem_keys_iff {j : Json K V} {k : K} : k ∈ j.keys ↔ j.child k ≠ null := by
  rw [Ne, ← isNull_iff, isNull, Option.isNone_iff_eq_none, ← Ne, Option.ne_none_iff_exists']
  simp only [keys, List.mem_map, Prod.exists, exists_and_right, exists_eq_right]
  exact exists_congr fun t => mem_entries_iff

/-- No key occurs twice. -/
theorem keys_nodup (j : Json K V) : j.keys.Nodup :=
  (JsonTree.entries_sorted j.canonical).imp ne_of_lt

/-- Writing a new child adds its entry and keeps the others. -/
theorem entries_setChild_perm {j v : Json K V} {k : K} (h : k ∉ j.keys) {t : JsonTree K V}
    (ht : v.root = some t) : (j.setChild k v).entries.Perm ((k, t) :: j.entries) := by
  have hentries : (j.setChild k v).entries = Entries.put k t j.entries := by
    show JsonTree.entries (JsonTree.setChild j.root k v.root) = _
    rw [ht]
    rfl
  rw [hentries]
  exact Entries.put_perm h t

/-! ### Counting children -/

/-- Removing a child adds none. -/
theorem childrenCount_setChild_null_le (j : Json K V) (k : K) :
    (j.setChild k null).childrenCount ≤ j.childrenCount := by
  simp only [childrenCount, entries, setChild, null, JsonTree.entries_setChild_none]
  exact Entries.length_drop_le _ _

/-- Writing a child adds one child, unless its key is already there or the value is null. -/
theorem childrenCount_setChild {j v : Json K V} {k : K} (hv : v ≠ null) :
    (j.setChild k v).childrenCount =
      if k ∈ j.keys then j.childrenCount else j.childrenCount + 1 := by
  obtain ⟨vr, hvr⟩ := v
  cases vr with
  | none => exact absurd (Json.ext rfl) hv
  | some c => exact Entries.length_put (JsonTree.entries_sorted j.canonical) k c

/-- A write of a child adds at most one child. -/
theorem childrenCount_setChild_le (j v : Json K V) (k : K) :
    (j.setChild k v).childrenCount ≤ j.childrenCount + 1 := by
  by_cases hv : v = null
  · rw [hv]
    exact (childrenCount_setChild_null_le j k).trans (Nat.le_succ _)
  · rw [childrenCount_setChild hv]
    split_ifs <;> omega

/-! ### Many writes -/

/-- Two paths that part at some key. -/
def Diverge : List K → List K → Prop
  | k :: p, k' :: p' => k ≠ k' ∨ Diverge p p'
  | _, _ => False

/-- A write is read back. -/
theorem get_set_self (j v : Json K V) (p : List K) : (j.set p v).get p = v := by
  induction p generalizing j with
  | nil => rfl
  | cons k p ih =>
    rw [set_cons, get, child_setChild, if_pos rfl]
    exact ih _

/-- A write is not seen on a path that leaves its own. -/
theorem get_set_of_diverge (j v : Json K V) {p q : List K} (h : Diverge p q) :
    (j.set p v).get q = j.get q := by
  induction p generalizing j q with
  | nil => cases q <;> cases h
  | cons k p ih =>
    cases q with
    | nil => cases h
    | cons k' q =>
      rw [set_cons, get, get, child_setChild]
      split_ifs with hk
      · subst hk
        exact ih _ (h.resolve_left (absurd rfl))
      · rfl

/-- Write a list of values, each at its path. -/
def setAll (j : Json K V) (ws : List (List K × Json K V)) : Json K V :=
  ws.foldl (fun j w => j.set w.1 w.2) j

/-- Writes whose paths part from a path do not change what is there. -/
theorem get_setAll_of_diverge (j : Json K V) {ws : List (List K × Json K V)} {p : List K}
    (h : ∀ w ∈ ws, Diverge w.1 p) : (j.setAll ws).get p = j.get p := by
  induction ws generalizing j with
  | nil => rfl
  | cons w ws ih =>
    rw [setAll, List.foldl_cons]
    refine (ih _ fun w' hw' => h w' (List.mem_cons_of_mem _ hw')).trans ?_
    exact get_set_of_diverge j w.2 (h w (List.mem_cons_self ..))

/-- A value that is written, and that no other write touches, is there, in whatever order the
writes come. -/
theorem get_setAll_of_mem (j : Json K V) {ws : List (List K × Json K V)} {p : List K}
    {v : Json K V} (hmem : (p, v) ∈ ws) (h : ∀ w ∈ ws, w = (p, v) ∨ Diverge w.1 p) :
    (j.setAll ws).get p = v := by
  induction ws generalizing j with
  | nil => cases hmem
  | cons w ws ih =>
    have htail : ∀ w' ∈ ws, w' = (p, v) ∨ Diverge w'.1 p :=
      fun w' hw' => h w' (List.mem_cons_of_mem _ hw')
    rw [setAll, List.foldl_cons]
    by_cases hlater : (p, v) ∈ ws
    · exact ih _ hlater htail
    · -- this is the last write of it
      have hw : w = (p, v) := ((List.mem_cons.mp hmem).resolve_right hlater).symm
      have hrest : ∀ w' ∈ ws, Diverge w'.1 p := by
        intro w' hw'
        refine (htail w' hw').resolve_left ?_
        rintro rfl
        exact hlater hw'
      refine (get_setAll_of_diverge _ hrest).trans ?_
      rw [hw]
      exact get_set_self j v p

/-- An object has its fields. -/
theorem child_object {fields : List (K × Json K V)} (hnodup : (fields.map Prod.fst).Nodup) {k : K}
    {v : Json K V} (hmem : (k, v) ∈ fields) : (object fields).child k = v := by
  have hobject : object fields = null.setAll (fields.map fun f => ([f.1], f.2)) := by
    rw [setAll, List.foldl_map]
    rfl
  rw [hobject]
  refine get_setAll_of_mem null (p := [k]) (List.mem_map.mpr ⟨(k, v), hmem, rfl⟩) ?_
  intro w hw
  obtain ⟨f, hf, rfl⟩ := List.mem_map.mp hw
  by_cases hk : f.1 = k
  · left
    have hsame : f = (k, v) := List.inj_on_of_nodup_map hnodup hf hmem hk
    rw [hsame]
  · exact .inr (.inl hk)

/-! ### Taking a write back -/

/-- The value is a leaf. -/
def isLeaf (j : Json K V) : Bool :=
  match j.root with
  | some (.leaf _) => true
  | _ => false

/-- A value that is no leaf is its entries. -/
theorem root_of_isLeaf {j : Json K V} (h : j.isLeaf = false) :
    j.root = if j.entries = [] then none else some (.object j.entries) := by
  obtain ⟨root, hroot⟩ := j
  match root, hroot, h with
  | none, _, _ => rfl
  | some (.object es), hroot, _ =>
    cases hroot _ rfl with
    | object _ hne _ _ => exact (if_neg hne).symm

/-- Two values that are no leaves and have the same children are equal. -/
theorem ext_child {j j' : Json K V} (h : j.isLeaf = false) (h' : j'.isLeaf = false)
    (hchild : ∀ k, j.child k = j'.child k) : j = j' := by
  have hmem : ∀ e, e ∈ j.entries ↔ e ∈ j'.entries := by
    rintro ⟨k, t⟩
    rw [mem_entries_iff, mem_entries_iff, hchild]
  have hperm : j.entries.Perm j'.entries :=
    (List.perm_ext_iff_of_nodup j.keys_nodup.of_map j'.keys_nodup.of_map).mpr hmem
  have hsorted : ∀ j : Json K V, j.entries.Pairwise fun e e' => e.1 < e'.1 :=
    fun j => List.pairwise_map.mp (JsonTree.entries_sorted j.canonical)
  have hentries : j.entries = j'.entries := by
    refine hperm.eq_of_pairwise ?_ (hsorted j) (hsorted j')
    intro e e' _ _ hlt hlt'
    exact absurd hlt' (lt_asymm hlt)
  exact Json.ext (by rw [root_of_isLeaf h, root_of_isLeaf h', hentries])

/-- A write of a child makes no leaf. -/
theorem isLeaf_setChild {j v : Json K V} {k : K} (h : j.isLeaf = false) :
    (j.setChild k v).isLeaf = false := by
  obtain ⟨root, hroot⟩ := j
  obtain ⟨vroot, hvroot⟩ := v
  cases vroot with
  | some c => rfl
  | none =>
    match root, hroot, h with
    | none, _, _ => rfl
    | some (.object es), _, _ =>
      simp only [isLeaf, setChild, JsonTree.setChild]
      cases Entries.drop k es <;> rfl

/-- Writing a child with what it is changes nothing. -/
theorem setChild_child_self (j : Json K V) (k : K) : j.setChild k (j.child k) = j := by
  cases h : j.isLeaf with
  | false =>
    refine ext_child (isLeaf_setChild h) h fun k' => ?_
    rw [child_setChild]
    split_ifs with hk
    · rw [hk]
    · rfl
  | true =>
    obtain ⟨root, hroot⟩ := j
    match root, hroot, h with
    | some (.leaf v), _, _ => rfl

/-- The last of two writes to one child counts. -/
theorem setChild_setChild_self {j : Json K V} (h : j.isLeaf = false) (k : K) (v v' : Json K V) :
    (j.setChild k v).setChild k v' = j.setChild k v' := by
  refine ext_child (isLeaf_setChild (isLeaf_setChild h)) (isLeaf_setChild h) fun k' => ?_
  rw [child_setChild, child_setChild, child_setChild]
  split_ifs <;> rfl

/-- Writing what is there changes nothing. -/
theorem set_get_self (j : Json K V) (p : List K) : j.set p (j.get p) = j := by
  induction p generalizing j with
  | nil => rfl
  | cons k p ih => rw [set_cons, get, ih, setChild_child_self]

/-- No leaf stands on the way to a path. -/
def Open : Json K V → List K → Prop
  | _, [] => True
  | j, k :: p => j.isLeaf = false ∧ Open (j.child k) p

/-- Of two writes at a path the second is left. -/
theorem set_set_self {j : Json K V} {p : List K} (h : j.Open p) (v v' : Json K V) :
    (j.set p v).set p v' = j.set p v' := by
  induction p generalizing j with
  | nil => rfl
  | cons k p ih =>
    rw [set_cons, set_cons, set_cons, child_setChild, if_pos rfl, ih h.2,
      setChild_setChild_self h.1]

/-- A write is taken back by writing what was there before. -/
theorem set_undo {j : Json K V} {p : List K} (h : j.Open p) (v : Json K V) :
    (j.set p v).set p (j.get p) = j := by
  rw [set_set_self h, set_get_self]

/-- A write below a value makes no leaf of it. -/
theorem isLeaf_set {j v : Json K V} {p : List K} (h : j.isLeaf = false) (hp : p ≠ []) :
    (j.set p v).isLeaf = false := by
  cases p with
  | nil => exact absurd rfl hp
  | cons k p => exact isLeaf_setChild h

end Json
