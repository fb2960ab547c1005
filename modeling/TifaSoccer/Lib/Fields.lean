import TifaSoccer.Lib.JsonPath

/-!
# Values whose leaves suit their keys

`Fields ok j` says that every leaf below `j` satisfies `ok` for the key it stands under, at whatever
depth. Reading below a value keeps this, and so does a write of such a value, unless it puts a leaf
under a key it does not suit.
-/

namespace Json

variable {K V : Type} [LinearOrder K] {ok : K → V → Prop}

/-- Every leaf below the value suits its key. -/
def Fields (ok : K → V → Prop) (j : Json K V) : Prop :=
  ∀ p k x, (j.get p).child k = leaf x → ok k x

/-- If the value is a leaf, then it suits the key. -/
def Suits (ok : K → V → Prop) (k : K) (v : Json K V) : Prop := ∀ x, v = leaf x → ok k x

/-- A value without a leaf at its root is no leaf. -/
theorem ne_leaf_of_root {j : Json K V} (h : ∀ x, j.root ≠ some (.leaf x)) (x : V) : j ≠ leaf x :=
  fun heq => h x (by rw [heq]; rfl)

/-- Nothing suits every key. -/
theorem suits_null (k : K) : Suits ok k (null : Json K V) :=
  fun x h => absurd h (ne_leaf_of_root (by simp [null]) x)

/-- A leaf suits the keys it satisfies. -/
theorem suits_leaf {k : K} {x : V} (h : ok k x) : Suits ok k (leaf x) := by
  intro x' hx
  cases congrArg root hx
  exact h

/-- There is no leaf below nothing. -/
theorem fields_null : Fields ok (null : Json K V) := by
  intro p k
  rw [null_get]
  exact suits_null k

/-- There is no leaf below a leaf. -/
theorem fields_leaf (x : V) : Fields ok (leaf x) := by
  intro p k
  cases p with
  | nil => exact suits_null k
  | cons k' p => exact fields_null p k

/-! ## Reading -/

/-- A child suits its key. -/
theorem Fields.suits {j : Json K V} (h : Fields ok j) (k : K) : Suits ok k (j.child k) := h [] k

/-- The leaves below a child are below the value. -/
theorem Fields.child {j : Json K V} (h : Fields ok j) (k : K) : Fields ok (j.child k) :=
  fun p => h (k :: p)

/-- The leaves below a path are below the value. -/
theorem Fields.get {j : Json K V} (h : Fields ok j) (p : List K) : Fields ok (j.get p) := by
  induction p generalizing j with
  | nil => exact h
  | cons k p ih => exact ih (h.child k)

/-! ## Writing -/

/-- A write of a child keeps the leaves suitable if the child is. -/
theorem Fields.setChild {j v : Json K V} {k : K} (h : Fields ok j) (hv : Fields ok v)
    (hk : Suits ok k v) : Fields ok (j.setChild k v) := by
  intro p k' x hx
  cases p with
  | nil =>
    rw [Json.get, child_setChild] at hx
    split_ifs at hx with heq
    · subst heq
      exact hk x hx
    · exact h [] k' x hx
  | cons k₁ p =>
    rw [Json.get, child_setChild] at hx
    split_ifs at hx with heq
    · exact hv p k' x hx
    · exact h (k₁ :: p) k' x hx

/-- A value that is a leaf after a write of a child was one before. -/
theorem eq_leaf_of_setChild {j v : Json K V} {k : K} {x : V} (h : j.setChild k v = leaf x) :
    j = leaf x := by
  cases hleaf : j.isLeaf with
  | false =>
    have hset := isLeaf_setChild (v := v) (k := k) hleaf
    rw [h] at hset
    cases hset
  | true =>
    have hroot : JsonTree.setChild j.root k v.root = some (.leaf x) := congrArg root h
    unfold isLeaf at hleaf
    split at hleaf
    · rename_i x' hx
      rw [hx] at hroot
      refine Json.ext ?_
      cases hv : v.root with
      | some c =>
        rw [hv] at hroot
        cases hroot
      | none =>
        rw [hv] at hroot
        exact hx.trans hroot
    · cases hleaf

/-- A write keeps the leaves suitable if its value is, and suits the last key of its path. -/
theorem Fields.set {j v : Json K V} {p : List K} (h : Fields ok j) (hv : Fields ok v)
    (hp : ∀ k ∈ p.getLast?, Suits ok k v) : Fields ok (j.set p v) := by
  induction p generalizing j with
  | nil => exact hv
  | cons k p ih =>
    rw [set_cons]
    cases p with
    | nil => exact h.setChild hv (hp k rfl)
    | cons k' p =>
      refine h.setChild (ih (h.child k) hp) fun x hx => ?_
      -- a leaf is left where the write removes what is not there
      exact h.suits k x (eq_leaf_of_setChild hx)

/-- The fields of an object are written one after the other. -/
theorem fields_foldl {fields : List (K × Json K V)}
    (hfields : ∀ f ∈ fields, Fields ok f.2 ∧ Suits ok f.1 f.2) {j : Json K V} (h : Fields ok j) :
    Fields ok (fields.foldl (fun j f => j.setChild f.1 f.2) j) := by
  induction fields generalizing j with
  | nil => exact h
  | cons f fields ih =>
    obtain ⟨hf, hk⟩ := hfields f (List.mem_cons_self ..)
    exact ih (fun f' hf' => hfields f' (List.mem_cons_of_mem _ hf')) (h.setChild hf hk)

/-- The leaves of an object suit their keys if its fields do. -/
theorem fields_object {fields : List (K × Json K V)}
    (h : ∀ f ∈ fields, Fields ok f.2 ∧ Suits ok f.1 f.2) : Fields ok (object fields) :=
  fields_foldl h fields_null

/-- An object is no leaf. -/
theorem suits_object (k : K) (fields : List (K × Json K V)) : Suits ok k (object fields) := by
  have hleaf : ∀ j : Json K V, j.isLeaf = false →
      (fields.foldl (fun j f => j.setChild f.1 f.2) j).isLeaf = false := by
    induction fields with
    | nil => exact fun j hj => hj
    | cons f fields ih => exact fun j hj => ih _ (isLeaf_setChild hj)
  intro x hx
  have hfalse := hleaf null rfl
  rw [show fields.foldl (fun j f => j.setChild f.1 f.2) null = leaf x from hx] at hfalse
  cases hfalse

end Json
