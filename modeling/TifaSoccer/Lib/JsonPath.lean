import Mathlib.Data.List.Lex
import TifaSoccer.Lib.Json

/-!
# Writes to a JSON value at many paths

* `JsonTree.ofEntries` is null for no entries and an object otherwise; removing a child of such a
  value and writing a child of any value are of this form;
* two paths are comparable or `Json.Diverge`; writes at diverging paths commute;
* a write above another one hides it, and a write below another one can be made in its value;
* a value is `Json.OpenAt` a list of writes if no leaf stands above one of their paths. Writing
  below a leaf and removing what was written does not bring the leaf back, so the laws about two
  writes ask for this;
* in a sorted list of paths a path that is above another one is above the next one, so that
  `Paths.pairwise_not_prefix` asks only for neighbours.
-/

namespace JsonTree

variable {K V : Type}

/-- The value with the given entries: null if there are none. -/
def ofEntries (es : List (K × JsonTree K V)) : Option (JsonTree K V) :=
  if es.isEmpty then none else some (.object es)

/-- A tree built from entries has these entries. -/
theorem entries_ofEntries (es : List (K × JsonTree K V)) :
    entries (ofEntries es) = es := by
  cases es <;> rfl

variable [LinearOrder K]

/-- Removing a child of a built tree drops its entry. -/
theorem setChild_ofEntries_none (es : List (K × JsonTree K V)) (k : K) :
    setChild (ofEntries es) k none = ofEntries (Entries.drop k es) := by
  cases es with
  | nil => rfl
  | cons e es =>
    simp only [ofEntries, List.isEmpty_cons, Bool.false_eq_true, if_false,
      setChild]
    cases Entries.drop k (e :: es) <;> rfl

/-- Writing a child is building a tree from the entries. -/
theorem setChild_some (t : Option (JsonTree K V)) (k : K) (c : JsonTree K V) :
    setChild t k (some c) = ofEntries (Entries.put k c (entries t)) := by
  rw [ofEntries, if_neg (by simpa using Entries.put_ne_nil k c (entries t))]
  rfl

end JsonTree

namespace Json

variable {K V : Type} [LinearOrder K]

/-- Below nothing there is nothing. -/
theorem null_get (p : List K) : (null : Json K V).get p = null := by
  induction p with
  | nil => rfl
  | cons k p ih => exact ih

/-- Removing what is not there changes nothing. -/
theorem set_null_of_get {j : Json K V} {p : List K} (h : j.get p = null) : j.set p null = j := by
  rw [← h, set_get_self]

/-! ### Paths -/

/-- Reading along two paths, one after the other. -/
theorem get_append (j : Json K V) (p q : List K) : j.get (p ++ q) = (j.get p).get q := by
  induction p generalizing j with
  | nil => rfl
  | cons k p ih => exact ih (j.child k)

/-- Writing along two paths, one after the other. -/
theorem set_append (j v : Json K V) (p q : List K) :
    j.set (p ++ q) v = j.set p ((j.get p).set q v) := by
  induction p generalizing j with
  | nil => rfl
  | cons k p ih => rw [List.cons_append, set_cons, set_cons, ih, get]

/-- A write below a path, seen from the path. -/
theorem get_set_append (j v : Json K V) (p q : List K) :
    (j.set (p ++ q) v).get p = (j.get p).set q v := by
  rw [set_append, get_set_self]

omit [LinearOrder K] in
/-- Two paths leave each other. -/
theorem Diverge.symm {p q : List K} (h : Diverge p q) : Diverge q p := by
  induction p generalizing q with
  | nil => cases h
  | cons k p ih =>
    cases q with
    | nil => cases h
    | cons k' q =>
      rcases h with hk | h
      · exact .inl hk.symm
      · exact .inr (ih h)

omit [LinearOrder K] in
/-- A path does not leave its own beginning. -/
theorem not_diverge_of_prefix {p q : List K} (h : p <+: q) : ¬ Diverge p q := by
  obtain ⟨r, rfl⟩ := h
  induction p with
  | nil => exact fun h => h
  | cons k p ih =>
    rintro (hk | h)
    · exact hk rfl
    · exact ih h

/-- Two paths part, or one is above the other. -/
theorem prefix_or_diverge (p q : List K) : p <+: q ∨ q <+: p ∨ Diverge p q := by
  induction p generalizing q with
  | nil => exact .inl q.nil_prefix
  | cons k p ih =>
    cases q with
    | nil => exact .inr (.inl List.nil_prefix)
    | cons k' q =>
      by_cases hk : k = k'
      · subst hk
        rcases ih q with h | h | h
        · exact .inl (List.cons_prefix_cons.mpr ⟨rfl, h⟩)
        · exact .inr (.inl (List.cons_prefix_cons.mpr ⟨rfl, h⟩))
        · exact .inr (.inr (.inr h))
      · exact .inr (.inr (.inl hk))

omit [LinearOrder K] in
/-- Renaming the keys does not change where paths part. -/
theorem diverge_map_iff {L : Type} {f : K → L} (hf : Function.Injective f) {p q : List K} :
    Diverge (p.map f) (q.map f) ↔ Diverge p q := by
  induction p generalizing q with
  | nil => exact Iff.rfl
  | cons k p ih =>
    cases q with
    | nil => exact Iff.rfl
    | cons k' q => exact or_congr hf.ne_iff ih

omit [LinearOrder K] in
/-- Paths with a common beginning part after it. -/
theorem diverge_of_append {p q r : List K} (h : Diverge (r ++ p) (r ++ q)) : Diverge p q := by
  induction r with
  | nil => exact h
  | cons k r ih => exact ih (h.resolve_left (absurd rfl))

/-! ### Open paths -/

/-- Every path is open in nothing. -/
theorem open_null (p : List K) : (null : Json K V).Open p := by
  induction p with
  | nil => trivial
  | cons k p ih => exact ⟨rfl, ih⟩

/-- A write that parts from an open path leaves it open. -/
theorem open_set_of_diverge {j : Json K V} {p q : List K} (v : Json K V) (h : j.Open p)
    (hpq : Diverge p q) : (j.set q v).Open p := by
  induction p generalizing j q with
  | nil => trivial
  | cons k p ih =>
    cases q with
    | nil => cases hpq
    | cons k' q =>
      refine ⟨isLeaf_setChild h.1, ?_⟩
      rw [set_cons, child_setChild]
      split_ifs with hk
      · subst hk
        exact ih h.2 (hpq.resolve_left (absurd rfl))
      · exact h.2

/-- So does a write at it or below it. -/
theorem open_set_below {j : Json K V} {p q : List K} (v : Json K V) (h : j.Open p)
    (hpq : p <+: q) : (j.set q v).Open p := by
  induction p generalizing j q with
  | nil => trivial
  | cons k p ih =>
    cases q with
    | nil => simp at hpq
    | cons k' q =>
      obtain ⟨rfl, htail⟩ := List.cons_prefix_cons.mp hpq
      refine ⟨isLeaf_setChild h.1, ?_⟩
      rw [set_cons, child_setChild, if_pos rfl]
      exact ih h.2 htail

/-! ### Two writes -/

/-- A write at a path hides an earlier one at or below it. -/
theorem set_set_of_prefix {j : Json K V} {p q : List K} (h : j.Open p) (hpq : p <+: q)
    (v v' : Json K V) : (j.set q v).set p v' = j.set p v' := by
  obtain ⟨r, rfl⟩ := hpq
  rw [set_append, set_set_self h]

/-- A write below an earlier one can be made in its value. -/
theorem set_set_append {j : Json K V} {p : List K} (h : j.Open p) (q : List K)
    (v v' : Json K V) : (j.set p v).set (p ++ q) v' = j.set p (v.set q v') := by
  rw [set_append, get_set_self, set_set_self h]

/-- Writes of two children commute. -/
theorem setChild_comm {j : Json K V} (h : j.isLeaf = false) {k k' : K} (hk : k ≠ k')
    (v v' : Json K V) : (j.setChild k v).setChild k' v' = (j.setChild k' v').setChild k v := by
  refine ext_child (isLeaf_setChild (isLeaf_setChild h)) (isLeaf_setChild (isLeaf_setChild h)) ?_
  intro x
  rw [child_setChild, child_setChild, child_setChild, child_setChild]
  split_ifs with h₁ h₂
  · exact absurd (h₂.symm.trans h₁) hk
  · rfl
  · rfl
  · rfl

/-- Writes at diverging paths commute. -/
theorem set_comm {j : Json K V} {p q : List K} (hp : j.Open p) (hq : j.Open q)
    (h : Diverge p q) (v w : Json K V) : (j.set p v).set q w = (j.set q w).set p v := by
  induction p generalizing j q with
  | nil => cases h
  | cons k p ih =>
    cases q with
    | nil => cases h
    | cons k' q =>
      simp only [set_cons, child_setChild]
      by_cases hk : k = k'
      · subst hk
        rw [if_pos rfl, if_pos rfl, setChild_setChild_self hp.1, setChild_setChild_self hp.1,
          ih hp.2 hq.2 (h.resolve_left (absurd rfl))]
      · rw [if_neg (Ne.symm hk), if_neg hk, setChild_comm hp.1 hk]

/-! ### Many writes -/

/-- No leaf stands above a path of the writes. -/
def OpenAt (j : Json K V) (ws : List (List K × Json K V)) : Prop := ∀ w ∈ ws, j.Open w.1

/-- The paths of the writes part from each other. -/
def Apart (ws : List (List K × Json K V)) : Prop := ws.Pairwise fun w w' => Diverge w.1 w'.1

/-- The first write comes first. -/
theorem setAll_cons (j : Json K V) (w : List K × Json K V) (ws : List (List K × Json K V)) :
    j.setAll (w :: ws) = (j.set w.1 w.2).setAll ws := rfl

/-- One list of writes after the other. -/
theorem setAll_append (j : Json K V) (ws ws' : List (List K × Json K V)) :
    j.setAll (ws ++ ws') = (j.setAll ws).setAll ws' :=
  List.foldl_append

/-- The last write comes last. -/
theorem setAll_concat (j : Json K V) (ws : List (List K × Json K V)) (p : List K) (v : Json K V) :
    j.setAll (ws ++ [(p, v)]) = (j.setAll ws).set p v :=
  setAll_append j ws [(p, v)]

/-- Writes elsewhere leave a path open. -/
theorem open_setAll_of_diverge {j : Json K V} {p : List K} {ws : List (List K × Json K V)}
    (h : j.Open p) (hws : ∀ w ∈ ws, Diverge p w.1) : (j.setAll ws).Open p := by
  induction ws generalizing j with
  | nil => exact h
  | cons w ws ih =>
    have hset : (j.set w.1 w.2).Open p := open_set_of_diverge w.2 h (hws w List.mem_cons_self)
    exact ih hset fun w' hw' => hws w' (List.mem_cons_of_mem _ hw')

/-- The order of writes whose paths part does not matter. -/
theorem setAll_perm {j : Json K V} {ws ws' : List (List K × Json K V)} (hperm : ws.Perm ws')
    (hapart : Apart ws) (hopen : j.OpenAt ws) : j.setAll ws = j.setAll ws' := by
  induction hperm generalizing j with
  | nil => rfl
  | @cons w ws ws' hperm ih =>
    obtain ⟨hhead, htail⟩ := List.pairwise_cons.mp hapart
    refine ih htail fun w' hw' => ?_
    exact open_set_of_diverge w.2 (hopen w' (List.mem_cons_of_mem _ hw')) (hhead w' hw').symm
  | swap w w' ws =>
    have hdiv : Diverge w'.1 w.1 := (List.pairwise_cons.mp hapart).1 w List.mem_cons_self
    have hw' : j.Open w'.1 := hopen w' List.mem_cons_self
    have hw : j.Open w.1 := hopen w (List.mem_cons_of_mem _ List.mem_cons_self)
    rw [setAll_cons, setAll_cons, setAll_cons, setAll_cons, set_comm hw' hw hdiv]
  | @trans ws ws' ws'' hperm hperm' ih ih' =>
    have hapart' : Apart ws' :=
      (hperm.pairwise_iff fun h => Diverge.symm h).mp hapart
    rw [ih hapart hopen, ih' hapart' fun w hw => hopen w (hperm.mem_iff.mpr hw)]

/-- A write hides earlier ones at or below its path. -/
theorem set_setAll_of_prefix {j : Json K V} {p : List K} {ws : List (List K × Json K V)}
    (h : j.Open p) (hws : ∀ w ∈ ws, p <+: w.1) (v : Json K V) :
    (j.setAll ws).set p v = j.set p v := by
  induction ws generalizing j with
  | nil => rfl
  | cons w ws ih =>
    have hw : p <+: w.1 := hws w List.mem_cons_self
    rw [setAll_cons, ih (open_set_below w.2 h hw) fun w' hw' =>
      hws w' (List.mem_cons_of_mem _ hw'), set_set_of_prefix h hw]

end Json

/-! ### Sorted paths -/

namespace Paths

variable {P R : Type} [LinearOrder R]

/-- The order of two lists by their first element. -/
theorem cons_le_cons_iff {a b : R} {l l' : List R} :
    (a :: l ≤ b :: l') ↔ a < b ∨ a = b ∧ l ≤ l' := by
  rw [← not_lt, ← not_lt, List.cons_lt_cons_iff, not_or, not_and, not_lt, le_iff_lt_or_eq]
  constructor
  · rintro ⟨hlt | rfl, h⟩
    · exact .inl hlt
    · exact .inr ⟨rfl, h rfl⟩
  · rintro (hlt | ⟨rfl, h⟩)
    · exact ⟨.inl hlt, fun heq => absurd hlt (heq ▸ lt_irrefl _)⟩
    · exact ⟨.inr rfl, fun _ => h⟩

/-- A beginning comes before the whole. -/
theorem le_of_isPrefix {p q : List R} (h : p <+: q) : p ≤ q :=
  not_lt.mp (List.IsPrefix.le h)

/-- What lies between a path and one below it is below it too. -/
theorem isPrefix_of_between {p q r : List R} (hpq : p ≤ q) (hqr : q ≤ p ++ r) : p <+: q := by
  induction p generalizing q with
  | nil => exact q.nil_prefix
  | cons k p ih =>
    cases q with
    | nil => exact absurd hpq (by simp)
    | cons k' q =>
      rw [List.cons_append, cons_le_cons_iff] at hqr
      rcases cons_le_cons_iff.mp hpq with hlt | ⟨rfl, htail⟩
      · rcases hqr with hlt' | ⟨rfl, -⟩
        · exact absurd hlt' (lt_asymm hlt)
        · exact absurd hlt (lt_irrefl _)
      · rcases hqr with hlt | ⟨-, htail'⟩
        · exact absurd hlt (lt_irrefl _)
        · exact List.cons_prefix_cons.mpr ⟨rfl, ih htail htail'⟩

/-- If no path of a sorted list is above the next one, then no path of it is above another one. -/
theorem pairwise_not_prefix {c : P → List R} {ps : List P}
    (hsorted : ps.Pairwise fun p q => c p ≤ c q) (hchain : ps.IsChain fun p q => ¬ c p <+: c q) :
    ps.Pairwise fun p q => ¬ c p <+: c q ∧ ¬ c q <+: c p := by
  induction ps with
  | nil => exact List.Pairwise.nil
  | cons p ps ih =>
    obtain ⟨hhead, htail⟩ := List.pairwise_cons.mp hsorted
    refine List.pairwise_cons.mpr ⟨fun q hq => ?_, ih htail hchain.of_cons⟩
    have hnot : ¬ c p <+: c q := by
      cases ps with
      | nil => cases hq
      | cons p' ps =>
        rintro ⟨r, hr⟩
        have hle : c p' ≤ c q := by
          rcases List.mem_cons.mp hq with rfl | hq
          · exact le_rfl
          · exact (List.pairwise_cons.mp htail).1 q hq
        -- the next path lies between the two
        exact (List.isChain_cons_cons.mp hchain).1
          (isPrefix_of_between (hhead p' List.mem_cons_self) (hr ▸ hle))
    refine ⟨hnot, fun h => hnot ?_⟩
    have heq : c p = c q := le_antisymm (hhead q hq) (le_of_isPrefix h)
    exact heq ▸ List.prefix_rfl

end Paths
