import TifaSoccer.Database.LLRBTheorems
import TifaSoccer.Database.SortedDictionary

/-!
# The tree built from sorted keys

`rootFrom12List` makes a valid tree of every number of keys. The digits of the number are read
from the most significant one, so the tree grows from its root down the left spine; the lemmas
about it go by the number of digits that are left.
-/

namespace TifaSoccer

namespace FTreeSortedDictionary

open FLLRBNode FLLRBColor

variable {K V : Type} [LinearOrder K]

/-- The entries that a range of indices selects, around one of them. -/
theorem take_drop_split {α : Type} {xs : List α} {start m m' : ℕ} {x : α}
    (h : xs[start + m]? = some x) :
    (xs.drop start).take (m + 1 + m') =
      (xs.drop start).take m ++ x :: (xs.drop (start + m + 1)).take m' := by
  have hdrop : (xs.drop start).drop m = x :: xs.drop (start + m + 1) := by
    rw [List.drop_drop]
    obtain ⟨hlt, hx⟩ := List.getElem?_eq_some_iff.mp h
    rw [List.drop_eq_getElem_cons hlt, hx]
  rw [Nat.add_assoc, List.take_add, hdrop, Nat.add_comm 1 m', List.take_succ_cons]

omit [LinearOrder K] in
/-- The array has the keys of the entries. -/
theorem objectAtIndex_eq {es : List (K × V)} {i : ℕ} {e : K × V} (h : es[i]? = some e) :
    objectAtIndex (es.map Prod.fst) i = .ok e.1 := by
  simp [objectAtIndex, h]

/-- A perfect tree of black nodes. -/
theorem buildBalancedTree_spec {es : List (K × V)} {dictionary : NSDictionary K V}
    (hdict : ∀ e ∈ es, dictionary.objectForKey e.1 = .ok e.2) (h start : ℕ)
    (hlen : start + (2 ^ h - 1) ≤ es.length) :
    ∃ t, buildBalancedTree (es.map Prod.fst) dictionary start (2 ^ h - 1) = .ok t ∧
      Balanced t BLACK h ∧ t.inorderTraversal = (es.drop start).take (2 ^ h - 1) := by
  induction h generalizing start with
  | zero =>
    refine ⟨.empty, ?_, .empty, by simp⟩
    rw [buildBalancedTree]
    simp
  | succ h ih =>
    have hpow : 2 ^ (h + 1) - 1 = (2 ^ h - 1) + 1 + (2 ^ h - 1) := by
      have := Nat.one_le_two_pow (n := h)
      rw [pow_succ]
      omega
    rw [hpow] at hlen ⊢
    set m := 2 ^ h - 1
    obtain ⟨l, hl, hlb, hli⟩ := ih start (by omega)
    obtain ⟨r, hr, hrb, hri⟩ := ih (start + m + 1) (by omega)
    have hlt : start + m < es.length := by omega
    have hget : es[start + m]? = some es[start + m] := List.getElem?_eq_getElem hlt
    refine ⟨.node BLACK l es[start + m].1 es[start + m].2 r, ?_, .black hlb hrb, ?_⟩
    · have hmin : min ((es.map Prod.fst).length - start) (m + 1 + m) = m + 1 + m := by
        rw [List.length_map]
        omega
      have hkey := objectAtIndex_eq hget
      have hvalue := hdict _ (List.getElem_mem hlt)
      rw [buildBalancedTree]
      simp only [hmin]
      by_cases hm : m = 0
      · -- a leaf
        obtain rfl : h = 0 := by
          by_contra hne
          have := Nat.one_lt_two_pow hne
          omega
        obtain rfl := hlb.eq_empty
        obtain rfl := hrb.eq_empty
        simp only [hm, Nat.add_zero] at hkey hvalue ⊢
        simp [hkey, hvalue, bind, Except.bind]
      · have hhalf : (m + 1 + m) / 2 = m := by omega
        rw [if_neg (by omega), if_neg (by omega), hhalf, hl, hr, hkey]
        simp [hvalue, bind, Except.bind]
    · rw [inorderTraversal, hli, hri, take_drop_split hget]

/-- A pennant takes its entries from the end of those that are left. -/
theorem buildPennant_spec {es : List (K × V)} {dictionary : NSDictionary K V}
    (hdict : ∀ e ∈ es, dictionary.objectForKey e.1 = .ok e.2) (color : FLLRBColor) (j i : ℕ)
    {s : Spine K V} (hindex : s.index = i + 2 ^ j) (hlen : s.index ≤ es.length) :
    ∃ p : Pennant K V,
      buildPennant (es.map Prod.fst) dictionary color (2 ^ j) s = .ok ⟨p :: s.pennants, i⟩ ∧
      p.color = color ∧ Balanced p.childTree BLACK j ∧
      (p.key, p.value) :: p.childTree.inorderTraversal = (es.drop i).take (2 ^ j) := by
  have hpow := Nat.one_le_two_pow (n := j)
  have hlt : i < es.length := by omega
  have hget : es[i]? = some es[i] := List.getElem?_eq_getElem hlt
  obtain ⟨t, ht, hbal, hin⟩ := buildBalancedTree_spec hdict j (i + 1) (by omega)
  refine ⟨⟨color, es[i].1, es[i].2, t⟩, ?_, rfl, hbal, ?_⟩
  · have hi : s.index - 2 ^ j = i := by omega
    simp only [buildPennant, hi, objectAtIndex_eq hget, ht, hdict _ (List.getElem_mem hlt), bind,
      Except.bind]
  · have hsplit : (es.drop i).take (0 + 1 + (2 ^ j - 1)) =
        (es.drop i).take 0 ++ es[i] :: (es.drop (i + 0 + 1)).take (2 ^ j - 1) :=
      take_drop_split hget
    rw [Nat.zero_add, Nat.add_sub_cancel' hpow] at hsplit
    rw [hsplit, hin]
    rfl

omit [LinearOrder K] in
/-- A new pennant comes to the end of the left spine. -/
theorem Spine.root_append (low : List (Pennant K V)) (p : Pennant K V) :
    Spine.root (low ++ [p]) = .node p.color (Spine.root low) p.key p.value p.childTree := by
  simp [Spine.root]

/-- The digits that are left make a black tree of the first keys, with one black node on each
path for every digit. -/
theorem spineLoop_spec {es : List (K × V)} {dictionary : NSDictionary K V}
    (hdict : ∀ e ∈ es, dictionary.objectForKey e.1 = .ok e.2) (digits : ℕ) {list : Base1_2List}
    {s : Spine K V} (hcurrent : list.current = digits - 1)
    (hindex : s.index = 2 ^ digits - 1 + list.bits % 2 ^ digits) (hlen : s.index ≤ es.length) :
    ∃ low, spineLoop (es.map Prod.fst) dictionary digits list s = .ok ⟨low ++ s.pennants, 0⟩ ∧
      Balanced (Spine.root low) BLACK digits ∧
      (Spine.root low).inorderTraversal = es.take s.index := by
  induction digits generalizing list s with
  | zero =>
    obtain ⟨pennants, index⟩ := s
    simp only [pow_zero, Nat.mod_one, Nat.sub_self, Nat.add_zero] at hindex
    subst hindex
    exact ⟨[], rfl, .empty, by simp [Spine.root]⟩
  | succ d ih =>
    have hpow := Nat.one_le_two_pow (n := d)
    rw [Nat.mod_pow_succ, ← Nat.toNat_testBit, pow_succ] at hindex
    rw [Nat.add_sub_cancel] at hcurrent
    set i := 2 ^ d - 1 + list.bits % 2 ^ d
    cases hbit : list.bits.testBit d with
    | false =>
      -- the digit 1: one black pennant
      have hi : s.index = i + 2 ^ d := by
        simp only [hbit, Bool.toNat_false, Nat.mul_zero] at hindex
        omega
      obtain ⟨p, hp, hcolor, hbal, hin⟩ := buildPennant_spec hdict BLACK d i hi hlen
      obtain ⟨low, hlow, hlowbal, hlowin⟩ :=
        @ih { list with current := list.current - 1 } ⟨p :: s.pennants, i⟩ (by simp [hcurrent])
          rfl (by simp only; omega)
      refine ⟨low ++ [p], ?_, ?_, ?_⟩
      · simp only [spineLoop, base1_2List_next, hcurrent, hbit, Bool.not_false, if_true, hp, bind,
          Except.bind]
        rw [hcurrent] at hlow
        rw [hlow]
        simp
      · rw [Spine.root_append, hcolor]
        exact .black hlowbal hbal
      · rw [Spine.root_append, inorderTraversal, hlowin, hin, ← List.take_add, hi]
    | true =>
      -- the digit 2: a black pennant over a red one
      have hi : s.index = i + 2 ^ d + 2 ^ d := by
        simp only [hbit, Bool.toNat_true, Nat.mul_one] at hindex
        omega
      obtain ⟨p, hp, hcolor, hbal, hin⟩ := buildPennant_spec hdict BLACK d (i + 2 ^ d) hi hlen
      obtain ⟨q, hq, hqcolor, hqbal, hqin⟩ :=
        buildPennant_spec hdict RED d i (s := ⟨p :: s.pennants, i + 2 ^ d⟩) rfl
          (by simp only; omega)
      obtain ⟨low, hlow, hlowbal, hlowin⟩ :=
        @ih { list with current := list.current - 1 } ⟨q :: p :: s.pennants, i⟩
          (by simp [hcurrent]) rfl (by simp only; omega)
      refine ⟨low ++ [q] ++ [p], ?_, ?_, ?_⟩
      · simp only [spineLoop, base1_2List_next, hcurrent, hbit, Bool.not_true, hp, hq, bind,
          Except.bind, Bool.false_eq_true, if_false]
        rw [hcurrent] at hlow
        rw [hlow]
        simp
      · rw [Spine.root_append, Spine.root_append, hcolor, hqcolor]
        exact .black (.red hlowbal hqbal) hbal
      · rw [Spine.root_append, inorderTraversal, Spine.root_append, inorderTraversal, hlowin, hqin,
          hin, ← List.take_add, ← List.take_add, hi]

/-- The number of keys is the number the list of digits stands for. -/
theorem base1_2List_new_value {length : ℕ} (h : length + 1 < 2 ^ 32) :
    length = 2 ^ (base1_2List_new length).count - 1 +
      (base1_2List_new length).bits % 2 ^ (base1_2List_new length).count := by
  have hsucc : (length % 2 ^ 32 + 1) % 2 ^ 32 = length + 1 := by omega
  have hlow := Nat.log2_self_le (n := length + 1) (by omega)
  have hhigh := Nat.lt_log2_self (n := length + 1)
  simp only [base1_2List_new, hsucc]
  set c := (length + 1).log2
  have hmod : (length + 1) % 2 ^ c = length + 1 - 2 ^ c := by
    rw [Nat.mod_eq_sub_mod hlow, Nat.mod_eq_of_lt]
    rw [pow_succ] at hhigh
    omega
  rw [Nat.mod_mod]
  omega

/-- Every list of keys below the 32-bit bound becomes a valid tree of its entries. -/
theorem rootFrom12List_spec {es : List (K × V)} {dictionary : NSDictionary K V}
    (hdict : ∀ e ∈ es, dictionary.objectForKey e.1 = .ok e.2) (hlen : es.length + 1 < 2 ^ 32) :
    ∃ t n, rootFrom12List (base1_2List_new es.length) (es.map Prod.fst) dictionary = .ok t ∧
      Balanced t BLACK n ∧ t.inorderTraversal = es := by
  obtain ⟨low, hloop, hbal, hin⟩ := @spineLoop_spec K V _ es dictionary hdict
    (base1_2List_new es.length).count (base1_2List_new es.length) { index := es.length } rfl
    (base1_2List_new_value hlen) (Nat.le_refl _)
  refine ⟨Spine.root low, _, ?_, hbal, ?_⟩
  · simp only [rootFrom12List, List.length_map, hloop, bind, Except.bind, List.append_nil]
  · rw [hin, List.take_length]

end FTreeSortedDictionary

/-! ## `fromDictionary` -/

section FromDictionary

variable {K V : Type} [LinearOrder K]

/-- The entries of an `NSDictionary` in key order. -/
def NSDictionary.sortedEntries (dictionary : NSDictionary K V) : List (K × V) :=
  dictionary.entries.mergeSort fun a b => decide (a.1 ≤ b.1)

/-- Sorting keeps the entries. -/
theorem NSDictionary.sortedEntries_perm (dictionary : NSDictionary K V) :
    dictionary.sortedEntries.Perm dictionary.entries :=
  List.mergeSort_perm _ _

/-- The keys are sorted. -/
theorem NSDictionary.sorted_sortedEntries (dictionary : NSDictionary K V) :
    Entries.Sorted dictionary.sortedEntries := by
  have hle : dictionary.sortedEntries.Pairwise fun a b => decide (a.1 ≤ b.1) = true := by
    apply List.pairwise_mergeSort
    · intro a b c hab hbc
      simp only [decide_eq_true_eq] at *
      exact hab.trans hbc
    · intro a b
      simpa using le_total a.1 b.1
  have hnodup : (dictionary.sortedEntries.map Prod.fst).Nodup :=
    (dictionary.sortedEntries_perm.map Prod.fst).nodup_iff.mpr dictionary.nodup
  have hle' : (dictionary.sortedEntries.map Prod.fst).Pairwise (· ≤ ·) := by
    rw [List.pairwise_map]
    exact hle.imp fun h => by simpa using h
  refine (hle'.and hnodup).imp ?_
  rintro a b ⟨hab, hne⟩
  exact lt_of_le_of_ne hab hne

/-- The keys of an `NSDictionary` are distinct, so they are never refused. -/
theorem sortedKeys_eq (dictionary : NSDictionary K V) :
    sortedKeys dictionary = .ok (dictionary.sortedEntries.map Prod.fst) := by
  have hkeys : (dictionary.entries.map Prod.fst).mergeSort (fun a b => decide (a ≤ b)) =
      dictionary.sortedEntries.map Prod.fst := by
    symm
    apply List.map_mergeSort
    intros
    rfl
  have hadjacent : ∀ keys : List K, keys.Pairwise (· < ·) →
      ∀ p ∈ keys.zip keys.tail, p.1 < p.2 := by
    intro keys h
    induction h with
    | nil => simp
    | @cons k keys hk _ ih =>
      cases keys with
      | nil => simp
      | cons k' keys =>
        intro p hp
        rcases List.mem_cons.mp hp with rfl | hp
        · exact hk k' List.mem_cons_self
        · exact ih p hp
  unfold sortedKeys
  simp only [hkeys]
  rw [if_pos]
  rw [List.all_eq_true]
  intro p hp
  exact decide_eq_true (compare_lt_iff_lt.mpr (hadjacent _ dictionary.sorted_sortedEntries p hp))

/-- A key of an `NSDictionary` has its own value. -/
theorem NSDictionary.objectForKey_eq (dictionary : NSDictionary K V) {e : K × V}
    (he : e ∈ dictionary.sortedEntries) : dictionary.objectForKey e.1 = .ok e.2 := by
  have hfind : ∀ es : List (K × V), (es.map Prod.fst).Nodup → e ∈ es →
      Entries.find e.1 es = some e.2 := by
    intro es hnodup hmem
    induction es with
    | nil => exact absurd hmem List.not_mem_nil
    | cons e' es ih =>
      obtain ⟨hnot, hnodup⟩ := List.nodup_cons.mp hnodup
      rw [Entries.find]
      rcases List.mem_cons.mp hmem with rfl | hmem
      · rw [if_pos rfl]
      · rw [if_neg, ih hnodup hmem]
        rintro h
        exact hnot (h ▸ List.mem_map_of_mem hmem)
  rw [objectForKey,
    hfind _ dictionary.nodup (dictionary.sortedEntries_perm.mem_iff.mp he)]

/-- The builder makes a balanced tree with the sorted entries. -/
theorem FTreeSortedDictionary.fromDictionary_spec (dictionary : NSDictionary K V)
    (hlen : dictionary.entries.length + 1 < 2 ^ 32) :
    ∃ d n, FTreeSortedDictionary.fromDictionary dictionary = .ok d ∧
      FLLRBNode.Balanced d.root .BLACK n ∧ d.root.inorderTraversal = dictionary.sortedEntries := by
  have hlen' : dictionary.sortedEntries.length = dictionary.entries.length :=
    dictionary.sortedEntries_perm.length_eq
  obtain ⟨t, n, ht, hbal, hin⟩ := rootFrom12List_spec
    (fun e he => dictionary.objectForKey_eq he) (hlen' ▸ hlen)
  refine ⟨⟨t⟩, n, ?_, hbal, hin⟩
  simp only [fromDictionary, sortedKeys_eq, List.length_map, ht, bind, Except.bind]

/-- The other class makes two arrays of them. -/
theorem FArraySortedDictionary.fromDictionary_eq (dictionary : NSDictionary K V) :
    FArraySortedDictionary.fromDictionary dictionary =
      .ok ⟨dictionary.sortedEntries.map Prod.fst, dictionary.sortedEntries.map Prod.snd⟩ := by
  have hmap : ∀ es : List (K × V), (∀ e ∈ es, dictionary.objectForKey e.1 = .ok e.2) →
      (es.map Prod.fst).mapM dictionary.objectForKey = .ok (es.map Prod.snd) := by
    intro es h
    induction es with
    | nil => rfl
    | cons e es ih =>
      rw [List.map_cons, List.mapM_cons, h e List.mem_cons_self,
        ih fun e' he' => h e' (List.mem_cons_of_mem _ he')]
      rfl
  simp only [fromDictionary, sortedKeys_eq, bind, Except.bind,
    hmap _ fun e he => dictionary.objectForKey_eq he]

end FromDictionary

end TifaSoccer
