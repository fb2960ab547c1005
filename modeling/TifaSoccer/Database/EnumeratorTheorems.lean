import TifaSoccer.Database.DictionaryTheorems

/-!
# Enumerators

An enumerator hands out the keys one by one. `pending` is what a stack of tree nodes still has to
hand out; `nextObject` takes its head. Both implementations hand out the same keys, but for the
reverse enumerator without a start key: on a tree its first loop skips every node.
-/

namespace TifaSoccer

variable {K V : Type}

/-! ## The stack of a tree enumerator -/

namespace FTreeSortedDictionaryEnumerator

open FLLRBNode

def keys (t : FLLRBNode K V) : List K := t.inorderTraversal.map Prod.fst

/-- The keys a node on the stack stands for: its own and those of the side not yet visited. -/
def pendingOf (isReverse : Bool) : FLLRBNode K V → List K
  | .empty => []
  | .node _ l k _ r => k :: if isReverse then (keys l).reverse else keys r

/-- The keys a stack still has to hand out. -/
def pending (isReverse : Bool) (stack : List (FLLRBNode K V)) : List K :=
  stack.flatMap (pendingOf isReverse)

/-- The keys of a subtree in the order of an enumerator. -/
def ordered (isReverse : Bool) (t : FLLRBNode K V) : List K :=
  if isReverse then (keys t).reverse else keys t

/-- What is pushed is still to be enumerated, before the rest. -/
theorem pending_push (isReverse : Bool) (t : FLLRBNode K V) (stack : List (FLLRBNode K V)) :
    pending isReverse (push isReverse t stack) =
      ordered isReverse t ++ pending isReverse stack := by
  induction t generalizing stack with
  | empty => cases isReverse <;> rfl
  | node c l k v r ihl ihr =>
    cases isReverse with
    | false =>
      have h := ihl (.node c l k v r :: stack)
      simp only [push, Bool.false_eq_true, if_false, h]
      simp [pending, pendingOf, ordered, keys]
    | true =>
      have h := ihr (.node c l k v r :: stack)
      simp only [push, if_true, h]
      simp [pending, pendingOf, ordered, keys]

/-- No empty tree is pushed. -/
theorem ne_empty_of_mem_push {isReverse : Bool} {t n : FLLRBNode K V}
    {stack : List (FLLRBNode K V)} (hstack : ∀ n ∈ stack, n ≠ .empty)
    (h : n ∈ push isReverse t stack) : n ≠ .empty := by
  induction t generalizing stack with
  | empty => exact hstack n h
  | node c l k v r ihl ihr =>
    have hstack' : ∀ n ∈ FLLRBNode.node c l k v r :: stack, n ≠ .empty := by
      intro n hn
      rcases List.mem_cons.mp hn with rfl | hn
      · simp
      · exact hstack n hn
    rw [push] at h
    split_ifs at h
    · exact ihr hstack' h
    · exact ihl hstack' h

/-- `nextObject` hands out the first pending key and leaves the others. -/
theorem take_eq (n : ℕ) {e : FTreeSortedDictionaryEnumerator K V}
    (hstack : ∀ n ∈ e.stack, n ≠ .empty) :
    KeyEnumerator.take n (.tree e) = (pending e.isReverse e.stack).take n := by
  induction n generalizing e with
  | zero => rfl
  | succ n ih =>
    obtain ⟨stack, isReverse⟩ := e
    cases stack with
    | nil => rfl
    | cons t stack =>
      cases t with
      | empty => exact absurd rfl (hstack _ List.mem_cons_self)
      | node c l k v r =>
        have hrest : ∀ n ∈ stack, n ≠ .empty := fun n hn => hstack n (List.mem_cons_of_mem _ hn)
        rw [KeyEnumerator.take]
        simp only [KeyEnumerator.nextObject, nextObject, Option.map_some]
        rw [ih fun n hn => ne_empty_of_mem_push hrest hn, pending_push]
        cases isReverse <;> simp [pending, pendingOf, ordered]

section Order

variable [LinearOrder K]

/-- So it is with the start key. -/
theorem ne_empty_of_mem_start {startKey : Option K} {isReverse : Bool} {t n : FLLRBNode K V}
    {stack : List (FLLRBNode K V)} (hstack : ∀ n ∈ stack, n ≠ .empty)
    (h : n ∈ start startKey isReverse t stack) : n ≠ .empty := by
  induction t generalizing stack with
  | empty => exact hstack n h
  | node c l k v r ihl ihr =>
    have hstack' : ∀ n ∈ FLLRBNode.node c l k v r :: stack, n ≠ .empty := by
      intro n hn
      rcases List.mem_cons.mp hn with rfl | hn
      · simp
      · exact hstack n hn
    simp only [start] at h
    split at h
    · split_ifs at h
      · exact ihl hstack h
      · exact ihr hstack h
    · exact hstack' n h
    · split_ifs at h
      · exact ihr hstack' h
      · exact ihl hstack' h

/-- Without a start key an enumerator starts at the smallest key. -/
theorem pending_start_none (t : FLLRBNode K V) (stack : List (FLLRBNode K V)) :
    pending false (start none false t stack) = keys t ++ pending false stack := by
  induction t generalizing stack with
  | empty => rfl
  | node c l k v r ihl _ =>
    have h := ihl (.node c l k v r :: stack)
    simp only [start, Bool.false_eq_true, if_false, h]
    simp [pending, pendingOf, keys]

/-- In reverse, without a start key, the loop puts nothing on the stack. -/
theorem start_none_reverse (t : FLLRBNode K V) (stack : List (FLLRBNode K V)) :
    start none true t stack = stack := by
  induction t generalizing stack with
  | empty => rfl
  | node c l k v r ihl _ =>
    simp only [start, if_true, Ordering.swap_gt]
    exact ihl stack

/-- From a start key on, an enumerator goes through the keys that are not smaller. -/
theorem pending_start {t : FLLRBNode K V} (hs : Entries.Sorted t.inorderTraversal)
    (startKey : K) (stack : List (FLLRBNode K V)) :
    pending false (start (some startKey) false t stack) =
      (Entries.atLeast startKey t.inorderTraversal).map Prod.fst ++ pending false stack := by
  induction t generalizing stack with
  | empty => rfl
  | node c l k v r ihl ihr =>
    obtain ⟨hsl, hsr, hlt, -⟩ := Entries.sorted_append_cons.mp hs
    rw [inorderTraversal]
    rcases hcmp : compare k startKey with _ | _ | _
    · simp only [start, hcmp, Bool.false_eq_true, if_false]
      rw [ihr hsr, Entries.atLeast_split_gt hs (compare_lt_iff_lt.mp hcmp)]
    · obtain rfl := compare_eq_iff_eq.mp hcmp
      simp only [start, hcmp, Bool.false_eq_true, if_false]
      rw [Entries.atLeast_split_le hs le_rfl, Entries.atLeast_eq_nil hlt]
      simp [pending, pendingOf, keys]
    · simp only [start, hcmp, Bool.false_eq_true, if_false]
      rw [ihl hsl, Entries.atLeast_split_le hs (le_of_lt (compare_gt_iff_gt.mp hcmp))]
      simp [pending, pendingOf, keys]

/-- In reverse it goes through the keys that are not larger. -/
theorem pending_start_reverse {t : FLLRBNode K V} (hs : Entries.Sorted t.inorderTraversal)
    (startKey : K) (stack : List (FLLRBNode K V)) :
    pending true (start (some startKey) true t stack) =
      ((Entries.atMost startKey t.inorderTraversal).map Prod.fst).reverse ++
        pending true stack := by
  induction t generalizing stack with
  | empty => rfl
  | node c l k v r ihl ihr =>
    obtain ⟨hsl, hsr, -, hgt⟩ := Entries.sorted_append_cons.mp hs
    rw [inorderTraversal]
    rcases hcmp : compare k startKey with _ | _ | _
    · simp only [start, hcmp, if_true, Ordering.swap_lt]
      rw [ihr hsr, Entries.atMost_split_ge hs (compare_lt_iff_lt.mp hcmp).le]
      simp [pending, pendingOf, keys]
    · obtain rfl := compare_eq_iff_eq.mp hcmp
      simp only [start, hcmp, if_true, Ordering.swap_eq]
      rw [Entries.atMost_split_ge hs le_rfl, Entries.atMost_eq_nil hgt]
      simp [pending, pendingOf, keys]
    · simp only [start, hcmp, if_true, Ordering.swap_gt]
      rw [ihl hsl, Entries.atMost_split_lt hs (compare_gt_iff_gt.mp hcmp)]

end Order

end FTreeSortedDictionaryEnumerator

/-! ## The position of an array enumerator -/

namespace FArraySortedDictionaryEnumerator

/-- Forwards, the keys from the position on are left. -/
theorem take_eq (n : ℕ) (keys : List K) (pos : ℕ) :
    KeyEnumerator.take n (.array ⟨keys, pos, false⟩ : KeyEnumerator K V) =
      (keys.drop pos).take n := by
  induction n generalizing pos with
  | zero => rfl
  | succ n ih =>
    rw [KeyEnumerator.take]
    by_cases hpos : pos < keys.length
    · have hget : keys[pos]? = some keys[pos] := List.getElem?_eq_getElem hpos
      have hcond : (0 : ℤ) ≤ pos ∧ (pos : ℤ) < keys.length := by omega
      simp only [KeyEnumerator.nextObject, nextObject, hcond, and_self, if_true, Int.toNat_natCast,
        hget, Option.map_some, Bool.false_eq_true, if_false]
      have hih := ih (pos + 1)
      rw [Int.natCast_add, Int.natCast_one] at hih
      rw [hih, List.drop_eq_getElem_cons hpos, List.take_succ_cons]
    · have hcond : ¬ ((0 : ℤ) ≤ pos ∧ (pos : ℤ) < keys.length) := by omega
      simp only [KeyEnumerator.nextObject, nextObject, if_neg hcond, Option.map_none]
      rw [List.drop_eq_nil_of_le (by omega), List.take_nil]

/-- Backwards, the keys up to the position are left. -/
theorem take_reverse_eq (n : ℕ) (keys : List K) (pos : ℕ) (hpos : pos ≤ keys.length) :
    KeyEnumerator.take n (.array ⟨keys, (pos : ℤ) - 1, true⟩ : KeyEnumerator K V) =
      ((keys.take pos).reverse).take n := by
  induction n generalizing pos with
  | zero => rfl
  | succ n ih =>
    rw [KeyEnumerator.take]
    cases pos with
    | zero => rfl
    | succ pos =>
      have hget : keys[pos]? = some keys[pos] := List.getElem?_eq_getElem hpos
      have hcast : ((pos + 1 : ℕ) : ℤ) - 1 = pos := by omega
      have hcond : (0 : ℤ) ≤ pos ∧ (pos : ℤ) < keys.length := by omega
      simp only [KeyEnumerator.nextObject, nextObject, hcast, hcond, and_self, if_true,
        Int.toNat_natCast, hget, Option.map_some]
      rw [ih pos (by omega), List.take_succ_eq_append_getElem hpos, List.reverse_append]
      rfl

end FArraySortedDictionaryEnumerator

/-! ## Enumerators of a dictionary -/

namespace FImmutableSortedDictionary

open FTreeSortedDictionaryEnumerator

variable [LinearOrder K] {d : FImmutableSortedDictionary K V} {es : List (K × V)}

/-- The keys an enumerator yields are those on its stack. -/
theorem take_initWith {t : FLLRBNode K V} (startKey : Option K) (isReverse : Bool) (n : ℕ) :
    KeyEnumerator.take n (.tree (.initWith ⟨t⟩ startKey isReverse)) =
      (pending isReverse (start startKey isReverse t [])).take n :=
  take_eq n fun _ hn => ne_empty_of_mem_start (by simp) hn

/-- The enumerator yields the keys in order. -/
theorem Represents.take_keyEnumerator (h : Represents d es) (n : ℕ) :
    d.keyEnumerator.take n = (es.map Prod.fst).take n := by
  rcases h.cases with ⟨rfl, -⟩ | ⟨t, m, rfl, -, rfl⟩
  · exact FArraySortedDictionaryEnumerator.take_eq n _ 0
  · rw [keyEnumerator, take_initWith, pending_start_none]
    simp [pending, keys]

/-- From a start key on, the keys that are not below it. -/
theorem Represents.take_keyEnumeratorFrom (h : Represents d es) (startKey : K) (n : ℕ) :
    (d.keyEnumeratorFrom startKey).take n =
      ((Entries.atLeast startKey es).map Prod.fst).take n := by
  rcases h.cases with ⟨rfl, -⟩ | ⟨t, m, rfl, -, rfl⟩
  · -- the position splits the keys at the start key
    have hsplit : ∃ xs ys, es = xs ++ ys ∧ (∀ x ∈ xs, x.1 < startKey) ∧
        ∀ y ∈ ys, startKey ≤ y.1 := by
      obtain ⟨xs, ys, hxs, hys, rfl | ⟨v, rfl⟩⟩ := Entries.exists_split h.sorted startKey
      · exact ⟨xs, ys, rfl, hxs, fun y hy => (hys y hy).le⟩
      · refine ⟨xs, _, rfl, hxs, ?_⟩
        intro y hy
        rcases List.mem_cons.mp hy with rfl | hy
        · exact le_rfl
        · exact (hys y hy).le
    obtain ⟨xs, ys, rfl, hxs, hys⟩ := hsplit
    rw [keyEnumeratorFrom, FArraySortedDictionary.findInsertPositionForKey_split hxs
      fun y hy => (hys y hy).not_gt, FArraySortedDictionaryEnumerator.take_eq,
      Entries.atLeast_append, Entries.atLeast_eq_nil hxs, Entries.atLeast_eq_self hys]
    simp [FArraySortedDictionary.ofEntries]
  · rw [keyEnumeratorFrom, take_initWith, pending_start h.sorted]
    simp [pending]

/-- The array enumerator starts at an exact match, or just before the position. -/
theorem reverseKeyEnumeratorFrom_array {es : List (K × V)} (hs : Entries.Sorted es)
    (startKey : K) :
    (array (.ofEntries es)).reverseKeyEnumeratorFrom startKey =
      .array ⟨es.map Prod.fst, ((Entries.atMost startKey es).length : ℤ) - 1, true⟩ := by
  obtain ⟨xs, ys, hxs, hys, rfl | ⟨v, rfl⟩⟩ := Entries.exists_split hs startKey
  · have hpos := FArraySortedDictionary.findInsertPositionForKey_split hxs
      fun y hy => (hys y hy).asymm
    rw [Entries.atMost_append, Entries.atMost_eq_self fun x hx => (hxs x hx).le,
      Entries.atMost_eq_nil hys, List.append_nil]
    cases ys with
    | nil =>
      simp only [reverseKeyEnumeratorFrom, hpos]
      simp [FArraySortedDictionary.ofEntries]
    | cons y ys =>
      have hy : y.1 ≠ startKey := (hys y List.mem_cons_self).ne'
      simp only [reverseKeyEnumeratorFrom, hpos]
      simp [FArraySortedDictionary.ofEntries, hy]
  · have hpos := FArraySortedDictionary.findInsertPositionForKey_split hxs (by
      intro y hy
      rcases List.mem_cons.mp hy with rfl | hy
      · exact lt_irrefl startKey
      · exact (hys y hy).asymm : ∀ y ∈ (startKey, v) :: ys, ¬ y.1 < startKey)
    rw [Entries.atMost_split_ge hs le_rfl, Entries.atMost_eq_nil hys]
    simp only [reverseKeyEnumeratorFrom, hpos]
    simp [FArraySortedDictionary.ofEntries]

/-- The entries up to a key come first. -/
theorem take_length_atMost {es : List (K × V)} (hs : Entries.Sorted es) (k : K) :
    es.take (Entries.atMost k es).length = Entries.atMost k es := by
  obtain ⟨xs, ys, hxs, hys, rfl | ⟨v, rfl⟩⟩ := Entries.exists_split hs k
  · rw [Entries.atMost_append, Entries.atMost_eq_self fun x hx => (hxs x hx).le,
      Entries.atMost_eq_nil hys]
    simp
  · rw [Entries.atMost_split_ge hs le_rfl, Entries.atMost_eq_nil hys]
    simp [List.take_append, List.take_of_length_le]

/-- In reverse, the keys that are not above it. -/
theorem Represents.take_reverseKeyEnumeratorFrom (h : Represents d es) (startKey : K) (n : ℕ) :
    (d.reverseKeyEnumeratorFrom startKey).take n =
      (((Entries.atMost startKey es).map Prod.fst).reverse).take n := by
  rcases h.cases with ⟨rfl, -⟩ | ⟨t, m, rfl, -, rfl⟩
  · have hle : (Entries.atMost startKey es).length ≤ (es.map Prod.fst).length := by
      rw [List.length_map]
      exact List.length_filter_le _ _
    rw [reverseKeyEnumeratorFrom_array h.sorted,
      FArraySortedDictionaryEnumerator.take_reverse_eq n _ _ hle, ← List.map_take,
      take_length_atMost h.sorted]
  · rw [reverseKeyEnumeratorFrom, take_initWith, pending_start_reverse h.sorted]
    simp [pending]

/-- Without a start key the reverse enumerator of an array goes through all keys, that of a tree
hands out nothing. -/
theorem Represents.take_reverseKeyEnumerator (h : Represents d es) (n : ℕ) :
    (∀ a, d = .array a → d.reverseKeyEnumerator.take n = ((es.map Prod.fst).reverse).take n) ∧
      ∀ t, d = .tree t → d.reverseKeyEnumerator.take n = [] := by
  rcases h.cases with ⟨rfl, -⟩ | ⟨t, m, rfl, -, rfl⟩
  · refine ⟨fun _ _ => ?_, by simp⟩
    have hall := FArraySortedDictionaryEnumerator.take_reverse_eq (V := V) n (es.map Prod.fst)
      (es.map Prod.fst).length le_rfl
    rwa [List.take_length] at hall
  · refine ⟨by simp, fun _ _ => ?_⟩
    rw [reverseKeyEnumerator, take_initWith, start_none_reverse]
    simp [pending]

/-- Over any run, the enumerators hand out the stored keys in order: all of them, those from a
start key on, or backwards those up to a start key. Only the reverse enumerator without a start
key depends on the implementation, and hands out nothing on a tree. -/
theorem run_enumerators (dictionary : NSDictionary K V) (ops : List (DictionaryOp K V))
    (hlen : dictionary.entries.length + 1 < 2 ^ 32) :
    ∃ d, run dictionary ops = .ok d ∧ ∀ n,
      d.keyEnumerator.take n = ((runEntries dictionary ops).map Prod.fst).take n ∧
      (∀ startKey, (d.keyEnumeratorFrom startKey).take n =
        ((Entries.atLeast startKey (runEntries dictionary ops)).map Prod.fst).take n) ∧
      (∀ startKey, (d.reverseKeyEnumeratorFrom startKey).take n =
        (((Entries.atMost startKey (runEntries dictionary ops)).map Prod.fst).reverse).take n) ∧
      (∀ a, d = .array a → d.reverseKeyEnumerator.take n =
        (((runEntries dictionary ops).map Prod.fst).reverse).take n) ∧
      ∀ t, d = .tree t → d.reverseKeyEnumerator.take n = [] := by
  obtain ⟨d, hd, hrep⟩ := represents_run dictionary ops hlen
  exact ⟨d, hd, fun n => ⟨hrep.take_keyEnumerator n, fun k => hrep.take_keyEnumeratorFrom k n,
    fun k => hrep.take_reverseKeyEnumeratorFrom k n, hrep.take_reverseKeyEnumerator n⟩⟩

/-- The enumerators after a run. -/
theorem run_enumerators_sampleOps :
    ∃ d, run .empty sampleOps = .ok d ∧ ∀ n,
      d.keyEnumerator.take n = ((runEntries .empty sampleOps).map Prod.fst).take n ∧
      (∀ startKey, (d.keyEnumeratorFrom startKey).take n =
        ((Entries.atLeast startKey (runEntries .empty sampleOps)).map Prod.fst).take n) ∧
      (∀ startKey, (d.reverseKeyEnumeratorFrom startKey).take n =
        (((Entries.atMost startKey (runEntries .empty sampleOps)).map Prod.fst).reverse).take n) ∧
      (∀ a, d = .array a → d.reverseKeyEnumerator.take n =
        (((runEntries .empty sampleOps).map Prod.fst).reverse).take n) ∧
      ∀ t, d = .tree t → d.reverseKeyEnumerator.take n = [] :=
  run_enumerators .empty sampleOps (by decide)

end FImmutableSortedDictionary

end TifaSoccer
