import TifaSoccer.Lib.Json

/-!
# Entry lists around one of their entries

A search tree splits its entries at the root: `xs` to the left, `ys` to the right. Reading,
putting and dropping a key then act on one side only. The lemmas come in threes, for a key
below, at and above the middle entry.
-/

namespace Entries

universe u v

variable {K : Type u} {β : Type v} [LinearOrder K]

/-- A list in key order around one entry: the sides are in order and apart. -/
theorem sorted_append_cons {xs ys : List (K × β)} {k : K} {b : β} :
    Sorted (xs ++ (k, b) :: ys) ↔
      Sorted xs ∧ Sorted ys ∧ (∀ x ∈ xs, x.1 < k) ∧ ∀ y ∈ ys, k < y.1 := by
  simp only [Sorted, List.map_append, List.map_cons, List.pairwise_append, List.pairwise_cons,
    List.mem_map, List.mem_cons]
  constructor
  · rintro ⟨hxs, ⟨hk, hys⟩, hcross⟩
    refine ⟨hxs, hys, fun x hx => hcross _ ⟨x, hx, rfl⟩ k (.inl rfl), fun y hy => hk _ ⟨y, hy, rfl⟩⟩
  · rintro ⟨hxs, hys, hlt, hgt⟩
    refine ⟨hxs, ⟨?_, hys⟩, ?_⟩
    · rintro _ ⟨y, hy, rfl⟩
      exact hgt y hy
    · rintro _ ⟨x, hx, rfl⟩ _ (rfl | ⟨y, hy, rfl⟩)
      · exact hlt x hx
      · exact (hlt x hx).trans (hgt y hy)

section Split

variable {xs ys : List (K × β)} {k k' : K} {b' : β}

/-! ## Reading -/

/-- A key that no entry has is not found. -/
theorem find_eq_none_of_forall_ne (h : ∀ x ∈ xs, k ≠ x.1) : find k xs = none := by
  induction xs with
  | nil => rfl
  | cons x xs ih =>
    obtain ⟨k₁, b₁⟩ := x
    rw [find, if_neg (h _ List.mem_cons_self), ih fun x hx => h x (List.mem_cons_of_mem _ hx)]

/-- Reading looks at the first list, then at the second. -/
theorem find_append (k : K) (xs ys : List (K × β)) :
    find k (xs ++ ys) = (find k xs).or (find k ys) := by
  induction xs with
  | nil => simp [find]
  | cons x xs ih =>
    obtain ⟨k₁, b₁⟩ := x
    simp only [List.cons_append, find]
    split_ifs
    · rfl
    · exact ih

/-- A smaller key is to the left of an entry. -/
theorem find_split_lt (h : Sorted (xs ++ (k', b') :: ys)) (hk : k < k') :
    find k (xs ++ (k', b') :: ys) = find k xs := by
  obtain ⟨-, -, -, hgt⟩ := sorted_append_cons.mp h
  have hright : ∀ x ∈ (k', b') :: ys, k ≠ x.1 := by
    intro x hx
    rcases List.mem_cons.mp hx with rfl | hx
    · exact hk.ne
    · exact (hk.trans (hgt x hx)).ne
  rw [find_append, find_eq_none_of_forall_ne hright, Option.or_none]

/-- The key of an entry finds the entry. -/
theorem find_split_eq (h : Sorted (xs ++ (k, b') :: ys)) :
    find k (xs ++ (k, b') :: ys) = some b' :=
  (find_eq_some_iff h).mpr (by simp)

/-- A greater key is to the right of an entry. -/
theorem find_split_gt (h : Sorted (xs ++ (k', b') :: ys)) (hk : k' < k) :
    find k (xs ++ (k', b') :: ys) = find k ys := by
  obtain ⟨-, -, hlt, -⟩ := sorted_append_cons.mp h
  rw [find_append, find_eq_none_of_forall_ne fun x hx => ((hlt x hx).trans hk).ne', Option.none_or,
    find, if_neg hk.ne']

/-! ## Putting -/

/-- A list grows by at most one entry. -/
theorem length_put_le (k : K) (b : β) (es : List (K × β)) :
    (put k b es).length ≤ es.length + 1 := by
  induction es with
  | nil => exact le_rfl
  | cons e es ih =>
    obtain ⟨k', b'⟩ := e
    simp only [put]
    split_ifs
    · exact Nat.le_succ _
    · exact le_rfl
    · exact Nat.succ_le_succ ih

/-- An entry goes behind all smaller ones. -/
theorem put_append_of_forall_lt (b : β) (h : ∀ x ∈ xs, x.1 < k) :
    put k b (xs ++ ys) = xs ++ put k b ys := by
  induction xs with
  | nil => rfl
  | cons x xs ih =>
    obtain ⟨k₁, b₁⟩ := x
    have hx : k₁ < k := h _ List.mem_cons_self
    rw [List.cons_append, put, if_neg hx.ne', if_neg hx.asymm,
      ih fun x hx => h x (List.mem_cons_of_mem _ hx)]
    rfl

/-- A smaller key goes to the left of an entry. -/
theorem put_split_lt (b : β) (hk : k < k') :
    put k b (xs ++ (k', b') :: ys) = put k b xs ++ (k', b') :: ys := by
  induction xs with
  | nil => simp [put, hk, hk.ne]
  | cons x xs ih =>
    obtain ⟨k₁, b₁⟩ := x
    simp only [List.cons_append, put]
    split_ifs
    · rfl
    · rfl
    · rw [ih]
      rfl

/-- The key of an entry replaces its value. -/
theorem put_split_eq (b : β) (h : Sorted (xs ++ (k, b') :: ys)) :
    put k b (xs ++ (k, b') :: ys) = xs ++ (k, b) :: ys := by
  obtain ⟨-, -, hlt, -⟩ := sorted_append_cons.mp h
  rw [put_append_of_forall_lt b hlt, put, if_pos rfl]

/-- A greater key goes to the right of an entry. -/
theorem put_split_gt (b : β) (h : Sorted (xs ++ (k', b') :: ys)) (hk : k' < k) :
    put k b (xs ++ (k', b') :: ys) = xs ++ (k', b') :: put k b ys := by
  obtain ⟨-, -, hlt, -⟩ := sorted_append_cons.mp h
  rw [put_append_of_forall_lt b fun x hx => (hlt x hx).trans hk, put, if_neg hk.ne',
    if_neg hk.asymm]

/-! ## Dropping -/

/-- Nothing is dropped for a key that no entry has. -/
theorem drop_eq_self (h : ∀ x ∈ xs, x.1 ≠ k) : drop k xs = xs := by
  refine List.filter_eq_self.mpr fun x hx => ?_
  exact decide_eq_true (h x hx)

/-- Nothing is dropped for a key that is not found. -/
theorem drop_eq_self_of_find (h : find k xs = none) : drop k xs = xs := by
  apply drop_eq_self
  intro x hx
  induction xs with
  | nil => exact absurd hx List.not_mem_nil
  | cons e xs ih =>
    obtain ⟨k₁, b₁⟩ := e
    rw [find] at h
    split_ifs at h with hk
    rcases List.mem_cons.mp hx with rfl | hx
    · exact fun heq => hk heq.symm
    · exact ih h hx

/-- Dropping works on both lists. -/
theorem drop_append (k : K) (xs ys : List (K × β)) :
    drop k (xs ++ ys) = drop k xs ++ drop k ys :=
  List.filter_append ..

/-- A smaller key is dropped to the left of an entry. -/
theorem drop_split_lt (h : Sorted (xs ++ (k', b') :: ys)) (hk : k < k') :
    drop k (xs ++ (k', b') :: ys) = drop k xs ++ (k', b') :: ys := by
  obtain ⟨-, -, -, hgt⟩ := sorted_append_cons.mp h
  have hright : ∀ x ∈ (k', b') :: ys, x.1 ≠ k := by
    intro x hx
    rcases List.mem_cons.mp hx with rfl | hx
    · exact hk.ne'
    · exact (hk.trans (hgt x hx)).ne'
  rw [drop_append, drop_eq_self hright]

/-- The key of an entry drops the entry. -/
theorem drop_split_eq (h : Sorted (xs ++ (k, b') :: ys)) :
    drop k (xs ++ (k, b') :: ys) = xs ++ ys := by
  obtain ⟨-, -, hlt, hgt⟩ := sorted_append_cons.mp h
  rw [drop_append, drop_eq_self fun x hx => (hlt x hx).ne]
  rw [drop, List.filter_cons_of_neg (by simp), ← drop, drop_eq_self fun y hy => (hgt y hy).ne']

/-- A greater key is dropped to the right of an entry. -/
theorem drop_split_gt (h : Sorted (xs ++ (k', b') :: ys)) (hk : k' < k) :
    drop k (xs ++ (k', b') :: ys) = xs ++ (k', b') :: drop k ys := by
  obtain ⟨-, -, hlt, -⟩ := sorted_append_cons.mp h
  rw [drop_append, drop_eq_self fun x hx => ((hlt x hx).trans hk).ne]
  rw [drop, List.filter_cons_of_pos (by simpa using hk.ne)]
  rfl

end Split

/-- A list in key order is determined by its entries. -/
theorem eq_of_perm {es es' : List (K × β)} (h : Sorted es) (h' : Sorted es')
    (hperm : es.Perm es') : es = es' := by
  have hpairwise : ∀ es : List (K × β), Sorted es → es.Pairwise fun a b => a.1 < b.1 :=
    fun es h => List.pairwise_map.mp h
  exact hperm.eq_of_pairwise (fun a b _ _ hab hba => absurd hba hab.asymm)
    (hpairwise es h) (hpairwise es' h')

/-! ## Splitting a list at a key -/

/-- A list in key order splits at every key: the smaller entries, the entry of the key if there
is one, the larger entries. -/
theorem exists_split {es : List (K × β)} (h : Sorted es) (k : K) :
    ∃ xs ys, (∀ x ∈ xs, x.1 < k) ∧ (∀ y ∈ ys, k < y.1) ∧
      (es = xs ++ ys ∨ ∃ b, es = xs ++ (k, b) :: ys) := by
  induction es with
  | nil => exact ⟨[], [], by simp, by simp, .inl rfl⟩
  | cons e es ih =>
    obtain ⟨k', b'⟩ := e
    have hhead : ∀ x ∈ es.map Prod.fst, k' < x := (List.pairwise_cons.mp h).1
    have htail : Sorted es := (List.pairwise_cons.mp h).2
    have hgt : ∀ y ∈ es, k' < y.1 := fun y hy => hhead _ (List.mem_map_of_mem hy)
    rcases lt_trichotomy k k' with hlt | rfl | hlt
    · refine ⟨[], (k', b') :: es, by simp, ?_, .inl rfl⟩
      intro y hy
      rcases List.mem_cons.mp hy with rfl | hy
      · exact hlt
      · exact hlt.trans (hgt y hy)
    · exact ⟨[], es, by simp, hgt, .inr ⟨b', rfl⟩⟩
    · obtain ⟨xs, ys, hxs, hys, hes⟩ := ih htail
      refine ⟨(k', b') :: xs, ys, ?_, hys, ?_⟩
      · intro x hx
        rcases List.mem_cons.mp hx with rfl | hx
        · exact hlt
        · exact hxs x hx
      · rcases hes with rfl | ⟨b, rfl⟩
        · exact .inl rfl
        · exact .inr ⟨b, rfl⟩

section Absent

variable {xs ys : List (K × β)} {k : K}

/-! A key that no entry has. -/

/-- A key between two lists is not found. -/
theorem find_absent (hxs : ∀ x ∈ xs, x.1 < k) (hys : ∀ y ∈ ys, k < y.1) :
    find k (xs ++ ys) = none := by
  rw [find_append, find_eq_none_of_forall_ne fun x hx => (hxs x hx).ne',
    find_eq_none_of_forall_ne fun y hy => (hys y hy).ne]
  rfl

/-- An entry whose key is between two lists is put between them. -/
theorem put_absent (b : β) (hxs : ∀ x ∈ xs, x.1 < k) (hys : ∀ y ∈ ys, k < y.1) :
    put k b (xs ++ ys) = xs ++ (k, b) :: ys := by
  rw [put_append_of_forall_lt b hxs]
  cases ys with
  | nil => rfl
  | cons y ys =>
    have hy : k < y.1 := hys y List.mem_cons_self
    rw [put, if_neg hy.ne, if_pos hy]

/-- Nothing is dropped for a key between two lists. -/
theorem drop_absent (hxs : ∀ x ∈ xs, x.1 < k) (hys : ∀ y ∈ ys, k < y.1) :
    drop k (xs ++ ys) = xs ++ ys := by
  rw [drop_append, drop_eq_self fun x hx => (hxs x hx).ne, drop_eq_self fun y hy => (hys y hy).ne']

end Absent

/-! ## The entries below and above a key -/

/-- The entries with smaller keys. -/
def below (k : K) (es : List (K × β)) : List (K × β) := es.filter fun e => decide (e.1 < k)

/-- If all entries are below the key, all are taken. -/
theorem below_eq_self {xs : List (K × β)} {k : K} (h : ∀ x ∈ xs, x.1 < k) : below k xs = xs :=
  List.filter_eq_self.mpr fun x hx => decide_eq_true (h x hx)

/-- If no entry is below the key, none is taken. -/
theorem below_eq_nil {xs : List (K × β)} {k : K} (h : ∀ x ∈ xs, k ≤ x.1) : below k xs = [] :=
  List.filter_eq_nil_iff.mpr fun x hx => by simpa using h x hx

/-- The entries of both lists below a key. -/
theorem below_append (k : K) (xs ys : List (K × β)) :
    below k (xs ++ ys) = below k xs ++ below k ys :=
  List.filter_append ..

section Split

variable {xs ys : List (K × β)} {k k' : K} {b : β}

/-- Below a smaller key there are only entries to the left. -/
theorem below_split_lt (h : Sorted (xs ++ (k', b) :: ys)) (hk : k ≤ k') :
    below k (xs ++ (k', b) :: ys) = below k xs := by
  obtain ⟨-, -, -, hgt⟩ := sorted_append_cons.mp h
  have hright : ∀ y ∈ (k', b) :: ys, k ≤ y.1 := by
    intro y hy
    rcases List.mem_cons.mp hy with rfl | hy
    · exact hk
    · exact hk.trans (hgt y hy).le
  rw [below_append, below_eq_nil hright, List.append_nil]

/-- Below the key of an entry there are all entries to its left. -/
theorem below_split_eq (h : Sorted (xs ++ (k, b) :: ys)) :
    below k (xs ++ (k, b) :: ys) = xs := by
  obtain ⟨-, -, hlt, -⟩ := sorted_append_cons.mp h
  rw [below_split_lt h le_rfl, below_eq_self hlt]

/-- Below a greater key there are also entries to the right. -/
theorem below_split_gt (h : Sorted (xs ++ (k', b) :: ys)) (hk : k' < k) :
    below k (xs ++ (k', b) :: ys) = xs ++ (k', b) :: below k ys := by
  obtain ⟨-, -, hlt, -⟩ := sorted_append_cons.mp h
  rw [below_append, below_eq_self fun x hx => (hlt x hx).trans hk, below,
    List.filter_cons_of_pos (by simpa using hk), below]

end Split

/-- A key is found if some entry has it. -/
theorem isSome_find_iff {es : List (K × β)} (h : Sorted es) {k : K} :
    (find k es).isSome = true ↔ ∃ b, (k, b) ∈ es := by
  rw [Option.isSome_iff_exists]
  exact exists_congr fun b => find_eq_some_iff h

/-- A key with nothing below it is not above any entry. -/
theorem getLast?_below_eq_none {es : List (K × β)} {k : K} (h : (below k es).getLast? = none) :
    ∀ e ∈ es, k ≤ e.1 := by
  intro e he
  rw [List.getLast?_eq_none_iff] at h
  simpa using List.filter_eq_nil_iff.mp h e he

/-- The last entry below a key has the largest of the smaller keys. -/
theorem getLast?_below_eq_some {es : List (K × β)} (hs : Sorted es) {k : K} {e : K × β}
    (h : (below k es).getLast? = some e) :
    e ∈ es ∧ e.1 < k ∧ ∀ e' ∈ es, e'.1 < k → e'.1 ≤ e.1 := by
  obtain ⟨rest, hrest⟩ := List.getLast?_eq_some_iff.mp h
  have hmem : e ∈ below k es := hrest ▸ List.mem_append_right _ List.mem_cons_self
  have hsub : Sorted (below k es) := hs.sublist (List.filter_sublist.map Prod.fst)
  refine ⟨(List.mem_filter.mp hmem).1, by simpa using (List.mem_filter.mp hmem).2, ?_⟩
  intro e' he' hlt
  have hmem' : e' ∈ below k es := List.mem_filter.mpr ⟨he', decide_eq_true hlt⟩
  rw [hrest] at hmem' hsub
  rcases List.mem_append.mp hmem' with h' | h'
  · exact ((sorted_append_cons.mp hsub).2.2.1 e' h').le
  · rw [List.mem_singleton.mp h']

/-- The entries whose keys are not smaller. -/
def atLeast (k : K) (es : List (K × β)) : List (K × β) := es.filter fun e => decide (k ≤ e.1)

/-- The entries whose keys are not larger. -/
def atMost (k : K) (es : List (K × β)) : List (K × β) := es.filter fun e => decide (e.1 ≤ k)

section Split

variable {xs ys : List (K × β)} {k k' : K} {b : β}

/-- From a greater key on there are only entries to the right. -/
theorem atLeast_split_gt (h : Sorted (xs ++ (k', b) :: ys)) (hk : k' < k) :
    atLeast k (xs ++ (k', b) :: ys) = atLeast k ys := by
  obtain ⟨-, -, hlt, -⟩ := sorted_append_cons.mp h
  have hleft : xs.filter (fun e => decide (k ≤ e.1)) = [] :=
    List.filter_eq_nil_iff.mpr fun x hx => by simpa using (hlt x hx).trans hk
  rw [atLeast, List.filter_append, hleft, List.nil_append,
    List.filter_cons_of_neg (by simpa using hk), atLeast]

/-- From any other key on there are all entries to the right. -/
theorem atLeast_split_le (h : Sorted (xs ++ (k', b) :: ys)) (hk : k ≤ k') :
    atLeast k (xs ++ (k', b) :: ys) = atLeast k xs ++ (k', b) :: ys := by
  obtain ⟨-, -, -, hgt⟩ := sorted_append_cons.mp h
  have hright : ys.filter (fun e => decide (k ≤ e.1)) = ys :=
    List.filter_eq_self.mpr fun y hy => by simpa using hk.trans (hgt y hy).le
  rw [atLeast, List.filter_append, List.filter_cons_of_pos (by simpa using hk), hright, atLeast]

/-- Up to a smaller key there are only entries to the left. -/
theorem atMost_split_lt (h : Sorted (xs ++ (k', b) :: ys)) (hk : k < k') :
    atMost k (xs ++ (k', b) :: ys) = atMost k xs := by
  obtain ⟨-, -, -, hgt⟩ := sorted_append_cons.mp h
  have hright : ys.filter (fun e => decide (e.1 ≤ k)) = [] :=
    List.filter_eq_nil_iff.mpr fun y hy => by simpa using hk.trans (hgt y hy)
  rw [atMost, List.filter_append, List.filter_cons_of_neg (by simpa using hk), hright,
    List.append_nil, atMost]

/-- Up to any other key there are all entries to the left. -/
theorem atMost_split_ge (h : Sorted (xs ++ (k', b) :: ys)) (hk : k' ≤ k) :
    atMost k (xs ++ (k', b) :: ys) = xs ++ (k', b) :: atMost k ys := by
  obtain ⟨-, -, hlt, -⟩ := sorted_append_cons.mp h
  have hleft : xs.filter (fun e => decide (e.1 ≤ k)) = xs :=
    List.filter_eq_self.mpr fun x hx => by simpa using (hlt x hx).le.trans hk
  rw [atMost, List.filter_append, hleft, List.filter_cons_of_pos (by simpa using hk), atMost]

/-- No entry is taken from a key on that is above all of them. -/
theorem atLeast_eq_nil (h : ∀ x ∈ xs, x.1 < k) : atLeast k xs = [] :=
  List.filter_eq_nil_iff.mpr fun x hx => by simpa using h x hx

/-- Every entry is taken from a key on that is not above any of them. -/
theorem atLeast_eq_self (h : ∀ x ∈ xs, k ≤ x.1) : atLeast k xs = xs :=
  List.filter_eq_self.mpr fun x hx => by simpa using h x hx

/-- No entry is taken up to a key that is below all of them. -/
theorem atMost_eq_nil (h : ∀ x ∈ xs, k < x.1) : atMost k xs = [] :=
  List.filter_eq_nil_iff.mpr fun x hx => by simpa using h x hx

/-- Every entry is taken up to a key that is not below any of them. -/
theorem atMost_eq_self (h : ∀ x ∈ xs, x.1 ≤ k) : atMost k xs = xs :=
  List.filter_eq_self.mpr fun x hx => by simpa using h x hx

/-- The entries of both lists from a key on. -/
theorem atLeast_append (k : K) (xs ys : List (K × β)) :
    atLeast k (xs ++ ys) = atLeast k xs ++ atLeast k ys :=
  List.filter_append ..

/-- The entries of both lists up to a key. -/
theorem atMost_append (k : K) (xs ys : List (K × β)) :
    atMost k (xs ++ ys) = atMost k xs ++ atMost k ys :=
  List.filter_append ..

end Split

/-! ## Values computed from the keys -/

section Map

variable {γ : Type}

/-- A put, in a list whose values are given by a function of the key. -/
theorem map_put (f : K → γ) (k : K) (b : β) (c : γ) {es : List (K × β)} (hs : Sorted es) :
    (put k b es).map (fun e => (e.1, Function.update f k c e.1)) =
      put k c (es.map fun e => (e.1, f e.1)) := by
  induction es with
  | nil => simp [put]
  | cons e es ih =>
    obtain ⟨k', b'⟩ := e
    have hhead : ∀ e ∈ es, k' < e.1 := fun e he =>
      (List.pairwise_cons.mp hs).1 e.1 (List.mem_map_of_mem he)
    have hkeep (hk : ∀ e ∈ es, e.1 ≠ k) :
        es.map (fun e => (e.1, Function.update f k c e.1)) = es.map fun e => (e.1, f e.1) := by
      apply List.map_congr_left
      intro e he
      rw [Function.update_of_ne (hk e he)]
    rw [List.map_cons, put, put]
    by_cases hk : k = k'
    · subst hk
      rw [if_pos rfl, if_pos rfl, List.map_cons, Function.update_self,
        hkeep fun e he => (hhead e he).ne']
    · rw [if_neg hk, if_neg hk]
      by_cases hlt : k < k'
      · rw [if_pos hlt, if_pos hlt, List.map_cons, List.map_cons, Function.update_self,
          Function.update_of_ne (Ne.symm hk), hkeep fun e he => (hlt.trans (hhead e he)).ne']
      · rw [if_neg hlt, if_neg hlt, List.map_cons, Function.update_of_ne (Ne.symm hk),
          ih (List.pairwise_cons.mp hs).2]

/-- Dropping does not look at the values. -/
theorem map_drop (f : K → γ) (k : K) (es : List (K × β)) :
    (drop k es).map (fun e => (e.1, f e.1)) = drop k (es.map fun e => (e.1, f e.1)) := by
  simp only [drop, List.filter_map]
  rfl

/-- Reading where each value is computed from its key. -/
theorem find_map (f : K → γ) (k : K) (es : List (K × β)) :
    find k (es.map fun e => (e.1, f e.1)) = (find k es).map fun _ => f k := by
  induction es with
  | nil => rfl
  | cons e es ih =>
    obtain ⟨k', b'⟩ := e
    rw [List.map_cons, find, find, ih]
    split_ifs with hk
    · rw [hk]
      rfl
    · rfl

end Map

end Entries
