import TifaSoccer.Database.LLRBNode
import TifaSoccer.Lib.Entries

/-!
# The tree stays balanced and keeps its entries

`Balanced` is the invariant `check` tests: no red node has a red left child, no right child is
red, and all paths hold the same number of black nodes. Insertion and removal keep it, and on
the entries they act as `Entries.put` and `Entries.drop`.

Removal goes down the tree with a red link at hand (`HasRed`). `Restores` says what one level
owes its caller: whatever balanced tree comes back from below, `fixUp` makes a balanced tree of
the old black depth of it. A removal also meets a right-leaning node, which `moveRedRight`
leaves behind for the next level.
-/

namespace TifaSoccer

namespace FLLRBNode

open FLLRBColor

variable {K V : Type}

/-! ## The invariant -/

/-- A valid subtree: the colour of its root and its black depth. -/
inductive Balanced : FLLRBNode K V → FLLRBColor → ℕ → Prop
  | empty : Balanced empty BLACK 0
  | red {l r : FLLRBNode K V} {k : K} {v : V} {n : ℕ} (hl : Balanced l BLACK n)
      (hr : Balanced r BLACK n) : Balanced (node RED l k v r) RED n
  | black {l r : FLLRBNode K V} {k : K} {v : V} {c : FLLRBColor} {n : ℕ} (hl : Balanced l c n)
      (hr : Balanced r BLACK n) : Balanced (node BLACK l k v r) BLACK (n + 1)

/-- The colour of the root is the one in the index. -/
theorem Balanced.isRed_eq {t : FLLRBNode K V} {c : FLLRBColor} {n : ℕ} (h : Balanced t c n) :
    t.isRed = decide (c = RED) := by
  cases h <;> rfl

/-- A balanced tree with a black root is not red. -/
@[simp] theorem Balanced.not_isRed {t : FLLRBNode K V} {n : ℕ} (h : Balanced t BLACK n) :
    t.isRed = false := by
  rw [h.isRed_eq]
  rfl

/-- A black tree without black nodes is empty. -/
theorem Balanced.eq_empty {t : FLLRBNode K V} (h : Balanced t BLACK 0) : t = .empty := by
  cases h
  rfl

/-- A black tree of positive depth has a root. -/
theorem Balanced.exists_node {t : FLLRBNode K V} {n : ℕ} (h : Balanced t BLACK (n + 1)) :
    ∃ l k v r c, t = node BLACK l k v r ∧ Balanced l c n ∧ Balanced r BLACK n := by
  cases h with
  | @black l r k v c _ hl hr => exact ⟨l, k, v, r, c, rfl, hl, hr⟩

/-- A red tree has a root over two black trees. -/
theorem Balanced.exists_red {t : FLLRBNode K V} {n : ℕ} (h : Balanced t RED n) :
    ∃ l k v r, t = node RED l k v r ∧ Balanced l BLACK n ∧ Balanced r BLACK n := by
  cases h with
  | @red l r k v _ hl hr => exact ⟨l, k, v, r, rfl, hl, hr⟩

/-- A balanced tree can be painted black. -/
theorem Balanced.withColor_black {t : FLLRBNode K V} {c : FLLRBColor} {n : ℕ}
    (h : Balanced t c n) : ∃ m, Balanced (t.withColor BLACK) BLACK m := by
  cases h with
  | empty => exact ⟨0, .empty⟩
  | red hl hr => exact ⟨_, .black hl hr⟩
  | black hl hr => exact ⟨_, .black hl hr⟩

/-- `check` accepts a balanced tree and returns its black depth. -/
theorem Balanced.check_eq {t : FLLRBNode K V} {c : FLLRBColor} {n : ℕ} (h : Balanced t c n) :
    t.check = .ok n := by
  induction h with
  | empty => rfl
  | red hl hr ihl ihr => simp [check, hl.not_isRed, hr.not_isRed, ihl, ihr, bind, Except.bind]
  | black hl hr ihl ihr => simp [check, hr.not_isRed, ihl, ihr, bind, Except.bind]

/-- A tree of black height `n` has at least `2 ^ n - 1` entries. -/
theorem Balanced.two_pow_le {t : FLLRBNode K V} {c : FLLRBColor} {n : ℕ} (h : Balanced t c n) :
    2 ^ n ≤ t.count + 1 := by
  induction h with
  | empty => rfl
  | red hl hr ihl ihr => simp only [count]; omega
  | black hl hr ihl ihr => simp only [count, pow_succ]; omega

/-- The check of the source succeeds on a balanced tree. -/
theorem Balanced.checkMaxDepth_eq {t : FLLRBNode K V} {c : FLLRBColor} {n : ℕ}
    (h : Balanced t c n) : t.checkMaxDepth = .ok true := by
  simp [checkMaxDepth, h.check_eq, bind, Except.bind, h.two_pow_le]

/-- The number of nodes on the longest path from the root. -/
def depth : FLLRBNode K V → ℕ
  | .empty => 0
  | node _ l _ _ r => max l.depth r.depth + 1

/-- No two red nodes follow each other, so a path is at most twice its black nodes long. -/
theorem Balanced.depth_le {t : FLLRBNode K V} {c : FLLRBColor} {n : ℕ} (h : Balanced t c n) :
    t.depth ≤ 2 * n + if c = RED then 1 else 0 := by
  induction h with
  | empty => rfl
  | red hl hr ihl ihr =>
    simp only [depth, reduceCtorEq, if_false, if_true] at *
    omega
  | black hl hr ihl ihr =>
    simp only [depth, reduceCtorEq, if_false] at *
    split_ifs at ihl <;> omega

/-! ## `fixUp` -/

/-- There is nothing to fix in a balanced tree. -/
theorem Balanced.fixUp_eq {t : FLLRBNode K V} {c : FLLRBColor} {n : ℕ} (h : Balanced t c n) :
    t.fixUp = t := by
  cases h with
  | empty => rfl
  | red hl hr =>
    simp [fixUp, fixRight, fixLeft, fixBoth, hl.not_isRed, hr.not_isRed]
  | black hl hr =>
    cases hl with
    | empty => simp [fixUp, fixRight, fixLeft, fixBoth, hr.not_isRed]
    | red hll hlr => simp [fixUp, fixRight, fixLeft, fixBoth, hr.not_isRed, hll.not_isRed]
    | black hll hlr => simp [fixUp, fixRight, fixLeft, fixBoth, hr.not_isRed]

/-- Under a black root two balanced trees of the same depth become one; two red children are
merged into a red root. -/
theorem fixUp_black {l r : FLLRBNode K V} {cl cr : FLLRBColor} {n : ℕ} (k : K) (v : V)
    (hl : Balanced l cl n) (hr : Balanced r cr n) :
    Balanced (node BLACK l k v r).fixUp (if cl = RED ∧ cr = RED then RED else BLACK) (n + 1) := by
  cases cr with
  | BLACK =>
    have h : Balanced (node BLACK l k v r) BLACK (n + 1) := .black hl hr
    rw [h.fixUp_eq]
    simpa using h
  | RED =>
    obtain ⟨rl, rk, rv, rr, rfl, hrl, hrr⟩ := hr.exists_red
    cases cl with
    | RED =>
      obtain ⟨ll, lk, lv, lr, rfl, hll, hlr⟩ := hl.exists_red
      simpa [fixUp, fixRight, fixLeft, fixBoth, hll.not_isRed, colorFlip, FLLRBColor.flip]
        using Balanced.red (.black hll hlr) (.black hrl hrr)
    | BLACK =>
      simpa [fixUp, fixRight, fixLeft, fixBoth, hl.not_isRed, hrr.not_isRed, rotateLeft]
        using Balanced.black (.red hl hrl) hrr

/-! ## Insertion -/

/-- What `insertKey` makes of a tree: under a red root a second red node may hang to the left. -/
def Inserted (t : FLLRBNode K V) (n : ℕ) : FLLRBColor → Prop
  | BLACK => ∃ c, Balanced t c n
  | RED => ∃ l k v r c, t = node RED l k v r ∧ Balanced l c n ∧ Balanced r BLACK n

/-- A black root above takes the second red node up. -/
theorem Inserted.fixUp_left {l r : FLLRBNode K V} {c : FLLRBColor} {n : ℕ} (k : K) (v : V)
    (hl : Inserted l n c) (hr : Balanced r BLACK n) :
    ∃ c', Balanced (node BLACK l k v r).fixUp c' (n + 1) := by
  cases c with
  | BLACK =>
    obtain ⟨cl, hl⟩ := hl
    exact ⟨_, fixUp_black k v hl hr⟩
  | RED =>
    obtain ⟨ll, lk, lv, lr, cll, rfl, hll, hlr⟩ := hl
    cases cll with
    | BLACK => exact ⟨_, fixUp_black k v (.red hll hlr) hr⟩
    | RED =>
      obtain ⟨a, ak, av, b, rfl, ha, hb⟩ := hll.exists_red
      refine ⟨RED, ?_⟩
      simpa [fixUp, fixRight, fixLeft, fixBoth, hr.not_isRed, rotateRight, colorFlip,
        FLLRBColor.flip] using Balanced.red (.black ha hb) (.black hlr hr)

/-- Under a red root nothing is moved to the right, and a red right child is turned left. -/
theorem inserted_fixUp_red {l r : FLLRBNode K V} {cl cr : FLLRBColor} {n : ℕ} (k : K) (v : V)
    (hl : Balanced l cl n) (hr : Balanced r cr n) (h : cl = BLACK ∨ cr = BLACK) :
    Inserted (node RED l k v r).fixUp n RED := by
  cases cr with
  | BLACK =>
    refine ⟨l, k, v, r, cl, ?_, hl, hr⟩
    cases hl with
    | empty => simp [fixUp, fixRight, fixLeft, fixBoth, hr.not_isRed]
    | red hll hlr => simp [fixUp, fixRight, fixLeft, fixBoth, hr.not_isRed, hll.not_isRed]
    | black hll hlr => simp [fixUp, fixRight, fixLeft, fixBoth, hr.not_isRed]
  | RED =>
    obtain rfl : cl = BLACK := h.resolve_right (by decide)
    obtain ⟨rl, rk, rv, rr, rfl, hrl, hrr⟩ := hr.exists_red
    refine ⟨node RED l k v rl, rk, rv, rr, RED, ?_, .red hl hrl, hrr⟩
    simp [fixUp, fixRight, fixLeft, fixBoth, hl.not_isRed, hrr.not_isRed, rotateLeft]

section Order

variable [LinearOrder K]

/-- The balance of the recursive `insertKey`. -/
theorem inserted_insertKey {t : FLLRBNode K V} {c : FLLRBColor} {n : ℕ} (aKey : K) (aValue : V)
    (h : Balanced t c n) : Inserted (t.insertKey aKey aValue) n c := by
  induction h with
  | empty => exact ⟨RED, .red .empty .empty⟩
  | @red l r k v n hl hr ihl ihr =>
    rw [insertKey]
    cases compare aKey k with
    | lt =>
      obtain ⟨cl, hl'⟩ := ihl
      exact inserted_fixUp_red k v hl' hr (.inr rfl)
    | eq => exact inserted_fixUp_red k aValue hl hr (.inl rfl)
    | gt =>
      obtain ⟨cr, hr'⟩ := ihr
      exact inserted_fixUp_red k v hl hr' (.inl rfl)
  | @black l r k v c n hl hr ihl ihr =>
    rw [insertKey]
    cases compare aKey k with
    | lt => exact ihl.fixUp_left k v hr
    | eq => exact ⟨_, fixUp_black k aValue hl hr⟩
    | gt =>
      obtain ⟨cr, hr'⟩ := ihr
      exact ⟨_, fixUp_black k v hl hr'⟩

/-- The root of the new tree is painted black, which leaves a balanced tree. -/
theorem Balanced.insertKey {t : FLLRBNode K V} {c : FLLRBColor} {n : ℕ} (aKey : K) (aValue : V)
    (h : Balanced t c n) : ∃ m, Balanced ((t.insertKey aKey aValue).withColor BLACK) BLACK m := by
  have hins := inserted_insertKey aKey aValue h
  cases c with
  | BLACK =>
    obtain ⟨c', h'⟩ := hins
    exact h'.withColor_black
  | RED =>
    obtain ⟨l, k, v, r, cl, hins, hl, hr⟩ := hins
    rw [hins]
    exact ⟨n + 1, .black hl hr⟩

/-- The entries of the recursive `insertKey`: the new one is put in its place. -/
theorem inorderTraversal_insertKey {t : FLLRBNode K V} (aKey : K) (aValue : V)
    (h : Entries.Sorted t.inorderTraversal) :
    (t.insertKey aKey aValue).inorderTraversal = Entries.put aKey aValue t.inorderTraversal := by
  induction t with
  | empty => rfl
  | node c l k v r ihl ihr =>
    obtain ⟨hsl, hsr, -, -⟩ := Entries.sorted_append_cons.mp h
    rw [FLLRBNode.insertKey]
    rcases hcmp : compare aKey k with _ | _ | _
    · rw [compare_lt_iff_lt] at hcmp
      simp [ihl hsl, Entries.put_split_lt aValue hcmp]
    · obtain rfl := compare_eq_iff_eq.mp hcmp
      simp [Entries.put_split_eq aValue h]
    · rw [compare_gt_iff_gt] at hcmp
      simp [ihr hsr, Entries.put_split_gt aValue h hcmp]

end Order

/-! ## One level of a removal -/

/-- A red link at hand: the root or its left child is red. -/
def HasRed (t : FLLRBNode K V) : Prop := t.isRed = true ∨ t.left.isRed = true

/-- The empty tree has no red link at hand. -/
theorem HasRed.ne_empty {t : FLLRBNode K V} (h : HasRed t) : t ≠ .empty := by
  rintro rfl
  rcases h with h | h <;> simp at h

/-- `f` puts a subtree back that was taken with colour `c₂` and depth `m` from a tree of colour
`c` and depth `n`: whatever balanced tree of depth `m` it gets, a balanced tree of depth `n`
comes out. A black tree stays black, and a subtree of the old colour gives a tree of the old
colour. -/
def Restores (c : FLLRBColor) (n : ℕ) (c₂ : FLLRBColor) (m : ℕ)
    (f : FLLRBNode K V → FLLRBNode K V) : Prop :=
  ∀ t c', Balanced t c' m → (c₂ = BLACK → c' = BLACK) →
    ∃ c'', Balanced (f t) c'' n ∧ (c = BLACK → c'' = BLACK) ∧ (c' = c₂ → c'' = c)

section Restores

variable {l r : FLLRBNode K V} {n : ℕ} (k : K) (v : V)

/-- Below a red node, on the left. -/
theorem restores_red_left (hr : Balanced r BLACK n) :
    Restores RED n BLACK n fun t => (node RED t k v r).fixUp := by
  intro t c' ht hc
  obtain rfl := hc rfl
  have h : Balanced (node RED t k v r) RED n := .red ht hr
  exact ⟨RED, by simpa only [h.fixUp_eq] using h, by simp, by simp⟩

/-- Below a red node, on the right. -/
theorem restores_red_right (hl : Balanced l BLACK n) :
    Restores RED n BLACK n fun t => (node RED l k v t).fixUp := by
  intro t c' ht hc
  obtain rfl := hc rfl
  have h : Balanced (node RED l k v t) RED n := .red hl ht
  exact ⟨RED, by simpa only [h.fixUp_eq] using h, by simp, by simp⟩

/-- Below a black node, on the left: a node that has become red is fixed. -/
theorem restores_black_left (hr : Balanced r BLACK n) :
    Restores BLACK (n + 1) RED n fun t => (node BLACK t k v r).fixUp := by
  intro t c' ht _
  exact ⟨BLACK, by simpa using fixUp_black k v ht hr, by simp, by simp⟩

/-- Below a black node, on the right: the fix turns it to the left. -/
theorem restores_black_right (hl : Balanced l BLACK n) :
    Restores BLACK (n + 1) RED n fun t => (node BLACK l k v t).fixUp := by
  intro t c' ht _
  exact ⟨BLACK, by simpa using fixUp_black k v hl ht, by simp, by simp⟩

/-- The way back from `colorFlip`, on the left. -/
theorem restores_flip_left (hr : Balanced r RED n) :
    Restores RED (n + 1) RED n fun t => (node BLACK t k v r).fixUp := by
  intro t c' ht _
  refine ⟨_, fixUp_black k v ht hr, by simp, ?_⟩
  rintro rfl
  rfl

/-- The way back from `colorFlip`, on the right. -/
theorem restores_flip_right (hl : Balanced l RED n) :
    Restores RED (n + 1) RED n fun t => (node BLACK l k v t).fixUp := by
  intro t c' ht _
  refine ⟨_, fixUp_black k v hl ht, by simp, ?_⟩
  rintro rfl
  rfl

end Restores

/-- The step to the left: the left child of the prepared node has a red link, and what comes
back from it can be put back. -/
theorem prepareLeft_spec {c : FLLRBColor} {l r : FLLRBNode K V} {k : K} {v : V} {n : ℕ}
    (h : Balanced (node c l k v r) c n) (hred : HasRed (node c l k v r)) (hne : l ≠ .empty) :
    ∃ c₁ l₁ k₁ v₁ r₁ c₂ m, (node c l k v r).prepareLeft = node c₁ l₁ k₁ v₁ r₁ ∧
      (k₁ = k ∨ (k₁, v₁) ∈ r.inorderTraversal) ∧ Balanced l₁ c₂ m ∧ HasRed l₁ ∧
      Restores c n c₂ m fun t => (node c₁ t k₁ v₁ r₁).fixUp := by
  cases h with
  | red hl hr =>
    -- a left child that is not empty is a black node, and so is the right one
    cases n with
    | zero => exact absurd hl.eq_empty hne
    | succ m =>
      obtain ⟨ll, lk, lv, lr, cll, rfl, hll, hlr⟩ := hl.exists_node
      obtain ⟨rl, rk, rv, rr, crl, rfl, hrl, hrr⟩ := hr.exists_node
      cases cll with
      | RED =>
        refine ⟨RED, _, k, v, _, BLACK, m + 1, ?_, .inl rfl, hl, .inr ?_, restores_red_left k v hr⟩
        · simp [prepareLeft, hll.isRed_eq]
        · simp [hll.isRed_eq]
      | BLACK =>
        cases crl with
        | BLACK =>
          -- both children are flipped to red
          refine ⟨BLACK, node RED ll lk lv lr, k, v, node RED rl rk rv rr, RED, m, ?_, .inl rfl,
            .red hll hlr, .inl rfl, restores_flip_left k v (.red hrl hrr)⟩
          simp [prepareLeft, moveRedLeft, colorFlip, FLLRBColor.flip, hll.not_isRed, hrl.not_isRed]
        | RED =>
          -- the smallest entry of the right child becomes the root
          obtain ⟨a, ak, av, b, rfl, ha, hb⟩ := hrl.exists_red
          refine ⟨RED, node BLACK (node RED ll lk lv lr) k v a, ak, av, node BLACK b rk rv rr,
            BLACK, m + 1, ?_, .inr ?_, .black (.red hll hlr) ha, .inr rfl,
            restores_red_left ak av (.black hb hrr)⟩
          · simp [prepareLeft, moveRedLeft, colorFlip, FLLRBColor.flip, hll.not_isRed, rotateLeft,
              rotateRight]
          · simp
  | @black _ _ _ _ cl m hl hr =>
    -- the red link of a black root is its left child
    have hcl : l.isRed = true := hred.resolve_left (by simp)
    obtain rfl : cl = RED := by simpa [hl.isRed_eq] using hcl
    refine ⟨BLACK, l, k, v, r, RED, m, ?_, .inl rfl, hl, .inl hcl, restores_black_left k v hr⟩
    simp [prepareLeft, hcl]

/-! ## Removal of the smallest entry -/

/-- `min` is the first entry. -/
theorem min_eq_head? (t : FLLRBNode K V) : t.min = t.inorderTraversal.head? := by
  induction t with
  | empty => rfl
  | node c l k v r ihl _ =>
    cases l with
    | empty => rfl
    | node lc ll lk lv lr =>
      rw [FLLRBNode.min, ihl]
      · simp
      · simp

/-- A tree that is not empty has an entry. -/
theorem inorderTraversal_ne_nil {t : FLLRBNode K V} (h : t ≠ .empty) :
    t.inorderTraversal ≠ [] := by
  cases t with
  | empty => exact absurd rfl h
  | node c l k v r => simp

/-- With a red link at hand, `removeMin` takes the first entry away and keeps the balance. -/
theorem removeMin_spec {t : FLLRBNode K V} {c : FLLRBColor} {n : ℕ} (h : Balanced t c n)
    (hred : HasRed t) :
    (∃ c', Balanced t.removeMin c' n ∧ (c = BLACK → c' = BLACK)) ∧
      t.removeMin.inorderTraversal = t.inorderTraversal.tail := by
  induction t using removeMin.induct generalizing c n with
  | case1 => exact absurd rfl hred.ne_empty
  | case2 c' l k v r hl =>
    -- a node without a left child is a red leaf
    obtain rfl : l = .empty := by
      cases l with
      | empty => rfl
      | node => simp at hl
    rw [removeMin, if_pos hl]
    cases h with
    | red hl hr =>
      cases hl
      obtain rfl := hr.eq_empty
      exact ⟨⟨BLACK, .empty, fun _ => rfl⟩, rfl⟩
    | black hl hr =>
      rcases hred with hred | hred <;> simp at hred
  | case3 c' l k v r hl n' =>
    rename_i ih
    obtain rfl : c = c' := by cases h <;> rfl
    have hne : l ≠ .empty := by
      rintro rfl
      simp at hl
    obtain ⟨c₁, l₁, k₁, v₁, r₁, c₂, m, hprep, -, hbal, hred₁, hrest⟩ :=
      prepareLeft_spec h hred hne
    rw [removeMin, if_neg hl]
    simp only [hprep, left_node, withLeft_node]
    simp only [n', hprep, left_node] at ih
    obtain ⟨⟨c', hbal', hc'⟩, hin⟩ := ih hbal hred₁
    obtain ⟨c'', hbal'', hc'', -⟩ := hrest _ c' hbal' hc'
    refine ⟨⟨c'', hbal'', hc''⟩, ?_⟩
    have hlist := inorderTraversal_prepareLeft (node c l k v r)
    rw [hprep] at hlist
    rw [inorderTraversal_fixUp, ← hlist, inorderTraversal, inorderTraversal, hin,
      List.tail_append_of_ne_nil (inorderTraversal_ne_nil hred₁.ne_empty)]

/-! ## One step of `remove` -/

/-- A tree with entries is a node. -/
theorem exists_node_of_count_pos {t : FLLRBNode K V} (h : 0 < t.count) :
    ∃ c l k v r, t = node c l k v r := by
  cases t with
  | empty => simp at h
  | node c l k v r => exact ⟨c, l, k, v, r, rfl⟩

/-- Without a left child there is nothing to prepare. -/
theorem prepareLeft_of_left_empty (c : FLLRBColor) (k : K) (v : V) (r : FLLRBNode K V) :
    (node c .empty k v r).prepareLeft = node c .empty k v r := by
  simp [prepareLeft]

/-- The preparation of a node on the left is a node. -/
theorem exists_prepareLeft (c : FLLRBColor) (l : FLLRBNode K V) (k : K) (v : V)
    (r : FLLRBNode K V) :
    ∃ c₁ l₁ k₁ v₁ r₁, (node c l k v r).prepareLeft = node c₁ l₁ k₁ v₁ r₁ := by
  apply exists_node_of_count_pos
  rw [count_prepareLeft, count]
  omega

/-- The preparation of a node on the right is a node. -/
theorem exists_prepareRight (c : FLLRBColor) (l : FLLRBNode K V) (k : K) (v : V)
    (r : FLLRBNode K V) :
    ∃ c₁ l₁ k₁ v₁ r₁, (node c l k v r).prepareRight = node c₁ l₁ k₁ v₁ r₁ := by
  apply exists_node_of_count_pos
  rw [count_prepareRight, count]
  omega

section Step

variable [LinearOrder K] {aKey k k₁ : K} {c c₁ : FLLRBColor} {l r l₁ r₁ : FLLRBNode K V}
  {v v₁ : V}

/-- The branch of `remove` for a smaller key, with its preparation done. -/
theorem remove_of_lt (h : aKey < k) (hp : (node c l k v r).prepareLeft = node c₁ l₁ k₁ v₁ r₁) :
    (node c l k v r).remove aKey = (node c₁ (l₁.remove aKey) k₁ v₁ r₁).fixUp := by
  rw [remove, if_pos (compare_lt_iff_lt.mpr h)]
  simp only [hp, left_node, withLeft_node]

/-- The key is at a node without right child. -/
theorem remove_of_eq_last (h : k ≤ aKey)
    (hp : (node c l k v r).prepareRight = node c₁ l₁ aKey v₁ r₁) (hmin : r₁.min = none) :
    (node c l k v r).remove aKey = .empty := by
  rw [remove, if_neg (mt compare_lt_iff_lt.mp h.not_gt)]
  split
  · rfl
  · rename_i heq
    rw [hp] at heq
    cases heq
    rw [if_pos (compare_eq_iff_eq.mpr rfl), hmin]

/-- The key is at a node with a right child, whose smallest entry takes its place. -/
theorem remove_of_eq {sk : K} {sv : V} (h : k ≤ aKey)
    (hp : (node c l k v r).prepareRight = node c₁ l₁ aKey v₁ r₁)
    (hmin : r₁.min = some (sk, sv)) :
    (node c l k v r).remove aKey = (node c₁ l₁ sk sv (r₁.removeMin.remove aKey)).fixUp := by
  rw [remove, if_neg (mt compare_lt_iff_lt.mp h.not_gt)]
  split
  · simp_all
  · rename_i heq
    rw [hp] at heq
    cases heq
    rw [if_pos (compare_eq_iff_eq.mpr rfl), hmin]

/-- The branch of `remove` for a greater key, with its preparation done. -/
theorem remove_of_ne (h : k ≤ aKey) (hp : (node c l k v r).prepareRight = node c₁ l₁ k₁ v₁ r₁)
    (hk : k₁ ≠ aKey) :
    (node c l k v r).remove aKey = (node c₁ l₁ k₁ v₁ (r₁.remove aKey)).fixUp := by
  rw [remove, if_neg (mt compare_lt_iff_lt.mp h.not_gt)]
  split
  · simp_all
  · rename_i heq
    rw [hp] at heq
    cases heq
    rw [if_neg (mt compare_eq_iff_eq.mp hk.symm)]

end Step

/-! ## The colour of the root

The root of a tree has no parent to answer to, so removal starts with a black root that may
have no red child. Nothing in `remove` depends on the colour of the root: it acts on the tree
with a red root in the same way. -/

def flipRoot (t : FLLRBNode K V) : FLLRBNode K V := t.withColor t.color.flip

section FlipRoot

variable (t : FLLRBNode K V)

/-- The empty tree has no colour to flip. -/
@[simp] theorem flipRoot_empty : (.empty : FLLRBNode K V).flipRoot = .empty := rfl

/-- A node takes the other colour. -/
@[simp] theorem flipRoot_node (c : FLLRBColor) (l : FLLRBNode K V) (k : K) (v : V)
    (r : FLLRBNode K V) : (node c l k v r).flipRoot = node c.flip l k v r := rfl

/-- The left child does not depend on the colour of the root. -/
@[simp] theorem left_flipRoot : t.flipRoot.left = t.left := by cases t <;> rfl

/-- The right child does not depend on it either. -/
@[simp] theorem right_flipRoot : t.flipRoot.right = t.right := by cases t <;> rfl

/-- The entries do not depend on it. -/
@[simp] theorem inorderTraversal_flipRoot :
    t.flipRoot.inorderTraversal = t.inorderTraversal := by
  cases t <;> rfl

/-- A rotation hands the colour of the root to the new root. -/
theorem rotateLeft_flipRoot : t.flipRoot.rotateLeft = t.rotateLeft.flipRoot := by
  cases t with
  | empty => rfl
  | node c l k v r => cases r <;> rfl

/-- So does the other rotation. -/
theorem rotateRight_flipRoot : t.flipRoot.rotateRight = t.rotateRight.flipRoot := by
  cases t with
  | empty => rfl
  | node c l k v r => cases l <;> rfl

/-- A flip of colours flips the one of the root, whatever it is. -/
theorem colorFlip_flipRoot : t.flipRoot.colorFlip = t.colorFlip.flipRoot := by
  cases t <;> rfl

/-- A new right child keeps the colour. -/
theorem withRight_flipRoot (r : FLLRBNode K V) :
    t.flipRoot.withRight r = (t.withRight r).flipRoot := by
  cases t <;> rfl

/-- The fix does not look at the colour of the root. -/
theorem fixUp_flipRoot : t.flipRoot.fixUp = t.fixUp.flipRoot := by
  have hright : ∀ t : FLLRBNode K V, t.flipRoot.fixRight = t.fixRight.flipRoot := by
    intro t
    simp only [fixRight, left_flipRoot, right_flipRoot]
    split_ifs
    · exact rotateLeft_flipRoot t
    · rfl
  have hleft : ∀ t : FLLRBNode K V, t.flipRoot.fixLeft = t.fixLeft.flipRoot := by
    intro t
    simp only [fixLeft, left_flipRoot]
    split_ifs
    · exact rotateRight_flipRoot t
    · rfl
  have hboth : ∀ t : FLLRBNode K V, t.flipRoot.fixBoth = t.fixBoth.flipRoot := by
    intro t
    simp only [fixBoth, left_flipRoot, right_flipRoot]
    split_ifs
    · exact colorFlip_flipRoot t
    · rfl
  rw [fixUp, hright, hleft, hboth, fixUp]

/-- Moving a red link to the left flips the colour of the root, whatever it is. -/
theorem moveRedLeft_flipRoot : t.flipRoot.moveRedLeft = t.moveRedLeft.flipRoot := by
  simp only [moveRedLeft, colorFlip_flipRoot, right_flipRoot]
  split_ifs
  · rw [withRight_flipRoot, rotateLeft_flipRoot, colorFlip_flipRoot]
  · rfl

/-- Moving a red link to the right flips it too. -/
theorem moveRedRight_flipRoot : t.flipRoot.moveRedRight = t.moveRedRight.flipRoot := by
  simp only [moveRedRight, colorFlip_flipRoot, left_flipRoot]
  split_ifs
  · rw [rotateRight_flipRoot, colorFlip_flipRoot]
  · rfl

/-- The preparation on the left does not look at the colour of the root. -/
theorem prepareLeft_flipRoot : t.flipRoot.prepareLeft = t.prepareLeft.flipRoot := by
  simp only [prepareLeft, left_flipRoot]
  split_ifs
  · exact moveRedLeft_flipRoot t
  · rfl

/-- The preparation on the right does not look at it either. -/
theorem prepareRight_flipRoot : t.flipRoot.prepareRight = t.prepareRight.flipRoot := by
  have hrot : (if t.flipRoot.left.isRed then t.flipRoot.rotateRight else t.flipRoot) =
      (if t.left.isRed then t.rotateRight else t).flipRoot := by
    rw [left_flipRoot]
    split_ifs
    · exact rotateRight_flipRoot t
    · rfl
  simp only [prepareRight, hrot]
  generalize (if t.left.isRed then t.rotateRight else t) = t
  simp only [right_flipRoot]
  split_ifs
  · exact moveRedRight_flipRoot t
  · rfl

/-- The colour of the root is what it was, or the other one if it was flipped before. -/
theorem remove_flipRoot [LinearOrder K] (aKey : K) :
    t.flipRoot.remove aKey = (t.remove aKey).flipRoot := by
  cases t with
  | empty => simp [remove]
  | node c l k v r =>
    rcases lt_or_ge aKey k with hlt | hge
    · obtain ⟨c₁, l₁, k₁, v₁, r₁, hp⟩ := exists_prepareLeft c l k v r
      have hp' := prepareLeft_flipRoot (node c l k v r)
      rw [hp, flipRoot_node, flipRoot_node] at hp'
      rw [flipRoot_node, remove_of_lt hlt hp', remove_of_lt hlt hp, ← fixUp_flipRoot,
        flipRoot_node]
    · obtain ⟨c₁, l₁, k₁, v₁, r₁, hp⟩ := exists_prepareRight c l k v r
      have hp' := prepareRight_flipRoot (node c l k v r)
      rw [hp, flipRoot_node, flipRoot_node] at hp'
      by_cases hk : k₁ = aKey
      · subst hk
        rw [flipRoot_node]
        rcases hmin : r₁.min with _ | ⟨sk, sv⟩
        · rw [remove_of_eq_last hge hp' hmin, remove_of_eq_last hge hp hmin, flipRoot_empty]
        · rw [remove_of_eq hge hp' hmin, remove_of_eq hge hp hmin, ← fixUp_flipRoot, flipRoot_node]
      · rw [flipRoot_node, remove_of_ne hge hp' hk, remove_of_ne hge hp hk, ← fixUp_flipRoot,
          flipRoot_node]

end FlipRoot

/-! ## The second search

After the smallest entry of the right subtree has taken the place of the removed one, `remove`
looks for the key once more, in a subtree all of whose keys are larger. That search rotates and
flips colours on its way down, and the way back undoes it. -/

section Order

variable [LinearOrder K]

/-- The search goes to the left until there is nothing left to prepare. -/
theorem remove_below_of_hasRed {t : FLLRBNode K V} {c : FLLRBColor} {n : ℕ} {aKey : K}
    (h : Balanced t c n) (hred : HasRed t) (hs : Entries.Sorted t.inorderTraversal)
    (hlt : ∀ e ∈ t.inorderTraversal, aKey < e.1) :
    Balanced (t.remove aKey) c n ∧ (t.remove aKey).inorderTraversal = t.inorderTraversal := by
  induction hN : t.count using Nat.strong_induction_on generalizing t c n with
  | _ N ih =>
    cases t with
    | empty => exact absurd rfl hred.ne_empty
    | node c' l k v r =>
      obtain rfl : c = c' := by cases h <;> rfl
      have hk : aKey < k := hlt (k, v) (by simp)
      by_cases hne : l = .empty
      · -- the bottom: nothing is there to be removed
        subst hne
        rw [remove_of_lt hk (prepareLeft_of_left_empty c k v r), remove, h.fixUp_eq]
        exact ⟨h, rfl⟩
      · obtain ⟨c₁, l₁, k₁, v₁, r₁, c₂, m, hprep, -, hbal, hred₁, hrest⟩ :=
          prepareLeft_spec h hred hne
        have hlist := inorderTraversal_prepareLeft (node c l k v r)
        have hcount := count_prepareLeft (node c l k v r)
        rw [hprep] at hlist hcount
        rw [← hlist, inorderTraversal] at hs hlt
        have hlt₁ : l₁.count < N := by
          simp only [count] at hcount hN
          omega
        obtain ⟨hs₁, -, -, -⟩ := Entries.sorted_append_cons.mp hs
        obtain ⟨hbal', hin⟩ := ih _ hlt₁ hbal hred₁ hs₁
          (fun e he => hlt e (List.mem_append_left _ he)) rfl
        obtain ⟨c'', hbal'', -, hc''⟩ := hrest _ _ hbal' (fun h => h)
        obtain rfl := hc'' rfl
        rw [remove_of_lt hk hprep]
        refine ⟨hbal'', ?_⟩
        rw [inorderTraversal_fixUp, ← hlist, inorderTraversal, inorderTraversal, hin]

/-- The search for a key below all keys of a balanced tree leaves a balanced tree of the same
colour and depth with the same entries. -/
theorem remove_below {t : FLLRBNode K V} {c : FLLRBColor} {n : ℕ} {aKey : K}
    (h : Balanced t c n) (hs : Entries.Sorted t.inorderTraversal)
    (hlt : ∀ e ∈ t.inorderTraversal, aKey < e.1) :
    Balanced (t.remove aKey) c n ∧ (t.remove aKey).inorderTraversal = t.inorderTraversal := by
  cases h with
  | empty =>
    rw [remove]
    exact ⟨.empty, rfl⟩
  | red hl hr => exact remove_below_of_hasRed (.red hl hr) (.inl rfl) hs hlt
  | @black l r k v cl m hl hr =>
    cases cl with
    | RED =>
      have hred : HasRed (node BLACK l k v r) := .inr (by simp [hl.isRed_eq])
      exact remove_below_of_hasRed (.black hl hr) hred hs hlt
    | BLACK =>
      -- the same tree with a red root
      have hflip : node BLACK l k v r = (node RED l k v r).flipRoot := rfl
      obtain ⟨hbal, hin⟩ :=
        remove_below_of_hasRed (.red hl hr : Balanced (node RED l k v r) RED m) (.inl rfl) hs hlt
      rw [hflip, remove_flipRoot, inorderTraversal_flipRoot, inorderTraversal_flipRoot]
      refine ⟨?_, hin⟩
      obtain ⟨l', k', v', r', heq, hl', hr'⟩ := hbal.exists_red
      rw [heq]
      exact .black hl' hr'

/-! ## The step to the right -/

/-- The trees `remove` is sent to: balanced ones with a red link, and what `moveRedRight` leaves
for the next level, a black node with a red right child and a key that is not too large. -/
inductive Descends (aKey : K) : FLLRBNode K V → FLLRBColor → ℕ → Prop
  | balanced {t : FLLRBNode K V} {c : FLLRBColor} {n : ℕ} (h : Balanced t c n)
      (hred : HasRed t) : Descends aKey t c n
  | leaning {l r : FLLRBNode K V} {k : K} {v : V} {n : ℕ} (hl : Balanced l BLACK n)
      (hr : Balanced r RED n) (hk : k ≤ aKey) : Descends aKey (node BLACK l k v r) BLACK (n + 1)

/-- The prepared node has a right child to go on with, and the root may have changed to one of
the left child; or the node is a leaf. -/
theorem prepareRight_spec {aKey : K} {c : FLLRBColor} {l r : FLLRBNode K V} {k : K} {v : V}
    {n : ℕ} (h : Descends aKey (node c l k v r) c n) (hk : k ≤ aKey) :
    (l = .empty ∧ r = .empty ∧ n = 0 ∧ (node c l k v r).prepareRight = node c l k v r) ∨
    (∃ c₁ l₁ r₁ c₂ m, (node c l k v r).prepareRight = node c₁ l₁ k v r₁ ∧
      Balanced r₁ c₂ m ∧ HasRed r₁ ∧
      ∀ k' v', Restores c n c₂ m fun t => (node c₁ l₁ k' v' t).fixUp) ∨
    (∃ c₁ l₁ k₁ v₁ r₁ c₂ m, (node c l k v r).prepareRight = node c₁ l₁ k₁ v₁ r₁ ∧
      (k₁, v₁) ∈ l.inorderTraversal ∧ Descends aKey r₁ c₂ m ∧
      Restores c n c₂ m fun t => (node c₁ l₁ k₁ v₁ t).fixUp) := by
  cases h with
  | @leaning _ _ _ _ m hl hr _ =>
    obtain ⟨rl, rk, rv, rr, rfl, -, -⟩ := hr.exists_red
    refine .inr (.inl ⟨BLACK, l, _, RED, m, ?_, hr, .inl rfl,
      fun k' v' => restores_black_right k' v' hl⟩)
    simp [prepareRight, hl.not_isRed]
  | balanced h hred =>
    cases h with
    | red hl hr =>
      cases n with
      | zero =>
        obtain rfl := hl.eq_empty
        obtain rfl := hr.eq_empty
        exact .inl ⟨rfl, rfl, rfl, by simp [prepareRight]⟩
      | succ m =>
        obtain ⟨ll, lk, lv, lr, cll, rfl, hll, hlr⟩ := hl.exists_node
        obtain ⟨rl, rk, rv, rr, crl, rfl, hrl, hrr⟩ := hr.exists_node
        cases crl with
        | RED =>
          refine .inr (.inl ⟨RED, _, _, BLACK, m + 1, ?_, hr, .inr ?_,
            fun k' v' => restores_red_right k' v' hl⟩)
          · simp [prepareRight, hrl.isRed_eq]
          · simp [hrl.isRed_eq]
        | BLACK =>
          cases cll with
          | BLACK =>
            refine .inr (.inl ⟨BLACK, node RED ll lk lv lr, node RED rl rk rv rr, RED, m, ?_,
              .red hrl hrr, .inl rfl, fun k' v' => restores_flip_right k' v' (.red hll hlr)⟩)
            simp [prepareRight, moveRedRight, colorFlip, FLLRBColor.flip, hll.not_isRed,
              hrl.not_isRed]
          | RED =>
            -- the left child becomes the root, the old root leans to the right
            obtain ⟨a, ak, av, b, rfl, ha, hb⟩ := hll.exists_red
            refine .inr (.inr ⟨RED, node BLACK a ak av b, lk, lv,
              node BLACK lr k v (node RED rl rk rv rr), BLACK, m + 1, ?_, ?_,
              .leaning hlr (.red hrl hrr) hk, restores_red_right lk lv (.black ha hb)⟩)
            · simp [prepareRight, moveRedRight, colorFlip, FLLRBColor.flip, hrl.not_isRed,
                rotateRight]
            · simp
    | @black _ _ _ _ cl m hl hr =>
      have hcl : l.isRed = true := hred.resolve_left (by simp)
      obtain rfl : cl = RED := by simpa [hl.isRed_eq] using hcl
      obtain ⟨ll, lk, lv, lr, rfl, hll, hlr⟩ := hl.exists_red
      refine .inr (.inr ⟨BLACK, ll, lk, lv, node RED lr k v r, RED, m, ?_, ?_,
        .balanced (.red hlr hr) (.inl rfl), restores_black_right lk lv hll⟩)
      · simp [prepareRight, rotateRight]
      · simp

/-! ## Removal -/

/-- What a removal owes: a balanced tree of the same depth without the key. -/
def Removed (aKey : K) (t t' : FLLRBNode K V) (c : FLLRBColor) (n : ℕ) : Prop :=
  (∃ c', Balanced t' c' n ∧ (c = BLACK → c' = BLACK)) ∧
    t'.inorderTraversal = Entries.drop aKey t.inorderTraversal

/-- The key is to the left, where `ih` removes it. -/
theorem removed_left {c : FLLRBColor} {l r : FLLRBNode K V} {k : K} {v : V} {n : ℕ} {aKey : K}
    (h : Balanced (node c l k v r) c n) (hred : HasRed (node c l k v r))
    (hs : Entries.Sorted (node c l k v r).inorderTraversal) (hk : aKey < k)
    (ih : ∀ (t : FLLRBNode K V) c' m, t.count < (node c l k v r).count → Descends aKey t c' m →
      Entries.Sorted t.inorderTraversal → Removed aKey t (t.remove aKey) c' m) :
    Removed aKey (node c l k v r) ((node c l k v r).remove aKey) c n := by
  by_cases hne : l = .empty
  · subst hne
    rw [remove_of_lt hk (prepareLeft_of_left_empty c k v r), remove, h.fixUp_eq]
    exact ⟨⟨c, h, fun hc => hc⟩, (Entries.drop_split_lt hs hk).symm⟩
  · obtain ⟨c₁, l₁, k₁, v₁, r₁, c₂, m, hprep, hk₁, hbal, hred₁, hrest⟩ :=
      prepareLeft_spec h hred hne
    have hlt₁ : aKey < k₁ := by
      rcases hk₁ with rfl | hmem
      · exact hk
      · exact hk.trans ((Entries.sorted_append_cons.mp hs).2.2.2 _ hmem)
    have hlist := inorderTraversal_prepareLeft (node c l k v r)
    have hcount := count_prepareLeft (node c l k v r)
    rw [hprep, inorderTraversal] at hlist
    rw [hprep, count] at hcount
    rw [← hlist] at hs
    obtain ⟨⟨c', hbal', hc'⟩, hin⟩ :=
      ih l₁ c₂ m (by omega) (.balanced hbal hred₁) (Entries.sorted_append_cons.mp hs).1
    obtain ⟨c'', hout, hc'', -⟩ := hrest _ c' hbal' hc'
    rw [remove_of_lt hk hprep]
    refine ⟨⟨c'', hout, hc''⟩, ?_⟩
    rw [inorderTraversal_fixUp, ← hlist, inorderTraversal, hin, Entries.drop_split_lt hs hlt₁]

/-- The key is at the root, and the right subtree has an entry to take its place. -/
theorem removed_root {c c₁ c₂ : FLLRBColor} {l r l₁ r₁ : FLLRBNode K V} {v v₁ : V}
    {n m : ℕ} {aKey k : K} (hk : k ≤ aKey)
    (hprep : (node c l k v r).prepareRight = node c₁ l₁ aKey v₁ r₁)
    (hs : Entries.Sorted (node c l k v r).inorderTraversal) (hbal : Balanced r₁ c₂ m)
    (hred : HasRed r₁)
    (hrest : ∀ k v, Restores c n c₂ m fun t => (node c₁ l₁ k v t).fixUp) :
    Removed aKey (node c l k v r) ((node c l k v r).remove aKey) c n := by
  have hlist := inorderTraversal_prepareRight (node c l k v r)
  rw [hprep, inorderTraversal] at hlist
  rw [← hlist] at hs
  obtain ⟨-, hsr, -, hgt⟩ := Entries.sorted_append_cons.mp hs
  obtain ⟨⟨c', hbal', hc'⟩, htail⟩ := removeMin_spec hbal hred
  obtain ⟨⟨sk, sv⟩, rest, hr₁⟩ :=
    List.exists_cons_of_ne_nil (inorderTraversal_ne_nil hred.ne_empty)
  have hmin : r₁.min = some (sk, sv) := by rw [min_eq_head?, hr₁, List.head?_cons]
  rw [hr₁, List.tail_cons] at htail
  rw [hr₁] at hsr hgt
  -- what is left of the right subtree only has larger keys
  obtain ⟨hbal'', hin⟩ := remove_below hbal' (htail ▸ (List.pairwise_cons.mp hsr).2)
    (fun e he => hgt e (List.mem_cons_of_mem _ (htail ▸ he)))
  obtain ⟨c'', hout, hc'', -⟩ := hrest sk sv _ c' hbal'' hc'
  rw [remove_of_eq hk hprep hmin]
  refine ⟨⟨c'', hout, hc''⟩, ?_⟩
  rw [inorderTraversal_fixUp, ← hlist, inorderTraversal, hin, htail, Entries.drop_split_eq hs, hr₁]

/-- The key is to the right of the prepared root, where `ih` removes it. -/
theorem removed_right {c c₁ c₂ : FLLRBColor} {l r l₁ r₁ : FLLRBNode K V} {v v₁ : V}
    {n m : ℕ} {aKey k k₁ : K} (hk : k ≤ aKey)
    (hprep : (node c l k v r).prepareRight = node c₁ l₁ k₁ v₁ r₁) (hk₁ : k₁ < aKey)
    (hs : Entries.Sorted (node c l k v r).inorderTraversal) (hdesc : Descends aKey r₁ c₂ m)
    (hrest : Restores c n c₂ m fun t => (node c₁ l₁ k₁ v₁ t).fixUp)
    (ih : ∀ (t : FLLRBNode K V) c' m, t.count < (node c l k v r).count → Descends aKey t c' m →
      Entries.Sorted t.inorderTraversal → Removed aKey t (t.remove aKey) c' m) :
    Removed aKey (node c l k v r) ((node c l k v r).remove aKey) c n := by
  have hlist := inorderTraversal_prepareRight (node c l k v r)
  have hcount := count_prepareRight (node c l k v r)
  rw [hprep, inorderTraversal] at hlist
  rw [hprep, count] at hcount
  rw [← hlist] at hs
  obtain ⟨⟨c', hbal', hc'⟩, hin⟩ :=
    ih r₁ c₂ m (by omega) hdesc (Entries.sorted_append_cons.mp hs).2.1
  obtain ⟨c'', hout, hc'', -⟩ := hrest _ c' hbal' hc'
  rw [remove_of_ne hk hprep hk₁.ne]
  refine ⟨⟨c'', hout, hc''⟩, ?_⟩
  rw [inorderTraversal_fixUp, ← hlist, inorderTraversal, hin, Entries.drop_split_gt hs hk₁]

/-- What a removal does below the root, by induction on the number of entries. -/
theorem Descends.removed {t : FLLRBNode K V} {c : FLLRBColor} {n : ℕ} {aKey : K}
    (h : Descends aKey t c n) (hs : Entries.Sorted t.inorderTraversal) :
    Removed aKey t (t.remove aKey) c n := by
  induction hN : t.count using Nat.strong_induction_on generalizing t c n with
  | _ N ih =>
    cases t with
    | empty =>
      cases h with
      | balanced h hred => exact absurd rfl hred.ne_empty
    | node c' l k v r =>
      obtain rfl : c = c' := by
        cases h with
        | balanced h _ => cases h <;> rfl
        | leaning => rfl
      have ih' : ∀ (t : FLLRBNode K V) c' m, t.count < (node c l k v r).count →
          Descends aKey t c' m →
          Entries.Sorted t.inorderTraversal → Removed aKey t (t.remove aKey) c' m :=
        fun t c' m hlt hd hst => ih _ (hN ▸ hlt) hd hst rfl
      rcases lt_or_ge aKey k with hlt | hge
      · cases h with
        | balanced h hred => exact removed_left h hred hs hlt ih'
        | leaning hl hr hk => exact absurd hk hlt.not_ge
      · rcases prepareRight_spec h hge with ⟨rfl, rfl, rfl, hprep⟩ |
          ⟨c₁, l₁, r₁, c₂, m, hprep, hbal, hred, hrest⟩ |
          ⟨c₁, l₁, k₁, v₁, r₁, c₂, m, hprep, hmem, hdesc, hrest⟩
        · -- a leaf, which goes if it holds the key
          rcases hge.eq_or_lt with rfl | hgt
          · rw [remove_of_eq_last hge hprep rfl]
            refine ⟨⟨BLACK, .empty, fun _ => rfl⟩, ?_⟩
            exact (Entries.drop_split_eq hs).symm
          · have hbal : Balanced (node c .empty k v .empty) c 0 := by
              cases h with
              | balanced h _ => exact h
            rw [remove_of_ne hge hprep hgt.ne, remove, hbal.fixUp_eq]
            exact ⟨⟨c, hbal, fun hc => hc⟩, (Entries.drop_split_gt hs hgt).symm⟩
        · rcases hge.eq_or_lt with rfl | hgt
          · exact removed_root hge hprep hs hbal hred hrest
          · exact removed_right hge hprep hgt hs (.balanced hbal hred) (hrest k v) ih'
        · have hk₁ : k₁ < aKey :=
            ((Entries.sorted_append_cons.mp hs).2.2.1 _ hmem).trans_le hge
          exact removed_right hge hprep hk₁ hs hdesc hrest ih'

/-- The root of the new tree is painted black, which leaves a balanced tree without the key. -/
theorem Balanced.remove {t : FLLRBNode K V} {n : ℕ} (aKey : K) (h : Balanced t BLACK n)
    (hs : Entries.Sorted t.inorderTraversal) :
    (∃ m, Balanced ((t.remove aKey).withColor BLACK) BLACK m) ∧
      (t.remove aKey).inorderTraversal = Entries.drop aKey t.inorderTraversal := by
  cases h with
  | empty =>
    rw [FLLRBNode.remove]
    exact ⟨⟨0, .empty⟩, rfl⟩
  | @black l r k v cl m hl hr =>
    cases cl with
    | RED =>
      have hred : HasRed (node BLACK l k v r) := .inr (by simp [hl.isRed_eq])
      obtain ⟨⟨c', hbal, -⟩, hin⟩ := (Descends.balanced (.black hl hr) hred).removed hs
      exact ⟨hbal.withColor_black, hin⟩
    | BLACK =>
      -- the same tree with a red root
      have hred : HasRed (node RED l k v r) := .inl rfl
      obtain ⟨⟨c', hbal, -⟩, hin⟩ := (Descends.balanced (.red hl hr) hred).removed hs
      have hflip : node BLACK l k v r = (node RED l k v r).flipRoot := rfl
      have hpaint : ∀ t : FLLRBNode K V, t.flipRoot.withColor BLACK = t.withColor BLACK := by
        intro t
        cases t <;> rfl
      rw [hflip, remove_flipRoot, inorderTraversal_flipRoot, inorderTraversal_flipRoot, hpaint]
      exact ⟨hbal.withColor_black, hin⟩

end Order

end FLLRBNode

end TifaSoccer
