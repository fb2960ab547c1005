import Mathlib.Data.String.Basic
import Mathlib.Order.Compare

/-!
# The left-leaning red-black tree of the Firebase client

`FLLRBValueNode` and `FLLRBEmptyNode` of the vendored `FImmutableSortedDictionary`, which hold
the children of every database node on the device. The nodes are immutable: an operation
copies the nodes it changes. The comparator of a tree is the order of its key type here.

The empty node answers every `copyWith` with itself, and the pointers of an empty node are nil,
so a rotation towards a missing child would lose the tree. The functions below keep that
behaviour.
-/

namespace TifaSoccer

/-- `FLLRBColor`: `RED` is the true `NSNumber`. -/
inductive FLLRBColor where
  | RED
  | BLACK
deriving DecidableEq, Repr

/-- The negated colour of `colorFlip`. -/
def FLLRBColor.flip : FLLRBColor → FLLRBColor
  | .RED => .BLACK
  | .BLACK => .RED

/-- `FLLRBNode`: an `FLLRBEmptyNode` or an `FLLRBValueNode`. -/
inductive FLLRBNode (K V : Type) where
  | empty
  | node (color : FLLRBColor) (left : FLLRBNode K V) (key : K) (value : V)
      (right : FLLRBNode K V)
deriving DecidableEq

/-- What `check` throws. -/
inductive FLLRBNode.CheckException (V : Type) where
  /-- "Red node has a red child" -/
  | redChild
  /-- "Right child is red" -/
  | rightRed
  /-- "(value -> color)blackDepth: left ; self.right check: right" -/
  | blackDepth (value : V) (color : FLLRBColor) (left right : ℕ)
deriving DecidableEq

namespace FLLRBNode

variable {K V : Type}

/-! ## Reading a node -/

def isEmpty : FLLRBNode K V → Bool
  | empty => true
  | node _ _ _ _ _ => false

def isRed : FLLRBNode K V → Bool
  | node .RED _ _ _ _ => true
  | _ => false

def left : FLLRBNode K V → FLLRBNode K V
  | empty => empty
  | node _ l _ _ _ => l

def right : FLLRBNode K V → FLLRBNode K V
  | empty => empty
  | node _ _ _ _ r => r

/-- The colour of a node; an empty node has none, and nil counts as `NO`. -/
def color : FLLRBNode K V → FLLRBColor
  | empty => .BLACK
  | node c _ _ _ _ => c

@[simp] def count : FLLRBNode K V → ℕ
  | empty => 0
  | node _ l _ _ r => l.count + 1 + r.count

/-- `inorderTraversal`, for an action that never stops -/
@[simp] def inorderTraversal : FLLRBNode K V → List (K × V)
  | empty => []
  | node _ l k v r => l.inorderTraversal ++ (k, v) :: r.inorderTraversal

/-- `reverseTraversal`, for an action that never stops -/
def reverseTraversal : FLLRBNode K V → List (K × V)
  | empty => []
  | node _ l k v r => r.reverseTraversal ++ (k, v) :: l.reverseTraversal

/-- The key and value of the leftmost node. -/
def min : FLLRBNode K V → Option (K × V)
  | empty => none
  | node _ empty k v _ => some (k, v)
  | node _ l _ _ _ => l.min

def minKey (n : FLLRBNode K V) : Option K := n.min.map Prod.fst

def maxKey : FLLRBNode K V → Option K
  | empty => none
  | node _ _ k _ empty => some k
  | node _ _ _ _ r => r.maxKey

/-! ## `copyWith`, one argument at a time -/

def withColor (n : FLLRBNode K V) (c : FLLRBColor) : FLLRBNode K V :=
  match n with
  | empty => empty
  | node _ l k v r => node c l k v r

def withLeft (n l : FLLRBNode K V) : FLLRBNode K V :=
  match n with
  | empty => empty
  | node c _ k v r => node c l k v r

def withRight (n r : FLLRBNode K V) : FLLRBNode K V :=
  match n with
  | empty => empty
  | node c l k v _ => node c l k v r

section Fields

variable (c c' : FLLRBColor) (l : FLLRBNode K V) (k : K) (v : V) (r n : FLLRBNode K V)

@[simp] theorem isEmpty_empty : (empty : FLLRBNode K V).isEmpty = true := rfl
@[simp] theorem isEmpty_node : (node c l k v r).isEmpty = false := rfl
@[simp] theorem isRed_empty : (empty : FLLRBNode K V).isRed = false := rfl
@[simp] theorem isRed_red : (node .RED l k v r).isRed = true := rfl
@[simp] theorem isRed_black : (node .BLACK l k v r).isRed = false := rfl
@[simp] theorem left_empty : (empty : FLLRBNode K V).left = empty := rfl
@[simp] theorem left_node : (node c l k v r).left = l := rfl
@[simp] theorem right_node : (node c l k v r).right = r := rfl
@[simp] theorem color_node : (node c l k v r).color = c := rfl
@[simp] theorem withColor_node : (node c l k v r).withColor c' = node c' l k v r := rfl
@[simp] theorem withLeft_node : (node c l k v r).withLeft n = node c n k v r := rfl
@[simp] theorem withRight_node : (node c l k v r).withRight n = node c l k v n := rfl

end Fields

/-! ## Rotations -/

def rotateLeft (n : FLLRBNode K V) : FLLRBNode K V :=
  let nl := (n.withColor .RED).withRight n.right.left
  (n.right.withColor n.color).withLeft nl

def rotateRight (n : FLLRBNode K V) : FLLRBNode K V :=
  let nr := (n.withColor .RED).withLeft n.left.right
  (n.left.withColor n.color).withRight nr

def colorFlip (n : FLLRBNode K V) : FLLRBNode K V :=
  let nleft := n.left.withColor n.left.color.flip
  let nright := n.right.withColor n.right.color.flip
  ((n.withColor n.color.flip).withLeft nleft).withRight nright

/-- The first line of `fixUp`. -/
def fixRight (n : FLLRBNode K V) : FLLRBNode K V :=
  if n.right.isRed && !n.left.isRed then n.rotateLeft else n

/-- The second line of `fixUp`. -/
def fixLeft (n : FLLRBNode K V) : FLLRBNode K V :=
  if n.left.isRed && n.left.left.isRed then n.rotateRight else n

/-- The third line of `fixUp`. -/
def fixBoth (n : FLLRBNode K V) : FLLRBNode K V :=
  if n.left.isRed && n.right.isRed then n.colorFlip else n

def fixUp (n : FLLRBNode K V) : FLLRBNode K V :=
  n.fixRight.fixLeft.fixBoth

def moveRedLeft (n : FLLRBNode K V) : FLLRBNode K V :=
  let n := n.colorFlip
  if n.right.left.isRed then ((n.withRight n.right.rotateRight).rotateLeft).colorFlip else n

def moveRedRight (n : FLLRBNode K V) : FLLRBNode K V :=
  let n := n.colorFlip
  if n.left.left.isRed then n.rotateRight.colorFlip else n

/-! ## Rotations keep the entries -/

/-- `count` is the number of entries. -/
theorem count_eq_length (n : FLLRBNode K V) : n.count = n.inorderTraversal.length := by
  induction n with
  | empty => rfl
  | node c l k v r ihl ihr =>
    simp only [count, inorderTraversal, List.length_append, List.length_cons, ihl, ihr]
    omega

/-- A red tree is a node. -/
theorem ne_empty_of_isRed {n : FLLRBNode K V} (h : n.isRed = true) : n ≠ empty := by
  rintro rfl
  simp at h

/-- The colour of the root has nothing to do with the entries. -/
@[simp] theorem inorderTraversal_withColor (n : FLLRBNode K V) (c : FLLRBColor) :
    (n.withColor c).inorderTraversal = n.inorderTraversal := by
  cases n <;> rfl

/-- A flip of colours keeps the entries. -/
@[simp] theorem inorderTraversal_colorFlip (n : FLLRBNode K V) :
    n.colorFlip.inorderTraversal = n.inorderTraversal := by
  cases n with
  | empty => rfl
  | node c l k v r => cases l <;> cases r <;> simp [colorFlip]

/-- A rotation keeps the entries if there is a child to take the place of the root. -/
theorem inorderTraversal_rotateLeft {n : FLLRBNode K V} (h : n.right ≠ empty) :
    n.rotateLeft.inorderTraversal = n.inorderTraversal := by
  cases n with
  | empty => rfl
  | node c l k v r =>
    cases r with
    | empty => exact absurd rfl h
    | node rc rl rk rv rr =>
      simp [rotateLeft]

/-- The same for the rotation to the right. -/
theorem inorderTraversal_rotateRight {n : FLLRBNode K V} (h : n.left ≠ empty) :
    n.rotateRight.inorderTraversal = n.inorderTraversal := by
  cases n with
  | empty => rfl
  | node c l k v r =>
    cases l with
    | empty => exact absurd rfl h
    | node lc ll lk lv lr =>
      simp [rotateRight]

/-- The step of `fixUp` on the right keeps the entries. -/
@[simp] theorem inorderTraversal_fixRight (n : FLLRBNode K V) :
    n.fixRight.inorderTraversal = n.inorderTraversal := by
  unfold fixRight
  split_ifs with h
  · rw [Bool.and_eq_true] at h
    exact inorderTraversal_rotateLeft (ne_empty_of_isRed h.1)
  · rfl

/-- The step of `fixUp` on the left keeps the entries. -/
@[simp] theorem inorderTraversal_fixLeft (n : FLLRBNode K V) :
    n.fixLeft.inorderTraversal = n.inorderTraversal := by
  unfold fixLeft
  split_ifs with h
  · rw [Bool.and_eq_true] at h
    exact inorderTraversal_rotateRight (ne_empty_of_isRed h.1)
  · rfl

/-- A rotation is guarded by a red child, so it never loses the tree. -/
@[simp] theorem inorderTraversal_fixUp (n : FLLRBNode K V) :
    n.fixUp.inorderTraversal = n.inorderTraversal := by
  unfold fixUp fixBoth
  split_ifs <;> simp

/-- Moving a red link to the left keeps the entries. -/
@[simp] theorem inorderTraversal_moveRedLeft (n : FLLRBNode K V) :
    n.moveRedLeft.inorderTraversal = n.inorderTraversal := by
  unfold moveRedLeft
  simp only
  rw [← inorderTraversal_colorFlip n]
  generalize n.colorFlip = n
  split_ifs with h
  · rw [inorderTraversal_colorFlip]
    cases n with
    | empty => rfl
    | node c l k v r =>
      cases r with
      | empty => simp at h
      | node rc rl rk rv rr =>
        cases rl with
        | empty => simp at h
        | node rlc rll rlk rlv rlr =>
          simp [rotateLeft, rotateRight]
  · rfl

/-- Moving a red link to the right keeps the entries. -/
@[simp] theorem inorderTraversal_moveRedRight (n : FLLRBNode K V) :
    n.moveRedRight.inorderTraversal = n.inorderTraversal := by
  unfold moveRedRight
  simp only
  rw [← inorderTraversal_colorFlip n]
  generalize n.colorFlip = n
  split_ifs with h
  · have hne : n.left ≠ empty := by
      intro he
      rw [he] at h
      simp at h
    rw [inorderTraversal_colorFlip, inorderTraversal_rotateRight hne]
  · rfl

/-- The fix neither adds nor removes an entry. -/
@[simp] theorem count_fixUp (n : FLLRBNode K V) : n.fixUp.count = n.count := by
  rw [count_eq_length, count_eq_length, inorderTraversal_fixUp]

/-- A child has fewer entries than its parent, so that the recursions end. -/
theorem count_left_lt {n : FLLRBNode K V} (h : 0 < n.count) : n.left.count < n.count := by
  cases n with
  | empty => simp at h
  | node c l k v r => simp only [left, count]; omega

/-- A left child with no more entries than the old one does not make the tree larger. -/
theorem count_withLeft_le {n l : FLLRBNode K V} (h : l.count ≤ n.left.count) :
    (n.withLeft l).count ≤ n.count := by
  cases n with
  | empty => rfl
  | node c l' k v r =>
    simp only [left] at h
    simp only [withLeft, count]
    omega

/-! ## Removal of the smallest entry -/

/-- The first step of `removeMin` and of `remove` towards the left. The test for emptiness is
that of `remove`; `removeMin` has returned by then. -/
def prepareLeft (n : FLLRBNode K V) : FLLRBNode K V :=
  if !n.left.isEmpty && !n.left.isRed && !n.left.left.isRed then n.moveRedLeft else n

/-- The preparation on the left keeps the entries. -/
@[simp] theorem inorderTraversal_prepareLeft (n : FLLRBNode K V) :
    n.prepareLeft.inorderTraversal = n.inorderTraversal := by
  unfold prepareLeft
  split_ifs <;> simp

/-- The preparation keeps the number of entries. -/
@[simp] theorem count_prepareLeft (n : FLLRBNode K V) : n.prepareLeft.count = n.count := by
  rw [count_eq_length, count_eq_length, inorderTraversal_prepareLeft]

/-- `removeMin`, which is never sent to an empty node -/
def removeMin : FLLRBNode K V → FLLRBNode K V
  | empty => empty
  | node c l k v r =>
    if l.isEmpty then empty
    else
      let n := (node c l k v r).prepareLeft
      (n.withLeft n.left.removeMin).fixUp
termination_by n => n.count
decreasing_by
  rw [← count_prepareLeft (node c l k v r)]
  apply count_left_lt
  rw [count_prepareLeft, count]
  omega

/-- `removeMin` adds no entries. -/
theorem count_removeMin_le (n : FLLRBNode K V) : n.removeMin.count ≤ n.count := by
  induction n using removeMin.induct with
  | case1 => simp [removeMin]
  | case2 c l k v r h =>
    rw [removeMin, if_pos h]
    exact Nat.zero_le _
  | case3 c l k v r h n ih =>
    rw [removeMin, if_neg h, count_fixUp, ← count_prepareLeft (node c l k v r)]
    exact count_withLeft_le ih

/-- The first two steps of `remove` towards the right. -/
def prepareRight (n : FLLRBNode K V) : FLLRBNode K V :=
  let n := if n.left.isRed then n.rotateRight else n
  if !n.right.isEmpty && !n.right.isRed && !n.right.left.isRed then n.moveRedRight else n

/-- The preparation on the right keeps the entries. -/
@[simp] theorem inorderTraversal_prepareRight (n : FLLRBNode K V) :
    n.prepareRight.inorderTraversal = n.inorderTraversal := by
  have hrot : (if n.left.isRed then n.rotateRight else n).inorderTraversal =
      n.inorderTraversal := by
    split_ifs with h
    · exact inorderTraversal_rotateRight (ne_empty_of_isRed h)
    · rfl
  unfold prepareRight
  simp only
  rw [← hrot]
  generalize (if n.left.isRed then n.rotateRight else n) = n
  split_ifs <;> simp

/-- The preparation keeps the number of entries. -/
@[simp] theorem count_prepareRight (n : FLLRBNode K V) : n.prepareRight.count = n.count := by
  rw [count_eq_length, count_eq_length, inorderTraversal_prepareRight]

/-! ## Insertion and removal of a key -/

section Order

variable [LinearOrder K]

def insertKey (aKey : K) (aValue : V) : FLLRBNode K V → FLLRBNode K V
  | empty => node .RED empty aKey aValue empty
  | node c l k v r =>
    match compare aKey k with
    | .lt => (node c (l.insertKey aKey aValue) k v r).fixUp
    | .eq => (node c l k aValue r).fixUp
    | .gt => (node c l k v (r.insertKey aKey aValue)).fixUp

/-- `remove`. Where the key is found, its entry is replaced by the smallest one of the right
subtree, and the search for the key goes on in what is left of that subtree. -/
def remove (aKey : K) : FLLRBNode K V → FLLRBNode K V
  | empty => empty
  | node c l k v r =>
    if compare aKey k = .lt then
      let n := (node c l k v r).prepareLeft
      (n.withLeft (n.left.remove aKey)).fixUp
    else
      match _hn : (node c l k v r).prepareRight with
      | empty => empty
      | node c' l' k' v' r' =>
        if compare aKey k' = .eq then
          match r'.min with
          | none => empty
          | some (smallestKey, smallestValue) =>
            (node c' l' smallestKey smallestValue (r'.removeMin.remove aKey)).fixUp
        else
          (node c' l' k' v' (r'.remove aKey)).fixUp
termination_by n => n.count
decreasing_by
  · rw [← count_prepareLeft (node c l k v r)]
    apply count_left_lt
    rw [count_prepareLeft, count]
    omega
  · have hcount := count_prepareRight (node c l k v r)
    have hle := count_removeMin_le r'
    rw [_hn, count] at hcount
    omega
  · have hcount := count_prepareRight (node c l k v r)
    rw [_hn, count] at hcount
    omega

end Order

/-! ## The self-check -/

/-- `check`: the black depth of a valid tree -/
def check : FLLRBNode K V → Except (CheckException V) ℕ
  | empty => .ok 0
  | node c l _ v r =>
    if c = .RED ∧ l.isRed then .error .redChild
    else if r.isRed then .error .rightRed
    else do
      let blackDepth ← l.check
      let rightDepth ← r.check
      if blackDepth ≠ rightDepth then .error (.blackDepth v c blackDepth rightDepth)
      else .ok (blackDepth + if c = .RED then 0 else 1)

def checkMaxDepth (n : FLLRBNode K V) : Except (CheckException V) Bool := do
  let blackDepth ← n.check
  .ok (decide (2 ^ blackDepth ≤ n.count + 1))

end FLLRBNode

end TifaSoccer
