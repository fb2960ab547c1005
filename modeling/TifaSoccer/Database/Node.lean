import TifaSoccer.Database.SortedDictionary

/-!
# The nodes of the Firebase client

A node is what the client keeps of the database at a path: an `FLeafNode` with a value, or an
`FChildrenNode` with its children in a sorted dictionary. The empty node is the `FChildrenNode`
without children. Nodes are never changed; an update gives a new node.

A path is given by its components: `getFront` is the first one and `popFront` drops it. The
priorities of the nodes, and with them the component `.priority` and the assertions about it, are
left out.
-/

namespace TifaSoccer

/-! ## Values of a dictionary are smaller than the dictionary -/

/-- A value of a tree is smaller than the tree, so that the recursions end. -/
theorem FLLRBNode.sizeOf_lt_of_mem {K T : Type} [SizeOf K] [SizeOf T] {t : FLLRBNode K T}
    {e : K × T} (h : e ∈ t.inorderTraversal) : sizeOf e.2 < sizeOf t := by
  induction t with
  | empty => simp [inorderTraversal] at h
  | node c l k v r ihl ihr =>
    simp only [inorderTraversal, List.mem_append, List.mem_cons] at h
    simp only [node.sizeOf_spec]
    rcases h with h | rfl | h
    · have := ihl h
      omega
    · show sizeOf v < _
      omega
    · have := ihr h
      omega

/-- So for a dictionary, -/
theorem FImmutableSortedDictionary.sizeOf_lt_of_mem {K T : Type} [SizeOf K] [SizeOf T]
    {d : FImmutableSortedDictionary K T} {e : K × T} (h : e ∈ d.enumerateKeysAndObjects) :
    sizeOf e.2 < sizeOf d := by
  cases d with
  | array d =>
    obtain ⟨keys, values⟩ := d
    have hvalue : e.2 ∈ values := (List.of_mem_zip h).2
    have := List.sizeOf_lt_of_mem hvalue
    simp only [array.sizeOf_spec, FArraySortedDictionary.mk.sizeOf_spec]
    omega
  | tree d =>
    obtain ⟨root⟩ := d
    have := FLLRBNode.sizeOf_lt_of_mem (t := root) h
    simp only [tree.sizeOf_spec, FTreeSortedDictionary.mk.sizeOf_spec]
    omega

/-- and for what `get` finds in it. -/
theorem FImmutableSortedDictionary.sizeOf_lt_of_get {K T : Type} [LinearOrder K] [SizeOf K]
    [SizeOf T] {d : FImmutableSortedDictionary K T} {key : K} {value : T}
    (h : d.get key = some value) : sizeOf value < sizeOf d := by
  cases d with
  | array d =>
    obtain ⟨keys, values⟩ := d
    have hvalue : value ∈ values := by
      simp only [FImmutableSortedDictionary.get, FArraySortedDictionary.get] at h
      split at h
      · cases h
      · exact List.mem_of_getElem? h
    have := List.sizeOf_lt_of_mem hvalue
    simp only [array.sizeOf_spec, FArraySortedDictionary.mk.sizeOf_spec]
    omega
  | tree d =>
    obtain ⟨root⟩ := d
    have hroot : ∀ t : FLLRBNode K T, FTreeSortedDictionary.getLoop key t = some value →
        sizeOf value < sizeOf t := by
      intro t ht
      induction t with
      | empty => cases ht
      | node c l k v r ihl ihr =>
        simp only [FTreeSortedDictionary.getLoop] at ht
        simp only [FLLRBNode.node.sizeOf_spec]
        split at ht
        · obtain rfl := Option.some.inj ht
          omega
        · have := ihl ht
          omega
        · have := ihr ht
          omega
    have := hroot root h
    simp only [tree.sizeOf_spec, FTreeSortedDictionary.mk.sizeOf_spec]
    omega

/-! ## Nodes -/

inductive FNode (K V : Type) where
  | leaf (value : V)
  | children (children : FImmutableSortedDictionary K (FNode K V))

namespace FNode

variable {K V : Type} [LinearOrder K]

/-- `[FEmptyNode emptyNode]` -/
def emptyNode : FNode K V := .children .dictionaryWithComparator

def isLeafNode : FNode K V → Bool
  | .leaf _ => true
  | .children _ => false

def isEmpty : FNode K V → Bool
  | .leaf _ => false
  | .children d => d.isEmpty

def numChildren : FNode K V → ℕ
  | .leaf _ => 0
  | .children d => d.count

/-- What `enumerateChildrenUsingBlock` calls its block with. -/
def enumerateChildren : FNode K V → List (K × FNode K V)
  | .leaf _ => []
  | .children d => d.enumerateKeysAndObjects

def getImmediateChild (node : FNode K V) (childName : K) : FNode K V :=
  match node with
  | .leaf _ => emptyNode
  | .children d => (d.get childName).getD emptyNode

def getChild : FNode K V → List K → FNode K V
  | node, [] => node
  | .leaf _, _ :: _ => emptyNode
  | .children d, front :: path => getChild ((FNode.children d).getImmediateChild front) path

/-- `updateImmediateChild` of a node with children -/
def updateChildren (d : FImmutableSortedDictionary K (FNode K V)) (childName : K)
    (newChildNode : FNode K V) : Except NSException (FNode K V) := do
  let newChildren ←
    if newChildNode.isEmpty then .ok (d.removeKey childName)
    else d.insertKey childName newChildNode
  if newChildren.isEmpty then .ok emptyNode else .ok (.children newChildren)

def updateImmediateChild (node : FNode K V) (childName : K) (newChildNode : FNode K V) :
    Except NSException (FNode K V) :=
  match node with
  | .leaf value =>
    if newChildNode.isEmpty then .ok (.leaf value)
    -- the leaf gives way to a new node with one child
    else updateChildren .dictionaryWithComparator childName newChildNode
  | .children d => updateChildren d childName newChildNode

def updateChild : FNode K V → List K → FNode K V → Except NSException (FNode K V)
  | _, [], newChildNode => .ok newChildNode
  | .leaf value, front :: path, newChildNode =>
    if newChildNode.isEmpty then .ok (.leaf value)
    else do
      let newImmediateChild ← updateChild emptyNode path newChildNode
      (FNode.leaf value).updateImmediateChild front newImmediateChild
  | .children d, front :: path, newChildNode => do
    let newImmediateChild ←
      updateChild ((FNode.children d).getImmediateChild front) path newChildNode
    (FNode.children d).updateImmediateChild front newImmediateChild

/-- `isEqual` of two nodes. The child of the other node is compared with the child of this one;
where the other node has none, that is the empty node, and it is equal only to an empty node. -/
def isEqual [DecidableEq V] (node other : FNode K V) : Bool :=
  match node, other with
  | .leaf value, .leaf otherValue => decide (value = otherValue)
  | .leaf _, .children _ => false
  | .children _, .leaf _ => false
  | .children d, .children otherChildren =>
    if d.isEmpty && otherChildren.isEmpty then true
    else if d.count = otherChildren.count then
      d.enumerateKeysAndObjects.attach.all fun e =>
        match _ : otherChildren.get e.1.1 with
        | some child => isEqual child e.1.2
        | none => e.1.2.isEmpty
    else false
termination_by sizeOf node + sizeOf other
decreasing_by
  have h₁ := FImmutableSortedDictionary.sizeOf_lt_of_mem e.2
  have h₂ := FImmutableSortedDictionary.sizeOf_lt_of_get (by assumption)
  simp only [children.sizeOf_spec]
  omega

end FNode

end TifaSoccer
