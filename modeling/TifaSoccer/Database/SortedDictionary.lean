import TifaSoccer.Database.LLRBNode
import TifaSoccer.Lib.Json

/-!
# The sorted dictionaries of the Firebase client

`FImmutableSortedDictionary` has two implementations: `FArraySortedDictionary` keeps the keys
and the values in two arrays, `FTreeSortedDictionary` in a left-leaning red-black tree. A
dictionary starts as an array and is rebuilt as a tree by the insertion that would give it more
than `SORTED_DICTIONARY_ARRAY_TO_RB_TREE_SIZE_THRESHOLD` entries; it never goes back.

The tree is not built by insertions but from the sorted keys at once: the number of keys is
written with the digits 1 and 2, and each digit becomes one or two perfect trees of its weight
on the left spine.
-/

namespace TifaSoccer

/-- An `NSDictionary`: its entries in the order of an enumeration, each key once. -/
structure NSDictionary (K V : Type) where
  entries : List (K × V)
  nodup : (entries.map Prod.fst).Nodup

/-- An Objective-C exception. -/
structure NSException where
  name : String
  reason : String
deriving DecidableEq

/-- `array[index]` -/
def objectAtIndex {α : Type} (array : List α) (index : ℕ) : Except NSException α :=
  match array[index]? with
  | some a => .ok a
  | none => .error ⟨"NSRangeException", "index beyond bounds"⟩

section Keys

variable {K V : Type} [LinearOrder K]

/-- `dictionary[key]`, for a key of the dictionary -/
def NSDictionary.objectForKey (dictionary : NSDictionary K V) (key : K) : Except NSException V :=
  match Entries.find key dictionary.entries with
  | some value => .ok value
  | none => .error ⟨"NSInvalidArgumentException", "object cannot be nil"⟩

/-- An `NSMutableDictionary` without entries. -/
def NSDictionary.empty : NSDictionary K V := ⟨[], List.nodup_nil⟩

/-- `dict[key] = value` -/
def NSDictionary.setObject (dictionary : NSDictionary K V) (key : K) (value : V) :
    NSDictionary K V where
  entries := Entries.drop key dictionary.entries ++ [(key, value)]
  nodup := by
    have hsub : ((Entries.drop key dictionary.entries).map Prod.fst).Sublist
        (dictionary.entries.map Prod.fst) := List.filter_sublist.map _
    have hnot : key ∉ (Entries.drop key dictionary.entries).map Prod.fst := by
      rw [List.mem_map]
      rintro ⟨e, he, rfl⟩
      simp [Entries.drop] at he
    rw [List.map_append, List.nodup_append]
    refine ⟨dictionary.nodup.sublist hsub, List.nodup_singleton _, ?_⟩
    rintro k hk k' hk' rfl
    obtain rfl := List.mem_singleton.mp hk'
    exact hnot hk

/-- The keys of a dictionary in ascending order, as both implementations of `fromDictionary`
compute them: keys that compare as equal are refused. -/
def sortedKeys (dictionary : NSDictionary K V) : Except NSException (List K) :=
  let keys := (dictionary.entries.map Prod.fst).mergeSort fun a b => decide (a ≤ b)
  if (keys.zip keys.tail).all fun p => decide (compare p.1 p.2 = .lt) then .ok keys
  else .error ⟨"NSInvalidArgumentException",
    "Can't create FImmutableSortedDictionary with keys with same ordering!"⟩

end Keys

/-! ## `FTreeSortedDictionary` -/

structure FTreeSortedDictionary (K V : Type) where
  root : FLLRBNode K V

namespace FTreeSortedDictionary

variable {K V : Type} [LinearOrder K]

def insertKey (d : FTreeSortedDictionary K V) (aKey : K) (aValue : V) :
    FTreeSortedDictionary K V :=
  ⟨(d.root.insertKey aKey aValue).withColor .BLACK⟩

/-- The loop of `get`. -/
def getLoop (key : K) : FLLRBNode K V → Option V
  | .empty => none
  | .node _ l k v r =>
    match compare key k with
    | .eq => some v
    | .lt => getLoop key l
    | .gt => getLoop key r

def get (d : FTreeSortedDictionary K V) (key : K) : Option V := getLoop key d.root

def contains (d : FTreeSortedDictionary K V) (key : K) : Bool := (d.get key).isSome

def removeKey (d : FTreeSortedDictionary K V) (aKey : K) : FTreeSortedDictionary K V :=
  if !d.contains aKey then d else ⟨(d.root.remove aKey).withColor .BLACK⟩

/-- The loop of `getPredecessorKey`, with the key of the last node it went right from. -/
def predecessorLoop (key : K) : FLLRBNode K V → Option K → Except NSException (Option K)
  | .empty, _ => .error ⟨"NonexistentKey", "getPredecessorKey called with nonexistent key."⟩
  | .node _ l k _ r, rightParent =>
    match compare key k with
    | .eq => if !l.isEmpty then .ok l.maxKey else .ok rightParent
    | .lt => predecessorLoop key l rightParent
    | .gt => predecessorLoop key r (some k)

def getPredecessorKey (d : FTreeSortedDictionary K V) (key : K) :
    Except NSException (Option K) :=
  predecessorLoop key d.root none

/-! ### The tree builder -/

/-- `Base1_2List`: a number with the digits 1 and 2, read from its most significant digit. -/
structure Base1_2List where
  bits : ℕ
  count : ℕ
  current : ℕ

/-- `base1_2List_new`, in 32-bit arithmetic. The quotient of logarithms that `log_base2` cuts
off is the binary logarithm. -/
def base1_2List_new (length : ℕ) : Base1_2List :=
  let successor := (length % 2 ^ 32 + 1) % 2 ^ 32
  let count := successor.log2
  { bits := successor % 2 ^ count, count := count, current := count - 1 }

/-- `base1_2List_next`: whether the next digit is a 1 -/
def base1_2List_next (list : Base1_2List) : Bool × Base1_2List :=
  (!list.bits.testBit list.current, { list with current := list.current - 1 })

def buildBalancedTree (keys : List K) (dictionary : NSDictionary K V) (startIndex length : ℕ) :
    Except NSException (FLLRBNode K V) :=
  -- bound length by the actual length of the array
  let bounded := min (keys.length - startIndex) length
  if bounded = 0 then .ok .empty
  else if bounded = 1 then do
    let key ← objectAtIndex keys startIndex
    let value ← dictionary.objectForKey key
    .ok (.node .BLACK .empty key value .empty)
  else do
    let middle := bounded / 2
    let left ← buildBalancedTree keys dictionary startIndex middle
    let right ← buildBalancedTree keys dictionary (startIndex + middle + 1) middle
    let key ← objectAtIndex keys (startIndex + middle)
    let value ← dictionary.objectForKey key
    .ok (.node .BLACK left key value right)
termination_by length
decreasing_by all_goals omega

/-- A pennant: a root with a perfect tree to its right, still without a left child. -/
structure Pennant (K V : Type) where
  color : FLLRBColor
  key : K
  value : V
  childTree : FLLRBNode K V

/-- The state of `rootFrom12List`: the pennants of the left spine, the last one first, and the
index of the first key that is used. -/
structure Spine (K V : Type) where
  pennants : List (Pennant K V) := []
  index : ℕ

/-- The tree of a spine: each pennant is the left child of the one before it. -/
def Spine.root (pennants : List (Pennant K V)) : FLLRBNode K V :=
  pennants.foldl (fun left p => .node p.color left p.key p.value p.childTree) .empty

def buildPennant (keyList : List K) (dictionary : NSDictionary K V) (color : FLLRBColor)
    (chunkSize : ℕ) (s : Spine K V) : Except NSException (Spine K V) := do
  let startIndex := s.index - chunkSize + 1
  let index := s.index - chunkSize
  let key ← objectAtIndex keyList index
  let childTree ← buildBalancedTree keyList dictionary startIndex (chunkSize - 1)
  let value ← dictionary.objectForKey key
  .ok ⟨⟨color, key, value, childTree⟩ :: s.pennants, index⟩

/-- The loop of `rootFrom12List`, with the number of digits still to be read. -/
def spineLoop (keyList : List K) (dictionary : NSDictionary K V) :
    ℕ → Base1_2List → Spine K V → Except NSException (Spine K V)
  | 0, _, s => .ok s
  | digits + 1, list, s => do
    let (isOne, list) := base1_2List_next list
    let chunkSize := 2 ^ digits
    if isOne then
      let s ← buildPennant keyList dictionary .BLACK chunkSize s
      spineLoop keyList dictionary digits list s
    else
      let s ← buildPennant keyList dictionary .BLACK chunkSize s
      let s ← buildPennant keyList dictionary .RED chunkSize s
      spineLoop keyList dictionary digits list s

def rootFrom12List (list : Base1_2List) (keyList : List K) (dictionary : NSDictionary K V) :
    Except NSException (FLLRBNode K V) := do
  let s ← spineLoop keyList dictionary list.count list { index := keyList.length }
  .ok (Spine.root s.pennants)

def fromDictionary (dictionary : NSDictionary K V) :
    Except NSException (FTreeSortedDictionary K V) := do
  let sortedKeyList ← sortedKeys dictionary
  let list := base1_2List_new sortedKeyList.length
  let root ← rootFrom12List list sortedKeyList dictionary
  .ok ⟨root⟩

end FTreeSortedDictionary

/-! ## `FArraySortedDictionary` -/

structure FArraySortedDictionary (K V : Type) where
  keys : List K := []
  values : List V := []

namespace FArraySortedDictionary

variable {K V : Type} [LinearOrder K]

/-- The loop of `findKey`. -/
def findKeyFrom (key : K) : List K → ℕ → Option ℕ
  | [], _ => none
  | k :: keys, pos =>
    match compare key k with
    | .eq => some pos
    | .lt => none
    | .gt => findKeyFrom key keys (pos + 1)

def findKey (d : FArraySortedDictionary K V) (key : K) : Option ℕ := findKeyFrom key d.keys 0

def findInsertPositionForKey (d : FArraySortedDictionary K V) (key : K) : ℕ :=
  (d.keys.takeWhile fun k => decide (compare k key = .lt)).length

def removeKey (d : FArraySortedDictionary K V) (key : K) : FArraySortedDictionary K V :=
  match d.findKey key with
  | none => d
  | some pos => ⟨d.keys.eraseIdx pos, d.values.eraseIdx pos⟩

def get (d : FArraySortedDictionary K V) (key : K) : Option V :=
  match d.findKey key with
  | none => none
  | some pos => d.values[pos]?

def contains (d : FArraySortedDictionary K V) (key : K) : Bool := (d.findKey key).isSome

def getPredecessorKey (d : FArraySortedDictionary K V) (key : K) :
    Except NSException (Option K) :=
  match d.findKey key with
  | none => .error ⟨"NSInternalInconsistencyException",
      "Can't get predecessor key for non-existent key"⟩
  | some 0 => .ok none
  | some (pos + 1) => .ok d.keys[pos]?

def fromDictionary (dictionary : NSDictionary K V) :
    Except NSException (FArraySortedDictionary K V) := do
  let keys ← sortedKeys dictionary
  let values ← keys.mapM dictionary.objectForKey
  .ok ⟨keys, values⟩

end FArraySortedDictionary

/-! ## `FImmutableSortedDictionary` -/

def SORTED_DICTIONARY_ARRAY_TO_RB_TREE_SIZE_THRESHOLD : ℕ := 25

inductive FImmutableSortedDictionary (K V : Type) where
  | array (d : FArraySortedDictionary K V)
  | tree (d : FTreeSortedDictionary K V)

/-- `insertKey` of the array implementation, which turns a full array into a tree. -/
def FArraySortedDictionary.insertKey {K V : Type} [LinearOrder K]
    (d : FArraySortedDictionary K V) (key : K) (value : V) :
    Except NSException (FImmutableSortedDictionary K V) :=
  match d.findKey key with
  | none =>
    if SORTED_DICTIONARY_ARRAY_TO_RB_TREE_SIZE_THRESHOLD ≤ d.keys.length then do
      let dict : NSDictionary K V :=
        (d.keys.zip d.values).foldl (fun dict e => dict.setObject e.1 e.2) .empty
      let tree ← FTreeSortedDictionary.fromDictionary (dict.setObject key value)
      .ok (.tree tree)
    else
      let newPos := d.findInsertPositionForKey key
      .ok (.array ⟨d.keys.insertIdx newPos key, d.values.insertIdx newPos value⟩)
  | some pos => .ok (.array ⟨d.keys.set pos key, d.values.set pos value⟩)

namespace FImmutableSortedDictionary

variable {K V : Type} [LinearOrder K]

def dictionaryWithComparator : FImmutableSortedDictionary K V := .array {}

def fromDictionary (dictionary : NSDictionary K V) :
    Except NSException (FImmutableSortedDictionary K V) :=
  if dictionary.entries.length ≤ SORTED_DICTIONARY_ARRAY_TO_RB_TREE_SIZE_THRESHOLD then
    (FArraySortedDictionary.fromDictionary dictionary).map .array
  else
    (FTreeSortedDictionary.fromDictionary dictionary).map .tree

def insertKey (d : FImmutableSortedDictionary K V) (aKey : K) (aValue : V) :
    Except NSException (FImmutableSortedDictionary K V) :=
  match d with
  | .array d => d.insertKey aKey aValue
  | .tree d => .ok (.tree (d.insertKey aKey aValue))

def removeKey (d : FImmutableSortedDictionary K V) (aKey : K) : FImmutableSortedDictionary K V :=
  match d with
  | .array d => .array (d.removeKey aKey)
  | .tree d => .tree (d.removeKey aKey)

def get (d : FImmutableSortedDictionary K V) (key : K) : Option V :=
  match d with
  | .array d => d.get key
  | .tree d => d.get key

def contains (d : FImmutableSortedDictionary K V) (key : K) : Bool :=
  match d with
  | .array d => d.contains key
  | .tree d => d.contains key

def getPredecessorKey (d : FImmutableSortedDictionary K V) (key : K) :
    Except NSException (Option K) :=
  match d with
  | .array d => d.getPredecessorKey key
  | .tree d => d.getPredecessorKey key

def count : FImmutableSortedDictionary K V → ℕ
  | .array d => d.keys.length
  | .tree d => d.root.count

def isEmpty : FImmutableSortedDictionary K V → Bool
  | .array d => d.keys.isEmpty
  | .tree d => d.root.isEmpty

def minKey : FImmutableSortedDictionary K V → Option K
  | .array d => d.keys.head?
  | .tree d => d.root.minKey

def maxKey : FImmutableSortedDictionary K V → Option K
  | .array d => d.keys.getLast?
  | .tree d => d.root.maxKey

/-- What `enumerateKeysAndObjectsUsingBlock` calls its block with, if the block never stops. -/
def enumerateKeysAndObjects : FImmutableSortedDictionary K V → List (K × V)
  | .array d => d.keys.zip d.values
  | .tree d => d.root.inorderTraversal

/-- `enumerateKeysAndObjectsReverse:YES` -/
def enumerateKeysAndObjectsReverse : FImmutableSortedDictionary K V → List (K × V)
  | .array d => (d.keys.zip d.values).reverse
  | .tree d => d.root.reverseTraversal

def isEqual [DecidableEq V] (d other : FImmutableSortedDictionary K V) : Bool :=
  if d.count ≠ other.count then false
  else d.enumerateKeysAndObjects.all fun e => decide (other.get e.1 = some e.2)

end FImmutableSortedDictionary

/-! ## Enumerators -/

/-- `FArraySortedDictionaryEnumerator`; `keyEnumerator` and `reverseKeyEnumerator` use those of
`NSArray`, which go through all keys. -/
structure FArraySortedDictionaryEnumerator (K : Type) where
  keys : List K
  pos : ℤ
  reverse : Bool

def FArraySortedDictionaryEnumerator.nextObject {K : Type}
    (e : FArraySortedDictionaryEnumerator K) :
    Option (K × FArraySortedDictionaryEnumerator K) :=
  if 0 ≤ e.pos ∧ e.pos < e.keys.length then
    e.keys[e.pos.toNat]?.map fun key =>
      (key, { e with pos := if e.reverse then e.pos - 1 else e.pos + 1 })
  else none

/-- `FTreeSortedDictionaryEnumerator`, with the top of the stack first -/
structure FTreeSortedDictionaryEnumerator (K V : Type) where
  stack : List (FLLRBNode K V)
  isReverse : Bool

namespace FTreeSortedDictionaryEnumerator

variable {K V : Type}

/-- The loop of the initialiser. Without a start key every node counts as larger, and in reverse
the comparison is flipped. -/
def start [LinearOrder K] (startKey : Option K) (isReverse : Bool) :
    FLLRBNode K V → List (FLLRBNode K V) → List (FLLRBNode K V)
  | .empty, stack => stack
  | .node c l k v r, stack =>
    let cmp := match startKey with
      | some startKey => compare k startKey
      | none => .gt
    match if isReverse then cmp.swap else cmp with
    | .lt =>
      if isReverse then start startKey isReverse l stack else start startKey isReverse r stack
    | .eq => .node c l k v r :: stack
    | .gt =>
      if isReverse then start startKey isReverse r (.node c l k v r :: stack)
      else start startKey isReverse l (.node c l k v r :: stack)

/-- The loop of `nextObject`: push a node and its descendants on one side. -/
def push (isReverse : Bool) :
    FLLRBNode K V → List (FLLRBNode K V) → List (FLLRBNode K V)
  | .empty, stack => stack
  | .node c l k v r, stack =>
    if isReverse then push isReverse r (.node c l k v r :: stack)
    else push isReverse l (.node c l k v r :: stack)

def nextObject (e : FTreeSortedDictionaryEnumerator K V) :
    Option (K × FTreeSortedDictionaryEnumerator K V) :=
  match e.stack with
  | .node _ l k _ r :: stack =>
    some (k, { e with stack := push e.isReverse (if e.isReverse then l else r) stack })
  -- the stack never holds an empty node
  | .empty :: _ => none
  | [] => none

def initWith [LinearOrder K] (d : FTreeSortedDictionary K V) (startKey : Option K)
    (isReverse : Bool) : FTreeSortedDictionaryEnumerator K V :=
  ⟨start startKey isReverse d.root [], isReverse⟩

end FTreeSortedDictionaryEnumerator

/-- The `NSEnumerator` of a dictionary. -/
inductive KeyEnumerator (K V : Type) where
  | array (e : FArraySortedDictionaryEnumerator K)
  | tree (e : FTreeSortedDictionaryEnumerator K V)

namespace KeyEnumerator

variable {K V : Type}

def nextObject : KeyEnumerator K V → Option (K × KeyEnumerator K V)
  | .array e => e.nextObject.map fun p => (p.1, .array p.2)
  | .tree e => e.nextObject.map fun p => (p.1, .tree p.2)

/-- The results of the first `n` calls of `nextObject`, up to the first nil. -/
def take : ℕ → KeyEnumerator K V → List K
  | 0, _ => []
  | n + 1, e =>
    match e.nextObject with
    | none => []
    | some (key, e) => key :: take n e

end KeyEnumerator

namespace FImmutableSortedDictionary

variable {K V : Type} [LinearOrder K]

def keyEnumerator : FImmutableSortedDictionary K V → KeyEnumerator K V
  | .array d => .array ⟨d.keys, 0, false⟩
  | .tree d => .tree (.initWith d none false)

def keyEnumeratorFrom (d : FImmutableSortedDictionary K V) (startKey : K) : KeyEnumerator K V :=
  match d with
  | .array d => .array ⟨d.keys, d.findInsertPositionForKey startKey, false⟩
  | .tree d => .tree (.initWith d (some startKey) false)

def reverseKeyEnumerator : FImmutableSortedDictionary K V → KeyEnumerator K V
  | .array d => .array ⟨d.keys, (d.keys.length : ℤ) - 1, true⟩
  | .tree d => .tree (.initWith d none true)

def reverseKeyEnumeratorFrom (d : FImmutableSortedDictionary K V) (startKey : K) :
    KeyEnumerator K V :=
  match d with
  | .array d =>
    let startPos := d.findInsertPositionForKey startKey
    -- without an exact match, start just before the position
    match d.keys[startPos]? with
    | some k =>
      if compare k startKey ≠ .eq then .array ⟨d.keys, (startPos : ℤ) - 1, true⟩
      else .array ⟨d.keys, startPos, true⟩
    | none => .array ⟨d.keys, (startPos : ℤ) - 1, true⟩
  | .tree d => .tree (.initWith d (some startKey) true)

end FImmutableSortedDictionary

end TifaSoccer
