import TifaSoccer.Database.Node

/-!
# The pending writes of the Firebase client

Until the server has acknowledged a write the client shows its effect on top of what the server
sent. `FWriteTree` keeps the pending writes twice: one by one, in the order in which they were
made, and merged into one `FCompoundWrite`. That is an `FImmutableTree`, a tree with the node to
be written at each path that has one; a new write goes into the value of a write above it, or
replaces the writes below it.

A path is given by its components, so that `contains` is the prefix order. The keys of the nodes
and of the trees are in one order here. The trees of the source compare without `NSLiteralSearch`,
so that canonically equivalent keys, which a node tells apart, are one key there; such keys are left
out, and with the priorities the component `.priority`.
-/

namespace TifaSoccer

/-! ## `FImmutableTree` -/

inductive FImmutableTree (K T : Type) where
  | node (value : Option T) (children : FImmutableSortedDictionary K (FImmutableTree K T))

namespace FImmutableTree

variable {K T : Type}

def value : FImmutableTree K T → Option T
  | .node value _ => value

def children : FImmutableTree K T → FImmutableSortedDictionary K (FImmutableTree K T)
  | .node _ children => children

variable [LinearOrder K]

def initWithValue (aValue : Option T) : FImmutableTree K T := .node aValue .dictionaryWithComparator

def empty : FImmutableTree K T := initWithValue none

def isEmpty (t : FImmutableTree K T) : Bool := t.value.isNone && t.children.isEmpty

/-- The first value on the path, with the path to it. -/
def findRootMostValueAndPath (t : FImmutableTree K T) : List K → Option (List K × T)
  | [] => t.value.map fun value => ([], value)
  | front :: path =>
    match t.value with
    | some value => some ([], value)
    | none =>
      match t.children.get front with
      | some child =>
        (child.findRootMostValueAndPath path).map fun found => (front :: found.1, found.2)
      | none => none

def subtreeAtPath (t : FImmutableTree K T) : List K → FImmutableTree K T
  | [] => t
  | front :: path =>
    match t.children.get front with
    | some childTree => childTree.subtreeAtPath path
    | none => empty

def valueAtPath (t : FImmutableTree K T) : List K → Option T
  | [] => t.value
  | front :: path =>
    match t.children.get front with
    | some child => child.valueAtPath path
    | none => none

def setValue (t : FImmutableTree K T) (newValue : T) :
    List K → Except NSException (FImmutableTree K T)
  | [] => .ok (.node (some newValue) t.children)
  | front :: path => do
    let newChild ← setValue ((t.children.get front).getD empty) newValue path
    let newChildren ← t.children.insertKey front newChild
    .ok (.node t.value newChildren)

def setTree (t newTree : FImmutableTree K T) : List K → Except NSException (FImmutableTree K T)
  | [] => .ok newTree
  | front :: path => do
    let newChild ← setTree ((t.children.get front).getD empty) newTree path
    let newChildren ←
      if newChild.isEmpty then .ok (t.children.removeKey front)
      else t.children.insertKey front newChild
    .ok (.node t.value newChildren)

omit [LinearOrder K] in
/-- A subtree is smaller than the tree, so that the recursions end. -/
theorem sizeOf_lt_of_mem [SizeOf K] [SizeOf T] {t : FImmutableTree K T}
    {e : K × FImmutableTree K T} (h : e ∈ t.children.enumerateKeysAndObjects) :
    sizeOf e.2 < sizeOf t := by
  obtain ⟨value, children⟩ := t
  have := FImmutableSortedDictionary.sizeOf_lt_of_mem h
  simp only [FImmutableTree.children] at this
  simp only [node.sizeOf_spec]
  omega

/-- What `forEachPathSoFar` calls its block with: the values of the children first. -/
def forEachPathSoFar (pathSoFar : List K) (t : FImmutableTree K T) : List (List K × T) :=
  (t.children.enumerateKeysAndObjects.attach.flatMap fun e =>
    forEachPathSoFar (pathSoFar ++ [e.1.1]) e.1.2) ++
  t.value.toList.map fun value => (pathSoFar, value)
termination_by sizeOf t
decreasing_by exact sizeOf_lt_of_mem e.2

def forEach (t : FImmutableTree K T) : List (List K × T) := t.forEachPathSoFar []

end FImmutableTree

/-! ## `FCompoundWrite` -/

/-- `[FPath relativePathFrom:outer to:inner]` -/
def relativePathFrom {K : Type} [DecidableEq K] :
    (outer inner : List K) → Except NSException (List K)
  | [], inner => .ok inner
  | outerFront :: outer, innerFront :: inner =>
    if outerFront = innerFront then relativePathFrom outer inner
    else .error ⟨"FirebaseDatabaseInternalError", "innerPath is not within outerPath"⟩
  | _ :: _, [] => .error ⟨"FirebaseDatabaseInternalError", "innerPath is not within outerPath"⟩

structure FCompoundWrite (K V : Type) where
  writeTree : FImmutableTree K (FNode K V)

namespace FCompoundWrite

variable {K V : Type} [LinearOrder K]

def emptyWrite : FCompoundWrite K V := ⟨.empty⟩

def isEmpty (w : FCompoundWrite K V) : Bool := w.writeTree.isEmpty

def addWrite (w : FCompoundWrite K V) (node : FNode K V) (path : List K) :
    Except NSException (FCompoundWrite K V) :=
  if path.isEmpty then .ok ⟨.initWithValue (some node)⟩
  else
    match w.writeTree.findRootMostValueAndPath path with
    | some (rootMostPath, rootMostValue) => do
      let relativePath ← relativePathFrom rootMostPath path
      let value ← rootMostValue.updateChild relativePath node
      let newWriteTree ← w.writeTree.setValue value rootMostPath
      .ok ⟨newWriteTree⟩
    | none => do
      let newWriteTree ← w.writeTree.setTree (.initWithValue (some node)) path
      .ok ⟨newWriteTree⟩

/-- What `enumerateWrites` calls its block with. -/
def enumerateWrites (w : FCompoundWrite K V) : List (List K × FNode K V) := w.writeTree.forEach

def addCompoundWrite (w compoundWrite : FCompoundWrite K V) (path : List K) :
    Except NSException (FCompoundWrite K V) :=
  compoundWrite.enumerateWrites.foldlM
    (fun newWrite e => newWrite.addWrite e.2 (path ++ e.1)) w

def removeWriteAtPath (w : FCompoundWrite K V) (path : List K) :
    Except NSException (FCompoundWrite K V) :=
  if path.isEmpty then .ok emptyWrite
  else do
    let newWriteTree ← w.writeTree.setTree .empty path
    .ok ⟨newWriteTree⟩

def completeNodeAtPath (w : FCompoundWrite K V) (path : List K) :
    Except NSException (Option (FNode K V)) :=
  match w.writeTree.findRootMostValueAndPath path with
  | some (rootMostPath, rootMostValue) => do
    let relativePath ← relativePathFrom rootMostPath path
    .ok (some (rootMostValue.getChild relativePath))
  | none => .ok none

def hasCompleteWriteAtPath (w : FCompoundWrite K V) (path : List K) : Except NSException Bool :=
  (w.completeNodeAtPath path).map Option.isSome

def childCompoundWriteAtPath (w : FCompoundWrite K V) (path : List K) :
    Except NSException (FCompoundWrite K V) :=
  if path.isEmpty then .ok w
  else do
    match ← w.completeNodeAtPath path with
    | some shadowingNode => .ok ⟨.initWithValue (some shadowingNode)⟩
    | none => .ok ⟨w.writeTree.subtreeAtPath path⟩

def applySubtreeWrite (subtreeWrite : FImmutableTree K (FNode K V)) (relativePath : List K)
    (node : FNode K V) : Except NSException (FNode K V) :=
  match subtreeWrite.value with
  | some value => node.updateChild relativePath value
  | none =>
    subtreeWrite.children.enumerateKeysAndObjects.attach.foldlM
      (fun blockNode e => applySubtreeWrite e.1.2 (relativePath ++ [e.1.1]) blockNode) node
termination_by sizeOf subtreeWrite
decreasing_by exact FImmutableTree.sizeOf_lt_of_mem e.2

def applyToNode (w : FCompoundWrite K V) (node : FNode K V) : Except NSException (FNode K V) :=
  applySubtreeWrite w.writeTree [] node

end FCompoundWrite

/-! ## `FWriteTree` -/

/-- What a record writes: a node at its path, or nodes at paths below it. -/
inductive WriteData (K V : Type) where
  | overwrite (node : FNode K V)
  | merge (compoundWrite : FCompoundWrite K V)

structure FWriteRecord (K V : Type) where
  writeId : ℤ
  path : List K
  data : WriteData K V
  visible : Bool

structure FWriteTree (K V : Type) where
  visibleWrites : FCompoundWrite K V
  allWrites : List (FWriteRecord K V)
  lastWriteId : ℤ

namespace FWriteTree

variable {K V : Type} [LinearOrder K]

def init : FWriteTree K V := ⟨.emptyWrite, [], -1⟩

def addOverwriteAtPath (t : FWriteTree K V) (path : List K) (newData : FNode K V) (writeId : ℤ)
    (visible : Bool) : Except NSException (FWriteTree K V) :=
  if writeId ≤ t.lastWriteId then
    .error ⟨"NSInternalInconsistencyException", "Stacking an older write on top of a newer one"⟩
  else do
    let visibleWrites ←
      if visible then t.visibleWrites.addWrite newData path else .ok t.visibleWrites
    .ok ⟨visibleWrites, t.allWrites ++ [⟨writeId, path, .overwrite newData, visible⟩], writeId⟩

def addMergeAtPath (t : FWriteTree K V) (path : List K) (changedChildren : FCompoundWrite K V)
    (writeId : ℤ) : Except NSException (FWriteTree K V) :=
  if writeId ≤ t.lastWriteId then
    .error ⟨"NSInternalInconsistencyException", "Stacking an older merge on top of newer one"⟩
  else do
    let visibleWrites ← t.visibleWrites.addCompoundWrite changedChildren path
    .ok ⟨visibleWrites, t.allWrites ++ [⟨writeId, path, .merge changedChildren, true⟩], writeId⟩

/-- `[self record:record containsPath:path]` -/
def recordContainsPath (record : FWriteRecord K V) (path : List K) : Bool :=
  match record.data with
  | .overwrite _ => record.path.isPrefixOf path
  | .merge merge => merge.enumerateWrites.any fun e => (record.path ++ e.1).isPrefixOf path

/-- One record of `layerTreeFromWrites`. -/
def layerRecord (treeRoot : List K) (compoundWrite : FCompoundWrite K V)
    (record : FWriteRecord K V) : Except NSException (FCompoundWrite K V) :=
  let writePath := record.path
  match record.data with
  | .overwrite overwrite =>
    if treeRoot.isPrefixOf writePath then do
      let relativePath ← relativePathFrom treeRoot writePath
      compoundWrite.addWrite overwrite relativePath
    else if writePath.isPrefixOf treeRoot then do
      let relativePath ← relativePathFrom writePath treeRoot
      compoundWrite.addWrite (overwrite.getChild relativePath) []
    else .ok compoundWrite
  | .merge merge =>
    if treeRoot.isPrefixOf writePath then do
      let relativePath ← relativePathFrom treeRoot writePath
      compoundWrite.addCompoundWrite merge relativePath
    else if writePath.isPrefixOf treeRoot then do
      let relativePath ← relativePathFrom writePath treeRoot
      if relativePath.isEmpty then compoundWrite.addCompoundWrite merge []
      else
        match ← merge.completeNodeAtPath relativePath with
        | some child => compoundWrite.addWrite (child.getChild relativePath.tail) []
        | none => .ok compoundWrite
    else .ok compoundWrite

def layerTreeFromWrites (writes : List (FWriteRecord K V)) (filter : FWriteRecord K V → Bool)
    (treeRoot : List K) : Except NSException (FCompoundWrite K V) :=
  (writes.filter filter).foldlM (layerRecord treeRoot) .emptyWrite

/-- The filter of `resetTree`: every record, also one that is not visible. -/
def defaultFilter : FWriteRecord K V → Bool := fun _ => true

def resetTree (t : FWriteTree K V) : Except NSException (FWriteTree K V) := do
  let visibleWrites ← layerTreeFromWrites t.allWrites defaultFilter []
  .ok { t with
    visibleWrites
    lastWriteId := (t.allWrites.getLast?.map FWriteRecord.writeId).getD (-1) }

/-- The loop of `removeWriteId` over the records that are left, the last one first: whether the
removed write was visible, and whether it overlaps with other writes. -/
def removeLoop (writeToRemove : FWriteRecord K V) (index : ℕ) :
    List (FWriteRecord K V × ℕ) → Bool → Bool → Bool × Bool
  | [], wasVisible, overlaps => (wasVisible, overlaps)
  | (currentWrite, i) :: rest, wasVisible, overlaps =>
    if !wasVisible then (wasVisible, overlaps)
    else if currentWrite.visible then
      if index ≤ i ∧ recordContainsPath currentWrite writeToRemove.path = true then
        removeLoop writeToRemove index rest false overlaps
      else if writeToRemove.path.isPrefixOf currentWrite.path then
        removeLoop writeToRemove index rest wasVisible true
      else removeLoop writeToRemove index rest wasVisible overlaps
    else removeLoop writeToRemove index rest wasVisible overlaps

/-- `removeWriteId`, with its answer: whether views have to be evaluated again -/
def removeWriteId (t : FWriteTree K V) (writeId : ℤ) :
    Except NSException (FWriteTree K V × Bool) :=
  match t.allWrites.findIdx? fun record => decide (record.writeId = writeId) with
  | none => .error ⟨"NSInternalInconsistencyException",
      "[FWriteTree removeWriteId:] called with nonexistent writeId."⟩
  | some index => do
    let writeToRemove ← objectAtIndex t.allWrites index
    let t := { t with allWrites := t.allWrites.eraseIdx index }
    let (wasVisible, overlaps) :=
      removeLoop writeToRemove index t.allWrites.zipIdx.reverse writeToRemove.visible false
    if !wasVisible then .ok (t, false)
    else if overlaps then do
      let t ← t.resetTree
      .ok (t, true)
    else
      match writeToRemove.data with
      | .overwrite _ => do
        let visibleWrites ← t.visibleWrites.removeWriteAtPath writeToRemove.path
        .ok ({ t with visibleWrites }, true)
      | .merge merge => do
        let visibleWrites ← merge.enumerateWrites.foldlM
          (fun visibleWrites e => visibleWrites.removeWriteAtPath (writeToRemove.path ++ e.1))
          t.visibleWrites
        .ok ({ t with visibleWrites }, true)

def calculateCompleteEventCacheAtPath (t : FWriteTree K V) (treePath : List K)
    (completeServerCache : Option (FNode K V)) (writeIdsToExclude : Option (List ℤ))
    (includeHiddenWrites : Bool) : Except NSException (Option (FNode K V)) :=
  if writeIdsToExclude.isNone && !includeHiddenWrites then do
    match ← t.visibleWrites.completeNodeAtPath treePath with
    | some shadowingNode => .ok (some shadowingNode)
    | none =>
      let subMerge ← t.visibleWrites.childCompoundWriteAtPath treePath
      if subMerge.isEmpty then .ok completeServerCache
      else do
        let complete ←
          if completeServerCache.isNone then subMerge.hasCompleteWriteAtPath [] else .ok true
        if complete then (subMerge.applyToNode (completeServerCache.getD .emptyNode)).map some
        else .ok none
  else do
    let merge ← t.visibleWrites.childCompoundWriteAtPath treePath
    if !includeHiddenWrites && merge.isEmpty then .ok completeServerCache
    else do
      let complete ←
        if !includeHiddenWrites && completeServerCache.isNone then merge.hasCompleteWriteAtPath []
        else .ok true
      if complete then do
        let filter (record : FWriteRecord K V) : Bool :=
          (record.visible || includeHiddenWrites) &&
          writeIdsToExclude.all (fun ids => !(ids.contains record.writeId)) &&
          (record.path.isPrefixOf treePath || treePath.isPrefixOf record.path)
        let mergeAtPath ← layerTreeFromWrites t.allWrites filter treePath
        (mergeAtPath.applyToNode (completeServerCache.getD .emptyNode)).map some
      else .ok none

def removeAllWrites (t : FWriteTree K V) : FWriteTree K V :=
  { t with visibleWrites := .emptyWrite, allWrites := [] }

end FWriteTree

/-! ## The writes of `FRepo` -/

/-- What happens to the pending writes: `set:withNode:` and `update:withNodes:` of the user, the
server's answer to the oldest write, and `purgeOutstandingWrites`. -/
inductive WriteOp (K V : Type) where
  | set (path : List K) (node : FNode K V)
  | update (path : List K) (nodes : FCompoundWrite K V)
  | ackWrite
  | purgeOutstandingWrites

/-- The pending writes of an `FRepo` and its counter of write ids. -/
structure FRepo (K V : Type) where
  pendingWriteTree : FWriteTree K V
  writeIdCounter : ℤ

namespace FRepo

variable {K V : Type} [LinearOrder K]

def init : FRepo K V := ⟨.init, 0⟩

def perform (repo : FRepo K V) : WriteOp K V → Except NSException (FRepo K V)
  | .set path node => do
    let tree ← repo.pendingWriteTree.addOverwriteAtPath path node repo.writeIdCounter true
    .ok ⟨tree, repo.writeIdCounter + 1⟩
  | .update path nodes =>
    if nodes.isEmpty then .ok repo
    else do
      let tree ← repo.pendingWriteTree.addMergeAtPath path nodes repo.writeIdCounter
      .ok ⟨tree, repo.writeIdCounter + 1⟩
  | .ackWrite =>
    match repo.pendingWriteTree.allWrites with
    | [] => .ok repo
    | record :: _ => do
      let (tree, _) ← repo.pendingWriteTree.removeWriteId record.writeId
      .ok { repo with pendingWriteTree := tree }
  | .purgeOutstandingWrites =>
    .ok { repo with pendingWriteTree := repo.pendingWriteTree.removeAllWrites }

def run (ops : List (WriteOp K V)) : Except NSException (FRepo K V) := ops.foldlM perform init

end FRepo

end TifaSoccer
