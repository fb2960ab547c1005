import TifaSoccer.Database.Reference

/-!
# Values and snapshots

`nodeFrom` makes a node of the value given to `setValue`, and `valForExport` makes a value of a
node for the reader of a snapshot. A node has children under keys only, so the elements of an
array become children under their indices, and the children of a node are given as an array if
their keys are integers and at least half of the indices are there. `compoundWriteFromDictionary`
merges the nodes of an update into one compound write.

A value is null, a string or a number (a leaf here), a dictionary or an array. What the code asks
of Foundation about leaves and about digits other than 0 to 9 is a parameter. The keys `.priority`,
`.value` and `.sv` of a dictionary, which do not make a child, are left out.
-/

namespace TifaSoccer

/-- A value of Objective-C. The entries of a dictionary come in the order of an enumeration. -/
inductive NSObject (V : Type) where
  | null
  | leaf (value : V)
  | dictionary (entries : List (FKey × NSObject V))
  | array (objects : List (NSObject V))

/-- A leaf as the validation sees it: a string by its length in UTF-8, or a number. -/
inductive LeafKind where
  | string (lengthOfBytes : ℕ)
  | number (isNaN : Bool)

/-- What the code asks of Foundation. -/
structure Foundation (V : Type) where
  leafKind : V → LeafKind
  /-- the number `scanInteger` reads from a string of decimal digits, for those that have other
  digits than 0 to 9 -/
  scanInteger : NSString → Option ℕ

/-- `[NSString stringWithFormat:@"%i", n]` -/
def NSString.ofNat (n : ℕ) : NSString :=
  if n = 0 then [48] else (Nat.digits 10 n).reverse.map (· + 48)

/-- A printed number has digits only. -/
theorem NSString.digit_of_mem_ofNat {n c : ℕ} (h : c ∈ ofNat n) : 48 ≤ c ∧ c ≤ 57 := by
  unfold ofNat at h
  split_ifs at h with hn
  · obtain rfl := List.mem_singleton.mp h
    omega
  · obtain ⟨d, hd, rfl⟩ := List.mem_map.mp h
    have := Nat.digits_lt_base (by omega) (List.mem_reverse.mp hd)
    omega

/-- The key of an index. -/
def FKey.ofNat (n : ℕ) : FKey where
  text := .ofNat n
  notMinusZero := by
    intro m _ _ heq
    have hminus : 45 ∈ NSString.ofNat n := heq ▸ List.mem_cons_self
    have := NSString.digit_of_mem_ofNat hminus
    omega

namespace FUtilities

/-- The number of a string of digits; larger ones become the largest `NSInteger`. -/
def intForString {V : Type} (F : Foundation V) (string : NSString) : Option ℕ :=
  if string = [] then none
  else
    match parseDigits string 0 with
    | some num => some (min num (2 ^ 63 - 1))
    | none => F.scanInteger string

end FUtilities

namespace FValidation

def joined (path : List NSString) (count : ℕ) : String :=
  ".".intercalate ((path.take count).map NSString.description)

/-- `validateFrom:validDictionaryKey:withPath:` -/
def validDictionaryKey (fn : String) (key : NSString) (path : List NSString) :
    Except NSException Unit :=
  if key ≠ .ofString ".priority" ∧ key ≠ .ofString ".value" ∧ key ≠ .ofString ".sv" ∧
      isValidKey key = false then
    .error ⟨"InvalidFirebaseData", "(" ++ fn ++ ") Invalid key in object at path: " ++
      joined path 50 ++ ". Keys must be non-empty and cannot contain '/' '.' '#' '$' '[' or ']'"⟩
  else .ok ()

/-- 10 MB -/
def kFirebaseMaxLeafSize : ℕ := 1024 * 1024 * 10

/-- `validateFrom:isValidLeafValue:withPath:` on a string or a number -/
def isValidLeafValue {V : Type} (F : Foundation V) (fn : String) (value : V)
    (path : List NSString) : Except NSException Unit :=
  match F.leafKind value with
  | .string lengthOfBytes =>
    if lengthOfBytes > kFirebaseMaxLeafSize then
      .error ⟨"InvalidFirebaseData", "(" ++ fn ++ ") String exceeds max size of " ++
        toString kFirebaseMaxLeafSize ++ " utf8 bytes: " ++ joined path 50⟩
    else .ok ()
  | .number isNaN =>
    if isNaN then
      .error ⟨"InvalidFirebaseData", "(" ++ fn ++ ") Cannot store NaN at path: " ++
        joined path 50 ++ "."⟩
    else .ok ()

end FValidation

/-! ## `nodeFrom` -/

namespace FSnapshotUtilities

variable {V : Type} (F : Foundation V)

/-- The children that were found, as a node. -/
def nodeWithChildren (children : NSDictionary FKey (FNode FKey V)) :
    Except NSException (FNode FKey V) :=
  if children.entries.length = 0 then .ok .emptyNode
  else (FImmutableSortedDictionary.fromDictionary children).map .children

/-- `children[key] = childNode`, unless the child is empty -/
def addChild (children : NSDictionary FKey (FNode FKey V)) (key : FKey)
    (childNode : FNode FKey V) : NSDictionary FKey (FNode FKey V) :=
  if childNode.isEmpty then children else children.setObject key childNode

/-- The first check of `internalNodeFrom` -/
def checkDepth (fn : String) (depth : ℕ) (path : List NSString) : Except NSException Unit :=
  if depth > 1000 then
    .error ⟨"InvalidFirebaseData", "(" ++ fn ++ ") Max object depth exceeded: " ++
      FValidation.joined path 100 ++ "..."⟩
  else .ok ()

mutual

def internalNodeFrom (fn : String) (depth : ℕ) (path : List NSString) :
    NSObject V → Except NSException (FNode FKey V)
  | .null => do
    checkDepth fn depth path
    .ok .emptyNode
  | .leaf value => do
    checkDepth fn depth path
    FValidation.isValidLeafValue F fn value path
    .ok (.leaf value)
  | .dictionary entries => do
    checkDepth fn depth path
    let children ← dictionaryLoop fn depth path .empty entries
    nodeWithChildren children
  | .array objects => do
    checkDepth fn depth path
    let children ← arrayLoop fn depth path 0 .empty objects
    nodeWithChildren children

/-- The loop over a dictionary. A key that starts with a dot makes no child. -/
def dictionaryLoop (fn : String) (depth : ℕ) (path : List NSString)
    (children : NSDictionary FKey (FNode FKey V)) :
    List (FKey × NSObject V) → Except NSException (NSDictionary FKey (FNode FKey V))
  | [] => .ok children
  | (key, value) :: entries => do
    FValidation.validDictionaryKey fn key.text path
    if key.text.head? = some 46 then dictionaryLoop fn depth path children entries
    else
      let childNode ← internalNodeFrom fn (depth + 1) (path ++ [key.text]) value
      dictionaryLoop fn depth path (addChild children key childNode) entries

/-- The loop over an array. -/
def arrayLoop (fn : String) (depth : ℕ) (path : List NSString) (i : ℕ)
    (children : NSDictionary FKey (FNode FKey V)) :
    List (NSObject V) → Except NSException (NSDictionary FKey (FNode FKey V))
  | [] => .ok children
  | value :: objects => do
    let key := FKey.ofNat i
    let childNode ← internalNodeFrom fn (depth + 1) (path ++ [key.text]) value
    arrayLoop fn depth path (i + 1) (addChild children key childNode) objects

end

/-- `[FSnapshotUtilities nodeFrom:val withValidationFrom:fn]` -/
def nodeFrom (val : NSObject V) (fn : String) : Except NSException (FNode FKey V) :=
  internalNodeFrom F fn 0 [] val

/-! ## `compoundWriteFromDictionary` -/

/-- One turn of the loop over the dictionary -/
def mergeEntry (fn : String) (compoundWrite : FCompoundWrite FKey V) (e : UpdateKey × NSObject V) :
    Except NSException (FCompoundWrite FKey V) := do
  FValidation.validUpdateDictionaryKey fn e.1.text
  let node ← nodeFrom F e.2 fn
  compoundWrite.addWrite node e.1.keys

/-- `compoundWriteFromDictionary:withValidationFrom:`, for an enumeration of the dictionary -/
def compoundWriteFromDictionary (values : List (UpdateKey × NSObject V)) (fn : String) :
    Except NSException (FCompoundWrite FKey V) := do
  let compoundWrite ← values.foldlM (mergeEntry F fn) .emptyWrite
  ancestorLoop fn none (sortUpdatePaths (values.map fun e => .pathWithString e.1.text))
  .ok compoundWrite

end FSnapshotUtilities

/-! ## `valForExport` -/

namespace FNode

variable {V : Type}

/-- What the block of `valForExport` keeps count of. -/
structure KeyCount where
  numKeys : ℕ := 0
  maxKey : ℕ := 0
  allIntegerKeys : Bool := true

def KeyCount.add (F : Foundation V) (s : KeyCount) (key : NSString) : KeyCount :=
  let s := { s with numKeys := s.numKeys + 1 }
  if !s.allIntegerKeys then s
  -- a leading zero makes a string
  else if key.head? = some 48 ∧ key.length > 1 then { s with allIntegerKeys := false }
  else
    match FUtilities.intForString F key with
    | some keyAsInt => if keyAsInt > s.maxKey then { s with maxKey := keyAsInt } else s
    | none => { s with allIntegerKeys := false }

/-- `valForExport:`. The dictionary is enumerated in the order `enumeration` puts its entries. -/
def valForExport (F : Foundation V)
    (enumeration : List (FKey × NSObject V) → List (FKey × NSObject V)) (exp : Bool) :
    FNode FKey V → NSObject V
  | .leaf value => .leaf value
  | .children d =>
    if d.isEmpty then .null
    else
      let obj := d.enumerateKeysAndObjects.attach.map fun e =>
        (e.1.1, valForExport F enumeration exp e.1.2)
      let s := (obj.map fun e => e.1.text).foldl (KeyCount.add F) {}
      if !exp && s.allIntegerKeys && decide (s.maxKey < 2 * s.numKeys) then
        .array ((List.range (s.maxKey + 1)).map fun i =>
          (Entries.find (FKey.ofNat i) obj).getD .null)
      else .dictionary (enumeration obj)
termination_by node => sizeOf node
decreasing_by
  have := FImmutableSortedDictionary.sizeOf_lt_of_mem e.2
  simp only [children.sizeOf_spec]
  omega

end FNode

end TifaSoccer
