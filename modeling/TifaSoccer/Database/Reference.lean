import TifaSoccer.Database.KeyOrder
import TifaSoccer.Database.WriteTree

/-!
# References to the database

A `FIRDatabaseReference` is a path. A path is made by splitting strings at the slashes and is
cut from the front by counting up `pieceNum`, so that several paths share one array of pieces.
`FValidation` refuses strings with one of the characters `.#$[]`; at the root it lets `.info`
through as the first component. In an update with several paths none may be above another one.

A string is the list of its UTF-16 code units, and separators are found unit by unit.
-/

namespace TifaSoccer

namespace NSString

/-- The code units of a character: one, or a surrogate pair. -/
def units (c : Char) : NSString :=
  if c.toNat < 0x10000 then [c.toNat]
  else [0xD800 + (c.toNat - 0x10000) / 0x400, 0xDC00 + (c.toNat - 0x10000) % 0x400]

/-- The code units of a text. -/
def ofString (s : String) : NSString := s.toList.flatMap units

/-- The text of a string, for the reasons of exceptions. -/
def description : NSString → String
  | [] => ""
  | [c] => String.singleton (Char.ofNat c)
  | c :: d :: str =>
    if 0xD800 ≤ c ∧ c < 0xDC00 ∧ 0xDC00 ≤ d ∧ d < 0xE000 then
      String.singleton (Char.ofNat (0x10000 + (c - 0xD800) * 0x400 + (d - 0xDC00))) ++
        description str
    else String.singleton (Char.ofNat c) ++ description (d :: str)

/-- `[string componentsSeparatedByString:@"/"]` -/
def componentsSeparatedBySlash (string : NSString) : List NSString := string.splitOn 47

end NSString

/-! ## `FPath` -/

/-- A path: the pieces from `pieceNum` on. No piece is empty or has a slash. -/
structure FPath where
  pieces : List NSString
  pieceNum : ℕ
  pieceNum_le : pieceNum ≤ pieces.length
  piecesWhole : ∀ piece ∈ pieces, piece ≠ [] ∧ 47 ∉ piece

namespace FPath

/-- The loop of `initWith` and `childFromString`: the pieces of a string that are not empty. -/
def newPieces (string : NSString) : List NSString :=
  string.componentsSeparatedBySlash.filter fun piece => decide (piece.length > 0)

/-- The characters of a component are those of the string, without slashes. -/
theorem mem_of_mem_componentsSeparatedBySlash {string piece : NSString}
    (h : piece ∈ string.componentsSeparatedBySlash) {c : ℕ} (hc : c ∈ piece) :
    c ∈ string ∧ c ≠ 47 := by
  induction string generalizing piece with
  | nil =>
    obtain rfl : piece = [] := by simpa [NSString.componentsSeparatedBySlash] using h
    cases hc
  | cons d string ih =>
    have htail : ∀ {piece' : NSString},
        piece' ∈ NSString.componentsSeparatedBySlash string → c ∈ piece' →
        c ∈ d :: string ∧ c ≠ 47 := fun h' hc' =>
      ⟨List.mem_cons_of_mem _ (ih h' hc').1, (ih h' hc').2⟩
    rw [NSString.componentsSeparatedBySlash, List.splitOn_cons_eq_if_modifyHead] at h
    split_ifs at h with hd
    · rcases List.mem_cons.mp h with rfl | h
      · cases hc
      · exact htail h hc
    · obtain ⟨front, rest, hsplit⟩ : ∃ front rest, string.splitOn 47 = front :: rest :=
        List.exists_cons_of_ne_nil (List.splitOn_ne_nil 47 string)
      rw [NSString.componentsSeparatedBySlash, hsplit] at htail
      rw [hsplit, List.modifyHead_cons] at h
      rcases List.mem_cons.mp h with rfl | h
      · rcases List.mem_cons.mp hc with rfl | hc
        · exact ⟨List.mem_cons_self, by simpa using hd⟩
        · exact htail List.mem_cons_self hc
      · exact htail (List.mem_cons_of_mem _ h) hc

/-- The pieces of a path are not empty and have no slash. -/
theorem whole_newPieces (string : NSString) :
    ∀ piece ∈ newPieces string, piece ≠ [] ∧ 47 ∉ piece := by
  intro piece hpiece
  obtain ⟨hmem, hlength⟩ := List.mem_filter.mp hpiece
  refine ⟨List.ne_nil_of_length_pos (of_decide_eq_true hlength), fun hslash => ?_⟩
  exact (mem_of_mem_componentsSeparatedBySlash hmem hslash).2 rfl

/-- The pieces of a path that are left. -/
def components (p : FPath) : List NSString := p.pieces.drop p.pieceNum

/-- So for the pieces from the index on. -/
theorem whole_components (p : FPath) : ∀ piece ∈ p.components, piece ≠ [] ∧ 47 ∉ piece :=
  fun piece hpiece => p.piecesWhole piece (List.mem_of_mem_drop hpiece)

def initWith (path : NSString) : FPath := ⟨newPieces path, 0, Nat.zero_le _, whole_newPieces path⟩

def pathWithString (string : NSString) : FPath := initWith string

def empty : FPath := initWith []

/-- `initWithPieces:andPieceNum:` with 0 -/
def initWithPieces (somePieces : List NSString)
    (h : ∀ piece ∈ somePieces, piece ≠ [] ∧ 47 ∉ piece) : FPath :=
  ⟨somePieces, 0, Nat.zero_le _, h⟩

def getFront (p : FPath) : Option NSString :=
  if p.pieceNum ≥ p.pieces.length then none else p.pieces[p.pieceNum]?

def length (p : FPath) : ℕ := p.pieces.length - p.pieceNum

def popFront (p : FPath) : FPath where
  pieces := p.pieces
  pieceNum := if p.pieceNum < p.pieces.length then p.pieceNum + 1 else p.pieceNum
  pieceNum_le := by
    have := p.pieceNum_le
    split_ifs <;> omega
  piecesWhole := p.piecesWhole

def getBack (p : FPath) : Option NSString :=
  if p.pieceNum < p.pieces.length then p.pieces.getLast? else none

def isEmpty (p : FPath) : Bool := decide (p.pieceNum ≥ p.pieces.length)

def toStringWithTrailingSlash (p : FPath) (trailingSlash : Bool) : NSString :=
  let pathString := p.components.foldl (fun pathString piece => pathString ++ [47] ++ piece) []
  if pathString.length = 0 then [47]
  else if trailingSlash then pathString ++ [47]
  else pathString

def toString (p : FPath) : NSString := p.toStringWithTrailingSlash false

/-- The loop of `wireFormat`: a slash before every piece but the first. -/
def wireLoop : List NSString → NSString
  | [] => []
  | [piece] => piece
  | piece :: pieces => piece ++ [47] ++ wireLoop pieces

def wireFormat (p : FPath) : NSString := if p.isEmpty then [47] else wireLoop p.components

def parent (p : FPath) : Option FPath :=
  if p.pieceNum ≥ p.pieces.length then none
  else some (initWithPieces p.components.dropLast fun piece hpiece =>
    p.whole_components piece (List.mem_of_mem_dropLast hpiece))

def child (p childPathObj : FPath) : FPath :=
  initWithPieces (p.components ++ childPathObj.components) fun piece hpiece =>
    (List.mem_append.mp hpiece).elim (p.whole_components piece)
      (childPathObj.whole_components piece)

def childFromString (p : FPath) (childPath : NSString) : FPath :=
  initWithPieces (p.components ++ newPieces childPath) fun piece hpiece =>
    (List.mem_append.mp hpiece).elim (p.whole_components piece) (whole_newPieces childPath piece)

def contains (p other : FPath) : Bool :=
  if p.length > other.length then false
  else (p.components.zip other.components).all fun segs => decide (segs.1 = segs.2)

/-- The loop of `compare`: the first two pieces that do not compare as equal. -/
def compareLoop : List NSString → List NSString → Option Ordering
  | piece :: pieces, otherPiece :: otherPieces =>
    let comparison := FUtilities.compareKey (.key piece) (.key otherPiece)
    if comparison ≠ .eq then some comparison else compareLoop pieces otherPieces
  | _, _ => none

def compare (p other : FPath) : Ordering :=
  match compareLoop p.components other.components with
  | some comparison => comparison
  | none =>
    if p.length < other.length then .lt
    else if other.length < p.length then .gt
    else .eq

def isEqual (p other : FPath) : Bool :=
  if p.length ≠ other.length then false
  else (p.components.zip other.components).all fun segs => decide (segs.1 = segs.2)

/-- A path gets shorter, so that the loops end. -/
theorem length_popFront_lt {p : FPath} {front : NSString} (h : p.getFront = some front) :
    p.popFront.length < p.length := by
  have hlt : p.pieceNum < p.pieces.length := by
    by_contra hge
    rw [getFront, if_pos (by omega)] at h
    cases h
  show p.pieces.length - (if p.pieceNum < p.pieces.length then _ else _) < _ - p.pieceNum
  rw [if_pos hlt]
  omega

/-- `[FPath relativePathFrom:outer to:inner]` -/
def relativePathFrom (outer inner : FPath) : Except NSException FPath :=
  match _h : outer.getFront with
  | none => .ok inner
  | some outerFront =>
    if inner.getFront = some outerFront then relativePathFrom outer.popFront inner.popFront
    else .error ⟨"FirebaseDatabaseInternalError", "innerPath (" ++ inner.toString.description ++
      ") is not within outerPath (" ++ outer.toString.description ++ ")"⟩
termination_by outer.length
decreasing_by exact length_popFront_lt _h

end FPath

/-! ## `FValidation` -/

namespace FValidation

/-- `kInvalidPathCharacters`: `[].#$` -/
def kInvalidPathCharacters : List ℕ := [91, 93, 46, 35, 36]

/-- `kInvalidKeyCharacters`: a slash too -/
def kInvalidKeyCharacters : List ℕ := [91, 93, 46, 35, 36, 47]

/-- `kDotInfoPrefix`: `.info` -/
def kDotInfoPrefix : NSString := [46, 105, 110, 102, 111]

def isValidPathString (pathString : NSString) : Bool :=
  decide (pathString.length ≠ 0) && pathString.all fun c => !kInvalidPathCharacters.contains c

def isValidKey (key : NSString) : Bool :=
  decide (key.length > 0) && key.all fun c => !kInvalidKeyCharacters.contains c

def validPathString (fn : String) (pathString : NSString) : Except NSException Unit :=
  if isValidPathString pathString then .ok ()
  else .error ⟨"InvalidPathValidation", "(" ++ fn ++
    ") Must be a non-empty string and not contain '.' '#' '$' '[' or ']'"⟩

/-- Where `$` matches in a regular expression: at the end, and before a line terminator that ends
the text. -/
def atDollar (rest : NSString) : Bool :=
  [[], [10], [11], [12], [13], [13, 10], [0x85], [0x2028], [0x2029]].contains rest

/-- Replaces the match of `^\\/*\\.info(\\/|$)` by a slash. -/
def replaceDotInfo (pathString : NSString) : NSString :=
  match (pathString.dropWhile fun c => decide (c = 47)).dropPrefix? kDotInfoPrefix with
  | some (47 :: rest) => 47 :: rest
  | some rest => if atDollar rest then 47 :: rest else pathString
  | none => pathString

def validRootPathString (fn : String) (pathString : NSString) : Except NSException Unit :=
  let tempPath := if kDotInfoPrefix <:+: pathString then replaceDotInfo pathString else pathString
  validPathString fn tempPath

def writablePath (fn : String) (path : FPath) : Except NSException Unit :=
  if path.getFront = some kDotInfoPrefix then
    .error ⟨"WritablePathValidation", "(" ++ fn ++ ") failed to path " ++
      path.toString.description ++ ": Can't modify data under .info"⟩
  else .ok ()

/-- `validateFrom:validUpdateDictionaryKey:withValue:` for a path that does not end in
`.priority` -/
def validUpdateDictionaryKey (fn : String) (keyId : NSString) : Except NSException Unit :=
  if (FPath.pathWithString keyId).components.all isValidKey then .ok ()
  else .error ⟨"InvalidFirebaseData", "(" ++ fn ++ ") Invalid key in object. Keys must be " ++
    "non-empty and cannot contain '.' '#' '$' '[' or ']'"⟩

end FValidation

/-! ## `FIRDatabaseReference` -/

/-- A reference; its repository is the only one. -/
structure FIRDatabaseReference where
  path : FPath

namespace FIRDatabaseReference

/-- `[database reference]` -/
def reference : FIRDatabaseReference := ⟨.empty⟩

def referenceWithPath (path : NSString) : Except NSException FIRDatabaseReference :=
  (FValidation.validRootPathString "referenceWithPath" path).map fun _ => ⟨.initWith path⟩

def child (ref : FIRDatabaseReference) (pathString : NSString) :
    Except NSException FIRDatabaseReference :=
  let validated :=
    if ref.path.getFront = none then FValidation.validRootPathString "child:" pathString
    else FValidation.validPathString "child:" pathString
  validated.map fun _ => ⟨ref.path.childFromString pathString⟩

def parent (ref : FIRDatabaseReference) : Option FIRDatabaseReference := ref.path.parent.map .mk

def root (_ref : FIRDatabaseReference) : FIRDatabaseReference := ⟨.initWith []⟩

def key (ref : FIRDatabaseReference) : Option NSString :=
  if ref.path.isEmpty then none else ref.path.getBack

end FIRDatabaseReference

/-! ## Updates with several paths -/

/-- A key of the dictionary of `updateChildValues:`, a path. It is not the path of a priority, and
no component reads as a negative zero. -/
structure UpdateKey where
  text : NSString
  notPriority : (FPath.pathWithString text).getBack ≠ some (.ofString ".priority")
  notMinusZero : ∀ piece ∈ (FPath.pathWithString text).components, ∀ n, 1 ≤ n → n ≤ 10 →
    piece ≠ FUtilities.minusZero n

/-- The keys along the path. -/
def UpdateKey.keys (keyId : UpdateKey) : List FKey :=
  (FPath.pathWithString keyId.text).components.attach.map fun piece =>
    ⟨piece.1, keyId.notMinusZero piece.1 piece.2⟩

namespace FSnapshotUtilities

/-- The loop over the sorted paths: no path is above the next one. -/
def ancestorLoop (fn : String) : Option FPath → List FPath → Except NSException Unit
  | _, [] => .ok ()
  | none, path :: updatePaths => ancestorLoop fn (some path) updatePaths
  | some prevPath, path :: updatePaths =>
    if prevPath.contains path then
      .error ⟨"InvalidFirebaseData", "(" ++ fn ++ ") Invalid path in object. Path (" ++
        prevPath.toString.description ++ ") is an ancestor of (" ++ path.toString.description ++
        ")."⟩
    else ancestorLoop fn (some path) updatePaths

def sortUpdatePaths (updatePaths : List FPath) : List FPath :=
  updatePaths.mergeSort fun left right => decide (left.compare right ≠ .gt)

end FSnapshotUtilities

end TifaSoccer
