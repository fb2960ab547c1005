import TifaSoccer.Lib.Json

/-!
# The app's data models

`UserModel`, `UserPositionModel`, `CommentsModel` and `MatchsModel` with their decoders from
the dictionaries Firebase returns, and the two encoders the app writes with. The decoders
never fail: a field that is missing or of another type becomes an empty string, `0` or
`false`, and a nested map one of whose children is not an object becomes an empty map.

A Swift dictionary is iterated in an order that changes from run to run. `DictOrder` is such
an order, and every decoder that iterates a dictionary takes one. Strings that Swift's `==`
identifies, the canonically equivalent ones, are one `String` here.
-/

namespace TifaSoccer

/-- The scalars the database stores. The app writes no number that is not an `Int64`; any other
one is decoded like the integer it equals, or like `0`. -/
inductive Scalar where
  | str (s : String)
  | int (n : Int64)
  | bool (b : Bool)
deriving DecidableEq

/-- A value of the database: a snapshot's `value`, or what `setValue` writes. Every object is read
back as a dictionary; the array that Firebase makes of an object with dense integer keys is left
out. -/
abbrev Value := Json String Scalar

/-- A value that is not null. -/
abbrev Node := JsonTree String Scalar

/-- `[String: AnyObject]`. -/
abbrev Dictionary := List (String × Node)

/-! ## Conditional casts -/

namespace Node

/-- `as? String` -/
def asString : Node → Option String
  | .leaf (.str s) => some s
  | _ => none

/-- `as? Int` and `as? Int64`; a Boolean `NSNumber` bridges to `0` or `1`. -/
def asInt : Node → Option Int64
  | .leaf (.int n) => some n
  | .leaf (.bool b) => some (if b then 1 else 0)
  | _ => none

/-- `as? Bool`; of the numbers only `0` and `1` bridge. -/
def asBool : Node → Option Bool
  | .leaf (.bool b) => some b
  | .leaf (.int n) => if n = 0 then some false else if n = 1 then some true else none
  | _ => none

/-- `as? [String: AnyObject]` -/
def asDictionary : Node → Option Dictionary
  | .object es => some es
  | .leaf _ => none

/-- `as? [String: [String: AnyObject]]`: the cast fails when one child is not an object. -/
def asNested : Node → Option (List (String × Dictionary))
  | .object es => es.mapM fun e => (asDictionary e.2).map fun d => (e.1, d)
  | .leaf _ => none

end Node

namespace Dictionary

/-- `dictionary[key] as? String ?? ""` -/
def string (dictionary : Dictionary) (key : String) : String :=
  ((Entries.find key dictionary).bind Node.asString).getD ""

/-- `dictionary[key] as? Int ?? 0` -/
def int (dictionary : Dictionary) (key : String) : Int64 :=
  ((Entries.find key dictionary).bind Node.asInt).getD 0

/-- `dictionary[key] as? Bool ?? false` -/
def bool (dictionary : Dictionary) (key : String) : Bool :=
  ((Entries.find key dictionary).bind Node.asBool).getD false

/-- `dictionary[key] as? [String: [String: AnyObject]] ?? [:]` -/
def nested (dictionary : Dictionary) (key : String) : List (String × Dictionary) :=
  ((Entries.find key dictionary).bind Node.asNested).getD []

end Dictionary

/-- The order in which the nested dictionary under a field name is iterated. -/
structure DictOrder where
  iterate : String → List (String × Dictionary) → List (String × Dictionary)
  perm : ∀ name es, (iterate name es).Perm es

/-- The order of the keys. -/
def DictOrder.byKey : DictOrder := ⟨fun _ es => es, fun _ _ => .refl _⟩

/-! ## Users -/

structure UserModel where
  email : Option String
  nameSurname : Option String
  position : Option String
  rate : Option Int64
  picture : Option String
  uuid : Option String
  authority : Option String
deriving DecidableEq

structure UserPositionModel where
  email : Option String
  nameSurname : Option String
  position : Option String
  rate : Option Int64
  picture : Option String
  uuid : Option String
  authority : Option String
  positionForMatch : Option String
deriving DecidableEq

/-- `UserModel.init(dictionary:)` -/
def UserModel.init (dictionary : Dictionary) : UserModel where
  email := some (dictionary.string "email")
  nameSurname := some (dictionary.string "nameSurname")
  position := some (dictionary.string "position")
  rate := some (dictionary.int "rate")
  picture := some (dictionary.string "picture")
  uuid := some (dictionary.string "uuid")
  authority := some (dictionary.string "authority")

/-- `UserPositionModel.init(dictionary:)` -/
def UserPositionModel.init (dictionary : Dictionary) : UserPositionModel where
  email := some (dictionary.string "email")
  nameSurname := some (dictionary.string "nameSurname")
  position := some (dictionary.string "position")
  rate := some (dictionary.int "rate")
  picture := some (dictionary.string "picture")
  uuid := some (dictionary.string "uuid")
  authority := some (dictionary.string "authority")
  positionForMatch := some (dictionary.string "positionForMatch")

/-- An optional string as Firebase takes it: `nil` becomes null. -/
def stringValue : Option String → Value
  | some s => .leaf (.str s)
  | none => .null

def intValue : Option Int64 → Value
  | some n => .leaf (.int n)
  | none => .null

/-- `UserModel.asDictionary`: the fields in the order the mirror lists them. -/
def UserModel.asDictionary (self : UserModel) : List (String × Value) :=
  [("email", stringValue self.email),
   ("nameSurname", stringValue self.nameSurname),
   ("position", stringValue self.position),
   ("rate", intValue self.rate),
   ("picture", stringValue self.picture),
   ("uuid", stringValue self.uuid),
   ("authority", stringValue self.authority)]

/-- `UserPositionModel.asDictionary` -/
def UserPositionModel.asDictionary (self : UserPositionModel) : List (String × Value) :=
  [("email", stringValue self.email),
   ("nameSurname", stringValue self.nameSurname),
   ("position", stringValue self.position),
   ("rate", intValue self.rate),
   ("picture", stringValue self.picture),
   ("uuid", stringValue self.uuid),
   ("authority", stringValue self.authority),
   ("positionForMatch", stringValue self.positionForMatch)]

/-- `UserModel.castUserPositionModel(position:)` -/
def UserModel.castUserPositionModel (self : UserModel) (position : String) : UserPositionModel :=
  let params : Dictionary :=
    [("email", .leaf (.str (self.email.getD ""))),
     ("authority", .leaf (.str (self.authority.getD ""))),
     ("nameSurname", .leaf (.str (self.nameSurname.getD ""))),
     ("picture", .leaf (.str (self.picture.getD ""))),
     ("position", .leaf (.str (self.position.getD ""))),
     ("rate", .leaf (.int (self.rate.getD 0))),
     ("uuid", .leaf (.str (self.uuid.getD ""))),
     ("positionForMatch", .leaf (.str position))]
  UserPositionModel.init params

/-! ## Matches -/

structure CommentsModel where
  uuid : Option String
  comment : Option String
  date : Option String
deriving DecidableEq

/-- `CommentsModel.init(dictionary:)` -/
def CommentsModel.init (dictionary : Dictionary) : CommentsModel where
  uuid := some (dictionary.string "uuid")
  comment := some (dictionary.string "comment")
  date := some (dictionary.string "date")

structure MatchsModel where
  matchID : Option String
  startDate : Option Int64
  finishDate : Option Int64
  footballArea : Option String
  adminMessage : Option String
  players : Option (List UserModel)
  Position : Option (List UserPositionModel)
  isPlanningComplete : Option Bool
  comments : Option (List CommentsModel)
deriving DecidableEq

/-- `MatchsModel.init(dictionary:)` -/
def MatchsModel.init (order : DictOrder) (dictionary : Dictionary) : MatchsModel where
  matchID := some (dictionary.string "matchID")
  startDate := some (dictionary.int "startDate")
  finishDate := some (dictionary.int "finishDate")
  footballArea := some (dictionary.string "footballArea")
  adminMessage := some (dictionary.string "adminMessage")
  players := some ((order.iterate "players" (dictionary.nested "players")).map
    fun dic => UserModel.init dic.2)
  Position := some ((order.iterate "Positions" (dictionary.nested "Positions")).map
    fun dic => UserPositionModel.init dic.2)
  isPlanningComplete := some (dictionary.bool "isPlanningComplete")
  comments := some ((order.iterate "Comments" (dictionary.nested "Comments")).map
    fun dic => CommentsModel.init dic.2)

/-- The slots of the pitch. -/
inductive PlayerPosition where
  | A0 | A1 | A2 | A3 | A4 | A5 | A6
  | B0 | B1 | B2 | B3 | B4 | B5 | B6
deriving DecidableEq

def PlayerPosition.rawValue : PlayerPosition → String
  | .A0 => "A0" | .A1 => "A1" | .A2 => "A2" | .A3 => "A3" | .A4 => "A4" | .A5 => "A5" | .A6 => "A6"
  | .B0 => "B0" | .B1 => "B1" | .B2 => "B2" | .B3 => "B3" | .B4 => "B4" | .B5 => "B5" | .B6 => "B6"

/-- No position has the empty name. -/
theorem rawValue_ne_empty (position : PlayerPosition) : position.rawValue ≠ "" := by
  cases position <;> decide

/-- `PlayerPosition.allCases` -/
def PlayerPosition.allCases : List PlayerPosition :=
  [.A0, .A1, .A2, .A3, .A4, .A5, .A6, .B0, .B1, .B2, .B3, .B4, .B5, .B6]

/-- `value as? [String: AnyObject]` of a snapshot. -/
def Value.asDictionary (v : Value) : Option Dictionary :=
  v.root.bind Node.asDictionary

end TifaSoccer
