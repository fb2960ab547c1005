import TifaSoccer.Repository

/-!
# `MatchsViewModel`

Every function of the view model returns its new state and the requests it puts in flight, or
the exception `child` raised. A request is a constructor of `MatchsViewModel.Request` with the
variables its completion captures; `Request.remote` builds its reference from the strings as
the source does, and `complete` is the completion. Data the device generates (UUIDs, the
date) is an argument of the call.
-/

namespace TifaSoccer

structure MatchsViewModel where
  isLoad : Bool := false
  matchsModelList : List MatchsModel := []
  selectedMatch : MatchsModel := MatchsModel.init .byKey []
  unselectedPlayer : List UserModel := []
  errorMessage : String := ""
  showAlert : Bool := false

namespace MatchsViewModel

/-! ## Requests -/

inductive Request where
  | getAllMatchs
  /-- the first request of `joinMatches`: read the roster -/
  | joinMatchesRead (matchsID currentUserID : String) (currentUser : UserModel)
  /-- the second request of `joinMatches`: write the player -/
  | joinMatchesWrite (matchsID currentUserID : String) (currentUser : UserModel)
  | isUserInFootballArea (matchID currentUserID : String)
  | deletePlayerForFootballArea (matchID position : String)
  | leaveMatches (matchsID currentUserID : String)
  | deleteMatches (matchsID : String)
  | setPlayerPositionWithMatch (matchID playerPosition : String) (player : UserModel)
  | deletePlayerPositionWithMatch (matchID playerPosition : String)
  | getMatchWithMatchID (matchID : String)
  | setIsPlanningCompleteForMatch (matchID : String) (value : Bool)
  | addComment (matchID key comment uuid date : String)
deriving DecidableEq

/-- The fields `addComment` writes. -/
def commentParams (comment uuid date : String) : List (String × Value) :=
  [("comment", .leaf (.str comment)), ("uuid", .leaf (.str uuid)), ("date", .leaf (.str date))]

/-- The Firebase call behind a request. -/
def Request.remote : Request → Except InvalidPath Remote
  | .getAllMatchs => return .getData (getReference "Matchs")
  | .joinMatchesRead matchsID _ _ => do
    let dbReference ← (← (getReference "Matchs").child matchsID).child "players"
    return .getData dbReference
  | .joinMatchesWrite matchsID currentUserID currentUser => do
    let dbReference ← (← (getReference "Matchs").child matchsID).child "players"
    return .setValue (← dbReference.child currentUserID) (.object currentUser.asDictionary)
  | .isUserInFootballArea matchID _ => do
    return .getData (← (getReference "Matchs").child matchID)
  | .deletePlayerForFootballArea matchID position => do
    let reference ← (← (getReference "Matchs").child matchID).child "Positions"
    return .removeValue (← reference.child position)
  | .leaveMatches matchsID currentUserID => do
    let reference ← (← (getReference "Matchs").child matchsID).child "players"
    return .removeValue (← reference.child currentUserID)
  | .deleteMatches matchsID => do
    return .removeValue (← (getReference "Matchs").child matchsID)
  | .setPlayerPositionWithMatch matchID playerPosition player => do
    let userPositionModel := player.castUserPositionModel playerPosition
    let reference ← (← (getReference "Matchs").child matchID).child "Positions"
    return .setValue (← reference.child playerPosition) (.object userPositionModel.asDictionary)
  | .deletePlayerPositionWithMatch matchID playerPosition => do
    let reference ← (← (getReference "Matchs").child matchID).child "Positions"
    return .removeValue (← reference.child playerPosition)
  | .getMatchWithMatchID matchID => do
    return .getData (← (getReference "Matchs").child matchID)
  | .setIsPlanningCompleteForMatch matchID value => do
    let reference ← (getReference "Matchs").child matchID
    return .setValue (← reference.child "isPlanningComplete") (.leaf (.bool value))
  | .addComment matchID key comment uuid date => do
    let reference ← (← (getReference "Matchs").child matchID).child "Comments"
    return .setValue (← reference.child key) (.object (commentParams comment uuid date))

/-- What a function of the view model returns. -/
abbrev Effect := Except InvalidPath (MatchsViewModel × List Request)

/-- Put a request in flight; building its reference may raise. -/
def send (self : MatchsViewModel) (r : Request) : Effect := do
  let _ ← r.remote
  return (self, [r])

/-- Show an error to the user. -/
def alert (self : MatchsViewModel) (errorMessage : String) : MatchsViewModel :=
  { self with errorMessage := errorMessage, showAlert := true }

/-! ## The list of matches -/

def getAllMatchs (self : MatchsViewModel) : MatchsViewModel × List Request :=
  ({ self with isLoad := true, matchsModelList := [] }, [.getAllMatchs])

/-- One turn of the loop over the children of the snapshot: an object is decoded and appended,
any other child clears the list. -/
def appendChild (order : DictOrder) (self : MatchsViewModel) (snap : Node) : MatchsViewModel :=
  match snap.asDictionary with
  | some placeDict =>
    { self with
      matchsModelList := self.matchsModelList ++ [MatchsModel.init order placeDict]
      isLoad := false }
  | none => { self with matchsModelList := [], isLoad := false }

/-- The loop of `getAllMatchs`; the `i`-th child is decoded with the `i`-th order. -/
def appendChildren (orders : ℕ → DictOrder) (self : MatchsViewModel) (children : Dictionary) :
    MatchsViewModel :=
  children.zipIdx.foldl (fun self c => appendChild (orders c.2) self c.1.2) self

def getAllMatchsCompletion (self : MatchsViewModel) (orders : ℕ → DictOrder) :
    Answer → MatchsViewModel
  | .error e => { self with matchsModelList := [], isLoad := false }.alert e
  | a => self.appendChildren orders a.value.entries

/-! ## Joining -/

def joinMatches (self : MatchsViewModel) (matchsID : String) (currentUser : UserModel) : Effect :=
  let self := { self with isLoad := true }
  match currentUser.uuid with
  | some currentUserID => self.send (.joinMatchesRead matchsID currentUserID currentUser)
  | none => return (self, [])

def joinMatchesReadCompletion (self : MatchsViewModel) (matchsID currentUserID : String)
    (currentUser : UserModel) : Answer → Effect
  | .error e => return ({ self with isLoad := false }.alert e, [])
  | a =>
    let count := a.value.childrenCount
    -- `isLoad` stays set in this branch of the source
    if count = 14 then return (self.alert "Bu maçın kadrosu tamamlandı !", [])
    else self.send (.joinMatchesWrite matchsID currentUserID currentUser)

/-- The failure branch reports `error`, the error of the first request, which is `nil` here. -/
def joinMatchesWriteCompletion (self : MatchsViewModel) : Answer → MatchsViewModel × List Request
  | .error _ =>
    let (self, requests) := { self with isLoad := false }.getAllMatchs
    (self.alert "Oups!", requests)
  | _ => { self with isLoad := false }.getAllMatchs

/-! ## Leaving -/

def deletePlayerForFootballArea (self : MatchsViewModel) (matchID position : String) : Effect :=
  { self with isLoad := true }.send (.deletePlayerForFootballArea matchID position)

def deletePlayerForFootballAreaCompletion (self : MatchsViewModel) :
    Answer → MatchsViewModel × List Request
  | .error e => ({ self with isLoad := false }.alert e, [])
  | _ => { self with isLoad := false }.getAllMatchs

def isUserInFootballArea (self : MatchsViewModel) (matchID currentUserID : String) : Effect :=
  { self with isLoad := true }.send (.isUserInFootballArea matchID currentUserID)

/-- The first position of the match that is the user's. -/
def positionOfUser (order : DictOrder) (currentUserID : String) (v : Value) :
    Option UserPositionModel := do
  let placeDict ← v.asDictionary
  let positions ← (MatchsModel.init order placeDict).Position
  positions.find? fun position => decide (position.uuid = some currentUserID)

def isUserInFootballAreaCompletion (self : MatchsViewModel) (order : DictOrder)
    (matchID currentUserID : String) : Answer → Effect
  | .error e => return ({ self with isLoad := false }.alert e, [])
  | a =>
    let self := { self with isLoad := false }
    -- the loop of the source stops at the first position it deletes
    match positionOfUser order currentUserID a.value with
    | some position => self.deletePlayerForFootballArea matchID (position.positionForMatch.getD "")
    | none => return self.getAllMatchs

/-- `currentUserID` is the uid Auth reports when the function is called. -/
def leaveMatches (self : MatchsViewModel) (currentUserID : Option String) (matchsID : String) :
    Effect :=
  let self := { self with isLoad := true }
  match currentUserID with
  | some currentUserID => self.send (.leaveMatches matchsID currentUserID)
  | none => return (self, [])

def leaveMatchesCompletion (self : MatchsViewModel) (matchsID currentUserID : String) :
    Answer → Effect
  | .error e => return ({ self with isLoad := false }.alert e, [])
  | _ => { self with isLoad := false }.isUserInFootballArea matchsID currentUserID

/-! ## Deleting a match -/

def deleteMatches (self : MatchsViewModel) (matchsID : String) : Effect :=
  { self with isLoad := true }.send (.deleteMatches matchsID)

def deleteMatchesCompletion (self : MatchsViewModel) : Answer → MatchsViewModel × List Request
  | .error e => ({ self with isLoad := false }.alert e, [])
  | _ => { self with isLoad := false }.getAllMatchs

/-! ## The detail of one match -/

def getMatchWithMatchID (self : MatchsViewModel) (matchID : String) : Effect :=
  { self with isLoad := true }.send (.getMatchWithMatchID matchID)

/-- The nested loops that compute `unselectedPlayer`: for each pair of a position and a player
with one uuid, every entry with that uuid is removed from the list. -/
def removeSelected (positions : List UserPositionModel) (players unselected : List UserModel) :
    List UserModel :=
  positions.foldl (fun unselected position =>
    players.foldl (fun unselected player =>
      if position.uuid = player.uuid then
        unselected.filter fun x => decide (x.uuid ≠ player.uuid)
      else unselected) unselected) unselected

/-- Store a fetched match. -/
def selectMatch (self : MatchsViewModel) (match' : MatchsModel) : MatchsViewModel :=
  let players := match'.players.getD []
  { self with
    selectedMatch := match'
    unselectedPlayer := removeSelected (match'.Position.getD []) players players }

def getMatchWithMatchIDCompletion (self : MatchsViewModel) (order : DictOrder) :
    Answer → MatchsViewModel
  | .error e => { self with isLoad := false }.alert e
  | a =>
    match a.value.asDictionary with
    | some placeDict => { self.selectMatch (MatchsModel.init order placeDict) with isLoad := false }
    -- the match is gone: the one selected before stays
    | none => { self with isLoad := false }

def setPlayerPositionWithMatch (self : MatchsViewModel) (matchID playerPosition : String)
    (player : UserModel) : Effect :=
  { self with isLoad := true }.send (.setPlayerPositionWithMatch matchID playerPosition player)

def deletePlayerPositionWithMatch (self : MatchsViewModel) (matchID playerPosition : String) :
    Effect :=
  { self with isLoad := true }.send (.deletePlayerPositionWithMatch matchID playerPosition)

/-- The completion of `setPlayerPositionWithMatch` and of `deletePlayerPositionWithMatch`: the
refresh is started first and `isLoad` is cleared after it. -/
def refreshThenUnload (self : MatchsViewModel) (matchID : String) : Answer → Effect
  | .error e => return ({ self with isLoad := false }.alert e, [])
  | _ => do
    let (self, requests) ← self.getMatchWithMatchID matchID
    return ({ self with isLoad := false }, requests)

def setIsPlanningCompleteForMatch (self : MatchsViewModel) (matchID : String) : Effect :=
  let self := { self with isLoad := true }
  match self.selectedMatch.isPlanningComplete with
  | some matchPlanning => self.send (.setIsPlanningCompleteForMatch matchID !matchPlanning)
  | none => return (self, [])

def addComment (self : MatchsViewModel) (comment uuid date key : String) : Effect :=
  -- the decoder has put `""` for a missing id, so the test for `nil` never fails
  match self.selectedMatch.matchID with
  | some matchID => { self with isLoad := true }.send (.addComment matchID key comment uuid date)
  | none => return (self, [])

/-- The completion of `setIsPlanningCompleteForMatch` and of `addComment`: `isLoad` is cleared
first and set again by the refresh. -/
def unloadThenRefresh (self : MatchsViewModel) (matchID : String) : Answer → Effect
  | .error e => return ({ self with isLoad := false }.alert e, [])
  | _ => { self with isLoad := false }.getMatchWithMatchID matchID

/-! ## Completions -/

/-- The completion of each request. -/
def complete (self : MatchsViewModel) (orders : ℕ → DictOrder) (r : Request) (a : Answer) :
    Effect :=
  match r with
  | .getAllMatchs => return (self.getAllMatchsCompletion orders a, [])
  | .joinMatchesRead matchsID currentUserID currentUser =>
    self.joinMatchesReadCompletion matchsID currentUserID currentUser a
  | .joinMatchesWrite _ _ _ => return self.joinMatchesWriteCompletion a
  | .isUserInFootballArea matchID currentUserID =>
    self.isUserInFootballAreaCompletion (orders 0) matchID currentUserID a
  | .deletePlayerForFootballArea _ _ => return self.deletePlayerForFootballAreaCompletion a
  | .leaveMatches matchsID currentUserID => self.leaveMatchesCompletion matchsID currentUserID a
  | .deleteMatches _ => return self.deleteMatchesCompletion a
  | .setPlayerPositionWithMatch matchID _ _ => self.refreshThenUnload matchID a
  | .deletePlayerPositionWithMatch matchID _ => self.refreshThenUnload matchID a
  | .getMatchWithMatchID _ => return (self.getMatchWithMatchIDCompletion (orders 0) a, [])
  | .setIsPlanningCompleteForMatch matchID _ => self.unloadThenRefresh matchID a
  | .addComment matchID _ _ _ _ => self.unloadThenRefresh matchID a

/-! ## The view model on its own -/

/-- The functions of the view model. -/
inductive Call where
  | getAllMatchs
  | joinMatches (matchsID : String) (currentUser : UserModel)
  | isUserInFootballArea (matchID currentUserID : String)
  | deletePlayerForFootballArea (matchID position : String)
  | leaveMatches (currentUserID : Option String) (matchsID : String)
  | deleteMatches (matchsID : String)
  | setPlayerPositionWithMatch (matchID playerPosition : String) (player : UserModel)
  | deletePlayerPositionWithMatch (matchID playerPosition : String)
  | getMatchWithMatchID (matchID : String)
  | setIsPlanningCompleteForMatch (matchID : String)
  | addComment (comment uuid date key : String)
  /-- a screen sets `showAlert` to false, and its `didSet` clears the message -/
  | dismissAlert

def call (self : MatchsViewModel) : Call → Effect
  | .getAllMatchs => return self.getAllMatchs
  | .joinMatches matchsID currentUser => self.joinMatches matchsID currentUser
  | .isUserInFootballArea matchID currentUserID => self.isUserInFootballArea matchID currentUserID
  | .deletePlayerForFootballArea matchID position =>
    self.deletePlayerForFootballArea matchID position
  | .leaveMatches currentUserID matchsID => self.leaveMatches currentUserID matchsID
  | .deleteMatches matchsID => self.deleteMatches matchsID
  | .setPlayerPositionWithMatch matchID playerPosition player =>
    self.setPlayerPositionWithMatch matchID playerPosition player
  | .deletePlayerPositionWithMatch matchID playerPosition =>
    self.deletePlayerPositionWithMatch matchID playerPosition
  | .getMatchWithMatchID matchID => self.getMatchWithMatchID matchID
  | .setIsPlanningCompleteForMatch matchID => self.setIsPlanningCompleteForMatch matchID
  | .addComment comment uuid date key => self.addComment comment uuid date key
  | .dismissAlert => return ({ self with showAlert := false, errorMessage := "" }, [])

/-- What can happen to the view model. Whatever is in flight, the completion of any request may
run on any answer. -/
inductive Action where
  | call (op : Call)
  | complete (orders : ℕ → DictOrder) (r : Request) (a : Answer)

/-- The view model after an action; an exception has no successor. -/
def step (self : MatchsViewModel) : Action → Option MatchsViewModel
  | .call op => (self.call op).toOption.map Prod.fst
  | .complete orders r a => (self.complete orders r a).toOption.map Prod.fst

end MatchsViewModel

end TifaSoccer
