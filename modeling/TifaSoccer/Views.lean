import TifaSoccer.App

/-!
# The screens

What the views compute from the view models, and which calls they make: `Supplies c op` says
that some screen makes the call `op` with these arguments in the state `c`, `Offers c op` adds
the test of the user's role. Layout is not modelled. A call that only a screen on top, the
loading overlay or the clock (`MatchCardCell` compares the date with `finishDate`) keeps the
user from making counts as offered.
-/

namespace TifaSoccer

/-! ## `MatchDetailView` -/

namespace MatchDetailView

/-- The loop of the next four functions: the first entry of the match at the given position. -/
def playerAt (selectedMatch : MatchsModel) (position : String) : Option UserPositionModel :=
  (selectedMatch.Position.getD []).find? fun player =>
    decide (player.positionForMatch = some position)

def isUserInThisPosition (selectedMatch : MatchsModel) (position : String) : Bool :=
  (playerAt selectedMatch position).isSome

def isActivePosition (selectedMatch : MatchsModel) (itemPosition : String) : Bool :=
  (playerAt selectedMatch itemPosition).isSome

def getPictureForPosition (selectedMatch : MatchsModel) (position : String) : String :=
  ((playerAt selectedMatch position).bind UserPositionModel.picture).getD ""

def getPlayerNameForPosition (selectedMatch : MatchsModel) (position : String) : String :=
  ((playerAt selectedMatch position).bind UserPositionModel.nameSurname).getD ""

end MatchDetailView

/-! ## `MatchCardCell` -/

/-- `MatchCardCell.currentUserIsJoined()` -/
def MatchCardCell.currentUserIsJoined (currentUserID : Option String) (match' : MatchsModel) :
    Bool :=
  match currentUserID, match'.players with
  | some currentUserID, some playerList =>
    playerList.any fun player => decide (player.uuid = some currentUserID)
  | _, _ => false

/-- The number of players `MatchCardCell` shows out of 14. -/
def MatchCardCell.playersCount (match' : MatchsModel) : ℕ :=
  (match'.players.map List.length).getD 0

/-! ## What the screens offer -/

/-- The test `baseViewModel.userModel?.authority == "admin"` of the views. -/
def Client.isAdmin (c : Client) : Bool :=
  decide (c.base.userModel.bind UserModel.authority = some "admin")

/-- The menu of `MatchDetailView`: a player of the list above the pitch and a free slot. -/
def Client.menuOffers (c : Client) (playerPosition : String) (player : UserModel) : Prop :=
  player ∈ c.matchs.unselectedPlayer ∧
    MatchDetailView.isActivePosition c.matchs.selectedMatch playerPosition = false

instance (c : Client) (playerPosition : String) (player : UserModel) :
    Decidable (c.menuOffers playerPosition player) :=
  inferInstanceAs (Decidable (_ ∧ _))

/-- The calls the screens make, with the arguments they pass: ids and users come from the
caches, UUIDs from the device. -/
def Client.Supplies (c : Client) : Op → Prop
  | .login _ _ => c.base.isLoggedIn = false
  | .register _ _ _ => c.base.isLoggedIn = false
  | .signOut _ => c.base.isLoggedIn = true
  | .getCurrentUserData => True
  | .loadProfileImage => c.base.isLoggedIn = true
  | .getAllMatchs => True
  | .joinMatches matchsID currentUser =>
    c.base.userModel = some currentUser ∧ ∃ match' ∈ c.matchs.matchsModelList,
      match'.matchID = some matchsID ∧
        MatchCardCell.currentUserIsJoined c.currentUser match' = false
  | .leaveMatches matchsID =>
    c.base.userModel.isSome = true ∧ ∃ match' ∈ c.matchs.matchsModelList,
      match'.matchID = some matchsID ∧
        MatchCardCell.currentUserIsJoined c.currentUser match' = true
  | .deleteMatches matchsID =>
    ∃ match' ∈ c.matchs.matchsModelList, match'.matchID.getD "" = matchsID
  | .openDetail matchID => ∃ match' ∈ c.matchs.matchsModelList, match'.matchID.getD "" = matchID
  | .closeDetail => c.detail.isSome = true
  -- `onAppear` runs again when the user comes back to the screen
  | .getMatchWithMatchID matchID => c.detail = some matchID
  -- the menu passes the id of the selected match, the tap on the pitch that of the screen
  | .setPlayerPositionWithMatch matchID playerPosition player =>
    c.detail.isSome = true ∧ matchID = c.matchs.selectedMatch.matchID.getD "" ∧
      (∃ position ∈ PlayerPosition.allCases, PlayerPosition.rawValue position = playerPosition) ∧
      c.menuOffers playerPosition player
  | .deletePlayerPositionWithMatch matchID playerPosition =>
    c.detail = some matchID ∧
      (∃ position ∈ PlayerPosition.allCases, PlayerPosition.rawValue position = playerPosition) ∧
      MatchDetailView.isUserInThisPosition c.matchs.selectedMatch playerPosition = true
  | .setIsPlanningCompleteForMatch matchID => c.detail = some matchID
  -- the button is there whatever has been fetched, and an empty text is sent too
  | .addComment _ _ _ key => c.detail.isSome = true ∧ key ≠ ""
  | .createMatch matchID adminMessage footballArea _ _ =>
    matchID ≠ "" ∧ adminMessage ≠ "" ∧ footballArea ≠ ""
  | .getAllPlayers => True
  | .updatePlayerData _ _ => c.base.isLoggedIn = true
  | .dismissAlert => c.matchs.showAlert = true

instance (c : Client) : (op : Op) → Decidable (c.Supplies op)
  | .login _ _ => inferInstanceAs (Decidable (_ = _))
  | .register _ _ _ => inferInstanceAs (Decidable (_ = _))
  | .signOut _ => inferInstanceAs (Decidable (_ = _))
  | .getCurrentUserData => inferInstanceAs (Decidable True)
  | .loadProfileImage => inferInstanceAs (Decidable (_ = _))
  | .getAllMatchs => inferInstanceAs (Decidable True)
  | .joinMatches _ _ => inferInstanceAs (Decidable (_ ∧ _))
  | .leaveMatches _ => inferInstanceAs (Decidable (_ ∧ _))
  | .deleteMatches _ => inferInstanceAs (Decidable (∃ match' ∈ c.matchs.matchsModelList, _))
  | .openDetail _ => inferInstanceAs (Decidable (∃ match' ∈ c.matchs.matchsModelList, _))
  | .closeDetail => inferInstanceAs (Decidable (_ = _))
  | .getMatchWithMatchID _ => inferInstanceAs (Decidable (_ = _))
  | .setPlayerPositionWithMatch _ _ _ => inferInstanceAs (Decidable (_ ∧ _))
  | .deletePlayerPositionWithMatch _ _ => inferInstanceAs (Decidable (_ ∧ _))
  | .setIsPlanningCompleteForMatch _ => inferInstanceAs (Decidable (_ = _))
  | .addComment _ _ _ _ => inferInstanceAs (Decidable (_ ∧ _))
  | .createMatch _ _ _ _ _ => inferInstanceAs (Decidable (_ ∧ _))
  | .getAllPlayers => inferInstanceAs (Decidable True)
  | .updatePlayerData _ _ => inferInstanceAs (Decidable (_ = _))
  | .dismissAlert => inferInstanceAs (Decidable (_ = _))

/-- The calls whose button or tap tests the role of the user. The button that opens
`CreateMatchView` does too, the screen itself does not. -/
def Op.adminOnly : Op → Bool
  | .deleteMatches _ => true
  | .setPlayerPositionWithMatch _ _ _ => true
  | .deletePlayerPositionWithMatch _ _ => true
  | .setIsPlanningCompleteForMatch _ => true
  | _ => false

/-- The calls the screens make, with the test of the role. -/
def Client.Offers (c : Client) (op : Op) : Prop :=
  c.Supplies op ∧ (op.adminOnly = true → c.isAdmin = true)

instance (c : Client) (op : Op) : Decidable (c.Offers op) :=
  inferInstanceAs (Decidable (_ ∧ _))

end TifaSoccer
