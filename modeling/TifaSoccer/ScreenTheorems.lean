import Mathlib.Data.List.Find
import TifaSoccer.ConsistencyTheorems
import TifaSoccer.RefreshTheorems

/-!
# What the screens show

The list above the pitch and the pitch itself show each player of the selected match once. The
lists of matches and of players, and the head count of a match, are computed by casts that give up
on a child that is no object; the theorems say when that goes unnoticed. What is shown of a match
does not depend on the order in which its dictionaries were iterated.
-/

namespace TifaSoccer

open Async Run

/-! ## The selected match -/

/-- Some slot of the pitch shows an entry with the uuid of the player. -/
def ShownOnPitch (selectedMatch : MatchsModel) (player : UserModel) : Prop :=
  ∃ k : PlayerPosition, MatchDetailView.isUserInThisPosition selectedMatch k.rawValue = true ∧
    ∃ entry ∈ selectedMatch.Position.getD [], entry.uuid = player.uuid ∧
      MatchDetailView.getPictureForPosition selectedMatch k.rawValue = entry.picture.getD "" ∧
      MatchDetailView.getPlayerNameForPosition selectedMatch k.rawValue =
        entry.nameSurname.getD "" ∧
      MatchDetailView.playerAt selectedMatch k.rawValue = some entry

/-- Each player of the selected match is in the list above the pitch or on the pitch, and not in
both. -/
def SeenOnce (self : MatchsViewModel) : Prop :=
  ∀ player ∈ self.selectedMatch.players.getD [],
    Xor (player ∈ self.unselectedPlayer) (ShownOnPitch self.selectedMatch player)

/-- A decoded position of a keyed document is what its slot of the pitch shows. -/
theorem playerAt_of_mem {doc : Value} (h : KeyedMatch doc) {d : Dictionary}
    (hd : doc.asDictionary = some d) {order : DictOrder} {entry : UserPositionModel}
    (hentry : entry ∈ (MatchsModel.init order d).Position.getD []) :
    ∃ k : PlayerPosition,
      MatchDetailView.playerAt (MatchsModel.init order d) k.rawValue = some entry := by
  obtain ⟨key, dk, hdk, rfl⟩ := mem_Position hd hentry
  obtain ⟨⟨k, rfl⟩, hname, -⟩ := h.positions key (child_ne_null_of_asDictionary hdk)
  have hposition : (UserPositionModel.init dk).positionForMatch = some k.rawValue := by
    rw [positionForMatch_init hdk, hname, Option.getD_some]
  refine ⟨k, ?_⟩
  unfold MatchDetailView.playerAt
  cases hfind : ((MatchsModel.init order d).Position.getD []).find?
      (fun player => decide (player.positionForMatch = some k.rawValue)) with
  | none =>
    have hother := List.find?_eq_none.mp hfind _ hentry
    simp [hposition] at hother
  | some entry' =>
    -- no other position has the name of this slot
    have hposition' : entry'.positionForMatch = some k.rawValue := by
      simpa using List.find?_some hfind
    have hsame := List.inj_on_of_nodup_map (h.decoded hd order).slots
      (List.mem_of_find?_eq_some hfind) hentry (hposition'.trans hposition.symm)
    rw [hsame]

/-- The pitch shows a player exactly if some slot stores his uuid. -/
theorem shownOnPitch_iff {doc : Value} (h : KeyedMatch doc) {d : Dictionary}
    (hd : doc.asDictionary = some d) (order : DictOrder) (player : UserModel) :
    ShownOnPitch (MatchsModel.init order d) player ↔
      ∃ entry ∈ (MatchsModel.init order d).Position.getD [], entry.uuid = player.uuid := by
  constructor
  · rintro ⟨k, -, entry, hentry, huuid, -⟩
    exact ⟨entry, hentry, huuid⟩
  · rintro ⟨entry, hentry, huuid⟩
    obtain ⟨k, hk⟩ := playerAt_of_mem h hd hentry
    refine ⟨k, ?_, entry, hentry, huuid, ?_, ?_, hk⟩
    · rw [MatchDetailView.isUserInThisPosition, hk]
      rfl
    · rw [MatchDetailView.getPictureForPosition, hk]
      rfl
    · rw [MatchDetailView.getPlayerNameForPosition, hk]
      rfl

/-- A selected match decoded from a keyed document, with its unplaced players, shows each player
once. -/
theorem seenOnce_of_keyed {self : MatchsViewModel} {doc : Value} (h : KeyedMatch doc)
    {d : Dictionary} (hd : doc.asDictionary = some d) {order : DictOrder}
    (hselected : self.selectedMatch = MatchsModel.init order d)
    (hexact : self.unselectedPlayer = (self.selectedMatch.players.getD []).filter fun x =>
      decide (∀ position ∈ self.selectedMatch.Position.getD [], position.uuid ≠ x.uuid)) :
    SeenOnce self := by
  intro player hplayer
  have hlist : player ∈ self.unselectedPlayer ↔
      ¬ ShownOnPitch self.selectedMatch player := by
    rw [hexact, List.mem_filter, decide_eq_true_eq, hselected, shownOnPitch_iff h hd]
    rw [hselected] at hplayer
    simp [hplayer]
  rw [xor_iff_not_iff', hlist, not_not]

/-- In every state that any interleaving of the clients' operations reaches from an empty database,
assignments taking a player the menu shows and a slot of the pitch: once `getMatchWithMatchID(m)`
has stored the document of any match, each of its players is in the list above the pitch or shown
by some slot, and not both; and so it is, whatever the age of its cache, on the screen of every
client. -/
theorem every_player_seen_once {accounts : List Account} {sessions : ℕ → Option String} {w : World}
    (hrun : Reaches App.step (OnCall AssignedFromList) (World.start ⟨.null, accounts⟩ sessions) w) :
    (∀ m, ∀ d ∈ (matchNode w.server.database m).asDictionary, ∀ (self : MatchsViewModel) order,
      SeenOnce (self.getMatchWithMatchIDCompletion order
        (.snapshot (matchNode w.server.database m)))) ∧
      ∀ i, SeenOnce (w.clients i).matchs := by
  have hempty : ∀ m, KeyedMatch (matchNode (⟨.null, accounts⟩ : Firebase).database m) :=
    fun _ => keyedMatch_null
  obtain ⟨hkeyed, hcached, -⟩ := keyed_of_reaches hempty rfl hrun
  constructor
  · intro m d hd self order
    have hstored : self.getMatchWithMatchIDCompletion order
        (.snapshot (matchNode w.server.database m)) =
        { self.selectMatch (MatchsModel.init order d) with isLoad := false } := by
      simp only [MatchsViewModel.getMatchWithMatchIDCompletion, Answer.value]
      rw [show (matchNode w.server.database m).asDictionary = some d from hd]
    rw [hstored]
    exact seenOnce_of_keyed (hkeyed m) hd rfl (selectMatch_unselectedPlayer self _)
  · intro i
    have hexact := (unselectedExact_of_reaches hrun).1 i
    have hselected := hcached i _ (List.mem_cons_self ..)
    rcases hselected with hfirst | ⟨doc, d, order, ⟨hdoc, -⟩, hd, hselected⟩
    · -- nothing has been fetched, and there are no players
      intro player hplayer
      rw [hfirst] at hplayer
      cases hplayer
    · exact seenOnce_of_keyed hdoc hd hselected hexact

/-- A player from the list is placed. -/
theorem every_player_seen_once_placed :
    ∃ w, exec (restrict App.step (OnCall AssignedFromList))
        (World.start ⟨.null, []⟩ fun _ => some "n") placedFromList = some w ∧
      (slot w.server.database "m" "A0").field "uuid" = some "n" ∧
      ∀ i, SeenOnce (w.clients i).matchs := by
  obtain ⟨w, hw, hslot⟩ := Option.map_eq_some_iff.mp (show (exec (restrict App.step
    (OnCall AssignedFromList)) (World.start ⟨.null, []⟩ fun _ => some "n") placedFromList).map
    (fun w => (slot w.server.database "m" "A0").field "uuid") = some (some "n")
    from by decide +kernel)
  exact ⟨w, hw, hslot, (every_player_seen_once (reaches_of_exec hw)).2⟩

/-! ## The lists of matches and of players -/

/-- No object stands before a child that is no object, or the last child is none. -/
def ObjectsLast (v : Value) : Prop :=
  AllOrNothing (fun c : String × Node => Node.asDictionary c.2) v.entries

/-- The list of matches after `getAllMatchs` and its answer, with no other fetch pending. -/
def MatchsViewModel.fetched (self : MatchsViewModel) (orders : ℕ → DictOrder) (v : Value) :
    List MatchsModel :=
  (self.getAllMatchs.1.getAllMatchsCompletion orders (.snapshot v)).matchsModelList

/-- The list of players after `getAllPlayers` and its answer, with no other fetch pending. -/
def PlayersViewModel.fetched (self : PlayersViewModel) (v : Value) : List UserModel :=
  (self.getAllPlayers.1.complete .getAllPlayers (.snapshot v)).userModelList

/-- A fetch of the matches leaves no match or all those that are objects, in order, exactly when
no object stands before a child that is no object or the last child is none; and so a fetch of the
players. -/
theorem fetch_all_or_nothing_iff (v : Value) :
    (∀ (self : MatchsViewModel) (orders : ℕ → DictOrder),
      (self.fetched orders v = [] ∨
          self.fetched orders v = v.entries.zipIdx.filterMap fun c =>
            (Node.asDictionary c.1.2).map (MatchsModel.init (orders c.2))) ↔ ObjectsLast v) ∧
      ∀ self : PlayersViewModel,
        (self.fetched v = [] ∨
          self.fetched v = v.entries.filterMap fun c =>
            (Node.asDictionary c.2).map UserModel.init) ↔ ObjectsLast v := by
  constructor
  · intro self orders
    have hloop : self.fetched orders v = v.entries.zipIdx.foldl (appendOrClear fun c =>
        (Node.asDictionary c.1.2).map (MatchsModel.init (orders c.2))) [] :=
      matchsModelList_loop orders self.getAllMatchs.1 v.entries
    rw [hloop, foldl_appendOrClear_iff, ObjectsLast]
    nth_rewrite 2 [← List.zipIdx_map_fst 0 v.entries]
    rw [allOrNothing_map]
    exact allOrNothing_congr fun c => Option.isSome_map
  · intro self
    have hloop : self.fetched v = v.entries.foldl (appendOrClear fun c =>
        (Node.asDictionary c.2).map UserModel.init) [] :=
      userModelList_loop v.entries self.getAllPlayers.1
    rw [hloop, foldl_appendOrClear_iff, ObjectsLast]
    exact allOrNothing_congr fun c => Option.isSome_map

/-- Two objects with a string between them. -/
def stringBetweenObjects : Value :=
  .object [("a", .object [("uuid", .leaf (.str "a"))]), ("b", .leaf (.str "b")),
    ("c", .object [("uuid", .leaf (.str "c"))])]

/-- The object before the string is lost, the one after it is listed. -/
theorem fetch_drops_first_object :
    ¬ (({} : MatchsViewModel).fetched (fun _ => .byKey) stringBetweenObjects = [] ∨
        ({} : MatchsViewModel).fetched (fun _ => .byKey) stringBetweenObjects =
          stringBetweenObjects.entries.zipIdx.filterMap fun c =>
            (Node.asDictionary c.1.2).map (MatchsModel.init .byKey)) ∧
      ¬ (({} : PlayersViewModel).fetched stringBetweenObjects = [] ∨
        ({} : PlayersViewModel).fetched stringBetweenObjects =
          stringBetweenObjects.entries.filterMap fun c =>
            (Node.asDictionary c.2).map UserModel.init) := by
  decide +kernel

/-! ## The head count -/

/-- The decoded roster has a player for each entry of the nested map. -/
theorem playersCount_init (order : DictOrder) (d : Dictionary) :
    MatchCardCell.playersCount (MatchsModel.init order d) = (d.nested "players").length := by
  simp only [MatchCardCell.playersCount, MatchsModel.init, Option.map_some, Option.getD_some,
    List.length_map]
  exact (order.perm "players" (d.nested "players")).length_eq

/-- A match shows as many players as its roster has children exactly when all of these are
objects. -/
theorem playersCount_eq_childrenCount_iff {doc : Value} {d : Dictionary}
    (hd : doc.asDictionary = some d) (order : DictOrder) :
    MatchCardCell.playersCount (MatchsModel.init order d) = (doc.child "players").childrenCount ↔
      Value.NestedObjects (doc.child "players") := by
  rw [playersCount_init]
  have hcount : (doc.child "players").childrenCount = (doc.child "players").keys.length := by
    rw [Json.keys, List.length_map, Json.childrenCount]
  rw [hcount]
  constructor
  · intro hlength k hk
    have hkey := Json.mem_keys_iff.mpr hk
    rcases nested_keys hd "players" with hkeys | hnil
    · -- the cast has succeeded, so the entry under this key is an object
      rw [← hkeys] at hkey
      obtain ⟨⟨k', dk⟩, hmem, rfl⟩ := List.mem_map.mp hkey
      exact ⟨dk, mem_nested hd hmem⟩
    · rw [hnil, List.length_nil] at hlength
      rw [List.eq_nil_of_length_eq_zero hlength.symm] at hkey
      cases hkey
  · intro hall
    rw [← nested_keys_of_objects hd hall, List.length_map]

/-- The card of a match with two players. -/
theorem playersCount_of_two_players :
    ∃ d, (matchNode (sampleMatch ["n", "o"]).database "m").asDictionary = some d ∧
      MatchCardCell.playersCount (MatchsModel.init .byKey d) = 2 ∧
      Value.NestedObjects (roster (sampleMatch ["n", "o"]).database "m") := by
  obtain ⟨d, hd, hcount⟩ := Option.map_eq_some_iff.mp (show
    (matchNode (sampleMatch ["n", "o"]).database "m").asDictionary.map
      (fun d => MatchCardCell.playersCount (MatchsModel.init .byKey d)) = some 2
    from by decide +kernel)
  have hchildren : (roster (sampleMatch ["n", "o"]).database "m").childrenCount = 2 := by
    decide +kernel
  exact ⟨d, hd, hcount,
    (playersCount_eq_childrenCount_iff hd .byKey).mp (hcount.trans hchildren.symm)⟩

/-- A string beside a player in the roster. -/
def stringInRoster : Value :=
  (sampleMatch ["n"]).database.set ["Matchs", "m", "players", "o"] (.leaf (.str "o"))

/-- The card shows nobody, and `joinMatches` counts two. -/
theorem stray_string_hides_roster :
    ∃ d, (matchNode stringInRoster "m").asDictionary = some d ∧
      MatchCardCell.playersCount (MatchsModel.init .byKey d) = 0 ∧
      (roster stringInRoster "m").childrenCount = 2 := by
  obtain ⟨d, hd, hcount⟩ := Option.map_eq_some_iff.mp (show
    (matchNode stringInRoster "m").asDictionary.map
      (fun d => MatchCardCell.playersCount (MatchsModel.init .byKey d)) = some 0
    from by decide +kernel)
  exact ⟨d, hd, hcount, by decide +kernel⟩

/-! ## The order of dictionaries -/

/-- Two decodings of a match show the same: on its card, on each slot of the pitch, and in the list
above the pitch up to the order of the players. -/
structure SameScreens (match₁ match₂ : MatchsModel) : Prop where
  currentUserIsJoined : ∀ currentUserID,
    MatchCardCell.currentUserIsJoined currentUserID match₁ =
      MatchCardCell.currentUserIsJoined currentUserID match₂
  playersCount : MatchCardCell.playersCount match₁ = MatchCardCell.playersCount match₂
  isUserInThisPosition : ∀ position,
    MatchDetailView.isUserInThisPosition match₁ position =
      MatchDetailView.isUserInThisPosition match₂ position
  isActivePosition : ∀ itemPosition,
    MatchDetailView.isActivePosition match₁ itemPosition =
      MatchDetailView.isActivePosition match₂ itemPosition
  getPictureForPosition : ∀ position,
    MatchDetailView.getPictureForPosition match₁ position =
      MatchDetailView.getPictureForPosition match₂ position
  getPlayerNameForPosition : ∀ position,
    MatchDetailView.getPlayerNameForPosition match₁ position =
      MatchDetailView.getPlayerNameForPosition match₂ position
  unselectedPlayer : ∀ vm₁ vm₂ : MatchsViewModel,
    (vm₁.selectMatch match₁).unselectedPlayer.Perm (vm₂.selectMatch match₂).unselectedPlayer

/-- The order of iteration only permutes the players. -/
theorem players_perm (order order' : DictOrder) (d : Dictionary) :
    ((MatchsModel.init order d).players.getD []).Perm
      ((MatchsModel.init order' d).players.getD []) :=
  ((order.perm _ _).trans (order'.perm _ _).symm).map _

/-- So it does with the pitch. -/
theorem Position_perm (order order' : DictOrder) (d : Dictionary) :
    ((MatchsModel.init order d).Position.getD []).Perm
      ((MatchsModel.init order' d).Position.getD []) :=
  ((order.perm _ _).trans (order'.perm _ _).symm).map _

/-- The first entry at a position is the same in every order, since there is at most one. -/
theorem playerAt_init {d : Dictionary}
    (hslots : ((d.nested "Positions").map fun dic => dic.2.string "positionForMatch").Nodup)
    (order order' : DictOrder) (position : String) :
    MatchDetailView.playerAt (MatchsModel.init order d) position =
      MatchDetailView.playerAt (MatchsModel.init order' d) position := by
  have hnames : (((MatchsModel.init order d).Position.getD []).map
      UserPositionModel.positionForMatch).Nodup := by
    have hsome := hslots.map (Option.some_injective String)
    rw [List.map_map] at hsome
    exact nodup_iterate order "Positions" (d.nested "Positions") hsome
  refine List.find?_eq_find?_of_perm (Position_perm order order' d) ?_
  rintro entry ⟨hentry, hat⟩ entry' ⟨hentry', hat'⟩
  have hsame : entry.positionForMatch = entry'.positionForMatch :=
    (of_decide_eq_true hat).trans (of_decide_eq_true hat').symm
  exact List.inj_on_of_nodup_map hnames hentry hentry' hsame

/-- The button of the card does not depend on the order. -/
theorem currentUserIsJoined_init (order order' : DictOrder) (d : Dictionary)
    (currentUserID : Option String) :
    MatchCardCell.currentUserIsJoined currentUserID (MatchsModel.init order d) =
      MatchCardCell.currentUserIsJoined currentUserID (MatchsModel.init order' d) := by
  cases currentUserID with
  | none => rfl
  | some uid =>
    rw [Bool.eq_iff_iff]
    show List.any _ _ = true ↔ List.any _ _ = true
    rw [List.any_eq_true, List.any_eq_true]
    constructor
    · rintro ⟨player, hplayer, huuid⟩
      exact ⟨player, (players_perm order order' d).mem_iff.mp hplayer, huuid⟩
    · rintro ⟨player, hplayer, huuid⟩
      exact ⟨player, (players_perm order order' d).mem_iff.mpr hplayer, huuid⟩

/-- The loops that remove the placed players end with the same players in every order. -/
theorem unselectedPlayer_perm (order order' : DictOrder) (d : Dictionary)
    (vm vm' : MatchsViewModel) :
    (vm.selectMatch (MatchsModel.init order d)).unselectedPlayer.Perm
      (vm'.selectMatch (MatchsModel.init order' d)).unselectedPlayer := by
  rw [selectMatch_unselectedPlayer, selectMatch_unselectedPlayer]
  have hplaced : ∀ x ∈ (MatchsModel.init order' d).players.getD [],
      decide (∀ position ∈ (MatchsModel.init order d).Position.getD [], position.uuid ≠ x.uuid) =
        decide (∀ position ∈ (MatchsModel.init order' d).Position.getD [],
          position.uuid ≠ x.uuid) := by
    intro x _
    rw [decide_eq_decide]
    exact forall_congr' fun position =>
      imp_congr_left (Position_perm order order' d).mem_iff
  rw [← List.filter_congr hplaced]
  exact (players_perm order order' d).filter _

/-- Whatever a match document holds, if no two of its positions have one `positionForMatch`, the
screens show the same whichever way the dictionaries were iterated when it was decoded. -/
theorem screens_independent_of_order {d : Dictionary}
    (hslots : ((d.nested "Positions").map fun dic => dic.2.string "positionForMatch").Nodup)
    (order order' : DictOrder) :
    SameScreens (MatchsModel.init order d) (MatchsModel.init order' d) where
  currentUserIsJoined := currentUserIsJoined_init order order' d
  playersCount := by
    rw [playersCount_init, playersCount_init]
  isUserInThisPosition position := by
    unfold MatchDetailView.isUserInThisPosition
    rw [playerAt_init hslots order order']
  isActivePosition itemPosition := by
    unfold MatchDetailView.isActivePosition
    rw [playerAt_init hslots order order']
  getPictureForPosition position := by
    unfold MatchDetailView.getPictureForPosition
    rw [playerAt_init hslots order order']
  getPlayerNameForPosition position := by
    unfold MatchDetailView.getPlayerNameForPosition
    rw [playerAt_init hslots order order']
  unselectedPlayer := unselectedPlayer_perm order order' d

/-- The order of the keys, backwards. -/
def DictOrder.reversed : DictOrder := ⟨fun _ es => es.reverse, fun _ es => es.reverse_perm⟩

/-- Two players on the pitch and one beside it, for concrete runs. -/
def threePlayers : Dictionary :=
  [("Positions", .object
      [("A0", .object [("positionForMatch", .leaf (.str "A0")), ("uuid", .leaf (.str "n"))]),
       ("B3", .object [("positionForMatch", .leaf (.str "B3")), ("uuid", .leaf (.str "o"))])]),
   ("players", .object
      [("n", .object [("uuid", .leaf (.str "n"))]), ("o", .object [("uuid", .leaf (.str "o"))]),
       ("p", .object [("uuid", .leaf (.str "p"))])])]

/-- Two orders in which the pitch is listed differently. -/
theorem screens_independent_of_order_reversed :
    (MatchsModel.init .byKey threePlayers).Position ≠
        (MatchsModel.init .reversed threePlayers).Position ∧
      (MatchDetailView.playerAt (MatchsModel.init .reversed threePlayers) "B3").bind
        UserPositionModel.uuid = some "o" ∧
      SameScreens (MatchsModel.init .byKey threePlayers)
        (MatchsModel.init .reversed threePlayers) := by
  refine ⟨by decide +kernel, by decide +kernel, ?_⟩
  exact screens_independent_of_order (by decide +kernel) .byKey .reversed

end TifaSoccer
