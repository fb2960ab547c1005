import Mathlib.Data.List.Perm.Basic
import TifaSoccer.PitchTheorems

/-!
# Decoding undoes writing

The writers of a match are spread over two view models, one field or one child each; the reader
is `MatchsModel.init`. Whatever order the writes of a match come in, the document decodes to the
match that was written (`decode_undoes_writes`).
-/

namespace TifaSoccer

/-! ## What is written -/

structure Comment where
  comment : String
  uuid : String
  date : String

/-- The contents of a match besides the fields of `createMatch`: three finite maps, given by
their entries, and the planning flag. A join stores a user under his own uuid. -/
structure MatchContents where
  isPlanningComplete : Bool
  players : List (String × UserModel)
  positions : List (PlayerPosition × UserModel)
  comments : List (String × Comment)
  players_nodup : (players.map Prod.fst).Nodup
  players_own : ∀ p ∈ players, p.1 ≠ "" ∧ p.2.uuid = some p.1
  positions_nodup : (positions.map Prod.fst).Nodup
  comments_nodup : (comments.map Prod.fst).Nodup
  comments_named : ∀ c ∈ comments, c.1 ≠ ""

namespace MatchContents

variable (x : MatchContents)

def joins (m : String) : List Request :=
  x.players.map fun p => .matchs (.joinMatchesWrite m p.1 p.2)

def assignments (m : String) : List Request :=
  x.positions.map fun p => .matchs (.setPlayerPositionWithMatch m p.1.rawValue p.2)

def addComments (m : String) : List Request :=
  x.comments.map fun c => .matchs (.addComment m c.1 c.2.comment c.2.uuid c.2.date)

/-- The requests that write the contents. -/
def requests (m : String) : List Request :=
  .matchs (.setIsPlanningCompleteForMatch m x.isPlanningComplete) ::
    (x.joins m ++ x.assignments m ++ x.addComments m)

/-- What these requests write below the match. -/
def writes : List (List String × Value) :=
  (["isPlanningComplete"], .leaf (.bool x.isPlanningComplete)) ::
    (x.players.map (fun p => (["players", p.1], .object p.2.asDictionary)) ++
      x.positions.map (fun p => (["Positions", p.1.rawValue], slotValue p.1.rawValue p.2)) ++
      x.comments.map (fun c => (["Comments", c.1],
        .object (MatchsViewModel.commentParams c.2.comment c.2.uuid c.2.date))))

end MatchContents

/-- The server after it has applied a list of requests. -/
def applied (s : Firebase) (rs : List Request) : Firebase :=
  rs.foldl (fun s r => (r.serve s {}).1) s

/-- The positions have different names. -/
theorem rawValue_injective : Function.Injective PlayerPosition.rawValue := by
  intro a b h
  have hnodup : (PlayerPosition.allCases.map PlayerPosition.rawValue).Nodup := by decide
  have hmem : ∀ position, position ∈ PlayerPosition.allCases := by
    intro position
    cases position <;> decide
  exact List.inj_on_of_nodup_map hnodup (hmem a) (hmem b) h

/-! ## The document after the writes -/

/-- A request that writes `v` at `p` below `m`, with a path that can be built. -/
def Writes (m : String) (r : Request) (w : List String × Value) : Prop :=
  MatchWrite m r w.1 w.2 ∧ "" ∉ w.1

/-- The requests write what `writes` lists, one by one. -/
theorem forall₂_writes (x : MatchContents) (m : String) :
    List.Forall₂ (Writes m) (x.requests m) x.writes := by
  refine .cons ⟨.planning _, by simp⟩ ?_
  refine List.rel_append (List.rel_append ?_ ?_) ?_
  · rw [MatchContents.joins, List.forall₂_map_left_iff, List.forall₂_map_right_iff]
    refine List.forall₂_same.mpr fun p hp => ⟨.join p.1 p.2, ?_⟩
    simpa using (x.players_own p hp).1.symm
  · rw [MatchContents.assignments, List.forall₂_map_left_iff, List.forall₂_map_right_iff]
    refine List.forall₂_same.mpr fun p _ => ⟨.assign p.1.rawValue p.2, ?_⟩
    simpa using (rawValue_ne_empty p.1).symm
  · rw [MatchContents.addComments, List.forall₂_map_left_iff, List.forall₂_map_right_iff]
    refine List.forall₂_same.mpr fun c hc => ⟨.comment c.1 c.2.comment c.2.uuid c.2.date, ?_⟩
    simpa using (x.comments_named c hc).symm

/-- Requests that come in another order write the same in that order. -/
theorem matchNode_applied {m : String} (hm : m ≠ "") {rs : List Request}
    {ws : List (List String × Value)} (h : List.Forall₂ (Writes m) rs ws) (s : Firebase) :
    matchNode (applied s rs).database m = (matchNode s.database m).setAll ws := by
  induction h generalizing s with
  | nil => rfl
  | @cons r w rs ws hw _ ih =>
    rw [applied, List.foldl_cons]
    refine (ih _).trans ?_
    rw [matchNode_write hw.1 hm hw.2 s rfl]
    rfl

/-! ## One map of the document -/

section Maps

variable {doc : Value} {ws : List (List String × Value)} {name : String}
  {es : List (String × Value)}

/-- The writes store the map `es` under `name`: each of its entries, and nothing else there. -/
structure StoresMap (ws : List (List String × Value)) (name : String)
    (es : List (String × Value)) : Prop where
  nodup : (es.map Prod.fst).Nodup
  written : ∀ e ∈ es, ([name, e.1], e.2) ∈ ws
  only : ∀ w ∈ ws, (∃ e ∈ es, w = ([name, e.1], e.2)) ∨ ∃ k p, w.1 = k :: p ∧ k ≠ name
  objects : ∀ e ∈ es, ∃ d, Value.asDictionary e.2 = some d

/-- The writes of a map part from those of other keys. -/
theorem StoresMap.diverge (h : StoresMap ws name es) {w : List String × Value} (hw : w ∈ ws)
    {k : String} (hk : ∀ e ∈ es, e.1 = k → w ≠ ([name, e.1], e.2)) :
    Json.Diverge w.1 [name, k] := by
  rcases h.only w hw with ⟨e, he, rfl⟩ | ⟨k', p, hp, hne⟩
  · refine .inr (.inl fun heq => ?_)
    exact hk e he heq rfl
  · rw [hp]
    exact .inl hne

/-- An entry of the map is stored under its key. -/
theorem StoresMap.child_of_mem (h : StoresMap ws name es) {e : String × Value} (he : e ∈ es) :
    ((doc.setAll ws).child name).child e.1 = e.2 := by
  refine Json.get_setAll_of_mem doc (h.written e he) fun w hw => ?_
  by_cases hsame : w = ([name, e.1], e.2)
  · exact .inl hsame
  · refine .inr (h.diverge hw fun e' he' hk => ?_)
    -- no two entries have one key
    rw [List.inj_on_of_nodup_map h.nodup he' he hk]
    exact hsame

/-- Nothing is stored under other keys. -/
theorem StoresMap.child_of_not_mem (h : StoresMap ws name es) (hdoc : doc.child name = .null)
    {k : String} (hk : k ∉ es.map Prod.fst) : ((doc.setAll ws).child name).child k = .null := by
  have hget : (doc.setAll ws).get [name, k] = doc.get [name, k] := by
    refine Json.get_setAll_of_diverge doc fun w hw => h.diverge hw fun e he heq => ?_
    exact absurd (heq ▸ List.mem_map_of_mem he) hk
  have hnull : doc.get [name, k] = .null := by
    show (doc.child name).child k = .null
    rw [hdoc, Json.child_null]
  exact hget.trans hnull

/-- All children of the map are objects. -/
theorem StoresMap.nestedObjects (h : StoresMap ws name es) (hdoc : doc.child name = .null) :
    Value.NestedObjects ((doc.setAll ws).child name) := by
  intro k hk
  by_cases hmem : k ∈ es.map Prod.fst
  · obtain ⟨e, he, rfl⟩ := List.mem_map.mp hmem
    rw [h.child_of_mem he]
    exact h.objects e he
  · exact absurd (h.child_of_not_mem hdoc hmem) hk

/-- A stored map is decoded entry by entry, in some order, and has as many children as
entries. -/
theorem StoresMap.decoded {β : Type} (h : StoresMap ws name es) (hdoc : doc.child name = .null)
    {d : Dictionary} (hd : Value.asDictionary (doc.setAll ws) = some d) (order : DictOrder)
    (f : Dictionary → β) :
    ((order.iterate name (d.nested name)).map fun dic => f dic.2).Perm
        (es.map fun e => f ((Value.asDictionary e.2).getD [])) ∧
      ((doc.setAll ws).child name).childrenCount = es.length := by
  have hobjects := h.nestedObjects hdoc
  have hperm : (d.nested name).Perm (es.map fun e => (e.1, (Value.asDictionary e.2).getD [])) := by
    have hkeys :
        ((es.map fun e => (e.1, (Value.asDictionary e.2).getD [])).map Prod.fst).Nodup := by
      rw [List.map_map]
      exact h.nodup
    refine nested_perm hd hobjects hkeys fun k dk => ?_
    constructor
    · intro hmem
      obtain ⟨e, he, heq⟩ := List.mem_map.mp hmem
      obtain ⟨de, hde⟩ := h.objects e he
      rw [hde] at heq
      cases heq
      rw [h.child_of_mem he]
      exact hde
    · intro hdk
      by_cases hmem : k ∈ es.map Prod.fst
      · obtain ⟨e, he, rfl⟩ := List.mem_map.mp hmem
        rw [h.child_of_mem he] at hdk
        refine List.mem_map.mpr ⟨e, he, ?_⟩
        rw [hdk]
        rfl
      · rw [h.child_of_not_mem hdoc hmem] at hdk
        cases hdk
  refine ⟨?_, ?_⟩
  · have hmap := ((order.perm name (d.nested name)).trans hperm).map fun dic => f dic.2
    rw [List.map_map] at hmap
    exact hmap
  · have hkeys := congrArg List.length (nested_keys_of_objects hd hobjects)
    rw [List.length_map, hperm.length_eq, List.length_map] at hkeys
    rw [hkeys, Json.keys, List.length_map]
    rfl

end Maps

/-! ## The whole document -/

/-- A user with the defaults in the place of what is missing. -/
def UserModel.defaulted (user : UserModel) : UserModel where
  email := some (user.email.getD "")
  nameSurname := some (user.nameSurname.getD "")
  position := some (user.position.getD "")
  rate := some (user.rate.getD 0)
  picture := some (user.picture.getD "")
  uuid := some (user.uuid.getD "")
  authority := some (user.authority.getD "")

/-- A user in a slot, with the defaults in the place of what is missing. -/
def UserModel.placedAt (user : UserModel) (position : PlayerPosition) : UserPositionModel where
  email := some (user.email.getD "")
  nameSurname := some (user.nameSurname.getD "")
  position := some (user.position.getD "")
  rate := some (user.rate.getD 0)
  picture := some (user.picture.getD "")
  uuid := some (user.uuid.getD "")
  authority := some (user.authority.getD "")
  positionForMatch := some position.rawValue

def Comment.model (c : Comment) : CommentsModel := ⟨some c.uuid, some c.comment, some c.date⟩

/-! ### Decoding one entry -/

/-- A value that is no object has no children. -/
theorem child_of_asDictionary_none {v : Value} (h : v.asDictionary = none) (key : String) :
    v.child key = .null := by
  by_contra hne
  obtain ⟨d, hd⟩ := asDictionary_of_child hne
  rw [h] at hd
  cases hd

/-- A decoded string is the field, or empty. -/
theorem string_of_value (v : Value) (key : String) :
    (v.asDictionary.getD []).string key = (v.field key).getD "" := by
  cases hd : v.asDictionary with
  | some d => exact string_of_asDictionary hd key
  | none =>
    rw [Value.field, child_of_asDictionary_none hd]
    rfl

/-- A decoded number is the field, or zero. -/
theorem int_of_value (v : Value) (key : String) :
    (v.asDictionary.getD []).int key = ((v.child key).root.bind Node.asInt).getD 0 := by
  cases hd : v.asDictionary with
  | some d => exact int_of_asDictionary hd key
  | none =>
    rw [child_of_asDictionary_none hd]
    rfl

/-- What `joinMatches` stores decodes to the user. -/
theorem decode_record (user : UserModel) :
    UserModel.init ((Value.asDictionary (.object user.asDictionary)).getD []) =
      user.defaulted := by
  simp [UserModel.init, string_of_value, int_of_value, Value.field, Json.object,
    UserModel.asDictionary, UserModel.defaulted]

/-- What `setPlayerPositionWithMatch` stores decodes to the user in his slot. -/
theorem decode_slotValue (position : PlayerPosition) (user : UserModel) :
    UserPositionModel.init ((slotValue position.rawValue user).asDictionary.getD []) =
      user.placedAt position := by
  have hcast : user.castUserPositionModel position.rawValue = user.placedAt position :=
    castUserPositionModel_eq user position.rawValue
  rw [slotValue, hcast]
  simp [UserPositionModel.init, string_of_value, int_of_value, Value.field, Json.object,
    UserPositionModel.asDictionary, UserModel.placedAt]

/-- A comment is decoded as it was written. -/
theorem decode_comment (c : Comment) :
    CommentsModel.init ((Value.asDictionary (.object
      (MatchsViewModel.commentParams c.comment c.uuid c.date))).getD []) = c.model := by
  simp [CommentsModel.init, string_of_value, Value.field, Json.object, Json.leaf, Node.asString,
    MatchsViewModel.commentParams, Comment.model]

/-! ### The maps of a match -/

section Contents

variable {x : MatchContents} {ws : List (List String × Value)}

/-- The writes of the contents, one kind after the other. -/
theorem mem_writes {w : List String × Value} (hw : w ∈ x.writes) :
    w = (["isPlanningComplete"], .leaf (.bool x.isPlanningComplete)) ∨
      (∃ p ∈ x.players, w = (["players", p.1], .object p.2.asDictionary)) ∨
      (∃ p ∈ x.positions, w = (["Positions", p.1.rawValue], slotValue p.1.rawValue p.2)) ∨
      ∃ c ∈ x.comments, w = (["Comments", c.1],
        .object (MatchsViewModel.commentParams c.2.comment c.2.uuid c.2.date)) := by
  simp only [MatchContents.writes, List.mem_cons, List.mem_append, List.mem_map] at hw
  rcases hw with rfl | (⟨p, hp, rfl⟩ | ⟨p, hp, rfl⟩) | ⟨c, hc, rfl⟩
  · exact .inl rfl
  · exact .inr (.inl ⟨p, hp, rfl⟩)
  · exact .inr (.inr (.inl ⟨p, hp, rfl⟩))
  · exact .inr (.inr (.inr ⟨c, hc, rfl⟩))

/-- The writes store the players. -/
theorem storesPlayers (hws : ws.Perm x.writes) :
    StoresMap ws "players" (x.players.map fun p => (p.1, .object p.2.asDictionary)) where
  nodup := by
    rw [List.map_map]
    exact x.players_nodup
  written e he := by
    obtain ⟨p, hp, rfl⟩ := List.mem_map.mp he
    rw [hws.mem_iff]
    simp only [MatchContents.writes, List.mem_cons, List.mem_append, List.mem_map]
    exact .inr (.inl (.inl ⟨p, hp, rfl⟩))
  only w hw := by
    rcases mem_writes (hws.mem_iff.mp hw) with rfl | ⟨p, hp, rfl⟩ | ⟨p, -, rfl⟩ | ⟨c, -, rfl⟩
    · exact .inr ⟨_, _, rfl, by decide⟩
    · exact .inl ⟨_, List.mem_map_of_mem hp, rfl⟩
    · exact .inr ⟨_, _, rfl, by decide⟩
    · exact .inr ⟨_, _, rfl, by decide⟩
  objects e he := by
    obtain ⟨p, hp, rfl⟩ := List.mem_map.mp he
    -- the uuid is one field that is not missing
    refine asDictionary_of_child (k := "uuid") ?_
    simp [Json.object, UserModel.asDictionary, (x.players_own p hp).2, stringValue, Json.leaf,
      Json.null]

/-- The writes store the positions. -/
theorem storesPositions (hws : ws.Perm x.writes) :
    StoresMap ws "Positions"
      (x.positions.map fun p => (p.1.rawValue, slotValue p.1.rawValue p.2)) where
  nodup := by
    have hnodup := x.positions_nodup.map rawValue_injective
    rw [List.map_map] at hnodup ⊢
    exact hnodup
  written e he := by
    obtain ⟨p, hp, rfl⟩ := List.mem_map.mp he
    rw [hws.mem_iff]
    simp only [MatchContents.writes, List.mem_cons, List.mem_append, List.mem_map]
    exact .inr (.inl (.inr ⟨p, hp, rfl⟩))
  only w hw := by
    rcases mem_writes (hws.mem_iff.mp hw) with rfl | ⟨p, -, rfl⟩ | ⟨p, hp, rfl⟩ | ⟨c, -, rfl⟩
    · exact .inr ⟨_, _, rfl, by decide⟩
    · exact .inr ⟨_, _, rfl, by decide⟩
    · exact .inl ⟨_, List.mem_map_of_mem hp, rfl⟩
    · exact .inr ⟨_, _, rfl, by decide⟩
  objects e he := by
    obtain ⟨p, -, rfl⟩ := List.mem_map.mp he
    exact slotValue_asDictionary _ _

/-- The writes store the comments. -/
theorem storesComments (hws : ws.Perm x.writes) :
    StoresMap ws "Comments" (x.comments.map fun c => (c.1,
      .object (MatchsViewModel.commentParams c.2.comment c.2.uuid c.2.date))) where
  nodup := by
    rw [List.map_map]
    exact x.comments_nodup
  written e he := by
    obtain ⟨c, hc, rfl⟩ := List.mem_map.mp he
    rw [hws.mem_iff]
    simp only [MatchContents.writes, List.mem_cons, List.mem_append, List.mem_map]
    exact .inr (.inr ⟨c, hc, rfl⟩)
  only w hw := by
    rcases mem_writes (hws.mem_iff.mp hw) with rfl | ⟨p, -, rfl⟩ | ⟨p, -, rfl⟩ | ⟨c, hc, rfl⟩
    · exact .inr ⟨_, _, rfl, by decide⟩
    · exact .inr ⟨_, _, rfl, by decide⟩
    · exact .inr ⟨_, _, rfl, by decide⟩
    · exact .inl ⟨_, List.mem_map_of_mem hc, rfl⟩
  objects e he := by
    obtain ⟨c, -, rfl⟩ := List.mem_map.mp he
    exact ⟨_, rfl⟩

/-- The writes of the contents leave the other fields of the document alone. -/
theorem child_of_scalar (hws : ws.Perm x.writes) (doc : Value) {key : String}
    (hkey : key ∉ ["isPlanningComplete", "players", "Positions", "Comments"]) :
    (doc.setAll ws).child key = doc.child key := by
  simp only [List.mem_cons, List.not_mem_nil, or_false, not_or] at hkey
  obtain ⟨hplanning, hplayers, hpositions, hcomments⟩ := hkey
  refine Json.get_setAll_of_diverge (p := [key]) doc fun w hw => ?_
  rcases mem_writes (hws.mem_iff.mp hw) with rfl | ⟨p, -, rfl⟩ | ⟨p, -, rfl⟩ | ⟨c, -, rfl⟩
  · exact .inl (Ne.symm hplanning)
  · exact .inl (Ne.symm hplayers)
  · exact .inl (Ne.symm hpositions)
  · exact .inl (Ne.symm hcomments)

/-- The writes store the flag. -/
theorem child_of_planning (hws : ws.Perm x.writes) (doc : Value) :
    (doc.setAll ws).child "isPlanningComplete" = .leaf (.bool x.isPlanningComplete) := by
  refine Json.get_setAll_of_mem (p := ["isPlanningComplete"]) doc
    (hws.mem_iff.mpr (List.mem_cons_self ..)) fun w hw => ?_
  rcases mem_writes (hws.mem_iff.mp hw) with rfl | ⟨p, -, rfl⟩ | ⟨p, -, rfl⟩ | ⟨c, -, rfl⟩
  · exact .inl rfl
  · exact .inr (.inl (by decide))
  · exact .inr (.inl (by decide))
  · exact .inr (.inl (by decide))

end Contents

/-- For every match and every contents, after `createMatch` and the requests that write the
contents, in any order, the document decodes to the match: the scalar fields are the ones
written, and players, positions and comments are those of the maps in some order, with defaults
for what a user misses. `joinMatches` then counts as many players as are decoded. -/
theorem decode_undoes_writes (s : Firebase) {m : String} (hm : m ≠ "")
    (adminMessage footballArea : String) (startDate finishDate : Int64) (x : MatchContents)
    {rs : List Request} (hrs : rs.Perm (x.requests m)) (order : DictOrder) :
    let server := applied s
      (.createMatch (.createMatch m adminMessage footballArea startDate finishDate) :: rs)
    ∃ d players positions comments, (matchNode server.database m).asDictionary = some d ∧
      MatchsModel.init order d =
        { matchID := some m
          startDate := some startDate
          finishDate := some finishDate
          footballArea := some footballArea
          adminMessage := some adminMessage
          players := some players
          Position := some positions
          isPlanningComplete := some x.isPlanningComplete
          comments := some comments } ∧
      players.Perm (x.players.map fun p => p.2.defaulted) ∧
      positions.Perm (x.positions.map fun p => p.2.placedAt p.1) ∧
      comments.Perm (x.comments.map fun c => c.2.model) ∧
      players.length = (roster server.database m).childrenCount := by
  intro server
  obtain ⟨ws, hwrites, hws⟩ := List.perm_comp_forall₂ hrs (forall₂_writes x m)
  let doc : Value :=
    .object (CreateMatchViewModel.matchParams m adminMessage footballArea startDate finishDate)
  have hdoc : matchNode server.database m = doc.setAll ws := by
    show matchNode (applied s (_ :: rs)).database m = _
    rw [applied, List.foldl_cons]
    refine (matchNode_applied hm hwrites _).trans ?_
    rw [matchNode_write (.create adminMessage footballArea startDate finishDate) hm (by simp) s rfl,
      Json.set_nil]
  have hscalar := fun {key} => @child_of_scalar x ws hws doc key
  have hid : (doc.setAll ws).child "matchID" = .leaf (.str m) := by
    rw [hscalar (by decide)]
    simp [doc, Json.object, CreateMatchViewModel.matchParams]
  obtain ⟨d, hd⟩ : ∃ d, Value.asDictionary (doc.setAll ws) = some d :=
    asDictionary_of_child (k := "matchID") (by rw [hid]; simp [Json.leaf, Json.null])
  have hfresh : ∀ name ∈ ["players", "Positions", "Comments"], doc.child name = .null := by
    simp [doc, Json.object, CreateMatchViewModel.matchParams]
  obtain ⟨hplayers, hcount⟩ :=
    (storesPlayers hws).decoded (hfresh _ (by decide)) hd order UserModel.init
  obtain ⟨hpositions, -⟩ :=
    (storesPositions hws).decoded (hfresh _ (by decide)) hd order UserPositionModel.init
  obtain ⟨hcomments, -⟩ :=
    (storesComments hws).decoded (hfresh _ (by decide)) hd order CommentsModel.init
  simp only [List.map_map, Function.comp_def, decode_record, decode_slotValue, decode_comment]
    at hplayers hpositions hcomments
  refine ⟨d, _, _, _, by rw [hdoc]; exact hd, ?_, hplayers, hpositions, hcomments, ?_⟩
  · simp only [MatchsModel.init, string_of_asDictionary hd, int_of_asDictionary hd,
      bool_of_asDictionary hd, child_of_planning hws, Value.field]
    rw [hscalar (by decide), hscalar (by decide), hscalar (by decide), hscalar (by decide),
      hscalar (by decide)]
    simp [doc, Json.object, CreateMatchViewModel.matchParams, Json.leaf, Node.asString, Node.asInt,
      Node.asBool]
  · rw [hplayers.length_eq, roster, hdoc, hcount, List.length_map, List.length_map]

/-- A planned match with two players, one of them with nothing but his uuid, one placed, and a
comment. -/
def sampleContents : MatchContents where
  isPlanningComplete := true
  players := [("n", samplePlayer "n"), ("o", ⟨none, none, none, none, none, some "o", none⟩)]
  positions := [(.B3, samplePlayer "n")]
  comments := [("key", ⟨"hi", "o", "date"⟩)]
  players_nodup := by decide
  players_own := by decide
  positions_nodup := by decide
  comments_nodup := by decide
  comments_named := by decide

/-- The sample contents, written from the last to the first. -/
theorem decode_undoes_writes_reversed :
    ∃ d players, (matchNode (applied ⟨.null, []⟩
        (.createMatch (.createMatch "m" "message" "area" 0 1) ::
          (sampleContents.requests "m").reverse)).database "m").asDictionary = some d ∧
      (MatchsModel.init .byKey d).players = some players ∧
      players.Perm [samplePlayer "n", ⟨some "", some "", some "", some 0, some "", some "o",
        some ""⟩] := by
  obtain ⟨d, players, _, _, hd, hmodel, hplayers, -⟩ := decode_undoes_writes ⟨.null, []⟩
    (m := "m") (by decide) "message" "area" 0 1 sampleContents (List.reverse_perm _) .byKey
  refine ⟨d, players, hd, ?_, hplayers⟩
  rw [hmodel]

end TifaSoccer
