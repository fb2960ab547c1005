import TifaSoccer.RosterTheorems
import TifaSoccer.SlotTheorems

/-!
# Keys and the copies of them inside the values

A player is stored under his uuid with the uuid inside, and a position under the name of its slot
with the name inside. Key and copy are written by different code, from caches of any age; they
agree in every reachable state (`keys_consistent`), and the lookups of the views rely on it.
-/

namespace TifaSoccer

open Async Run

/-! ## Match documents -/

/-- The keys of a match document and the copies inside its values agree. -/
structure KeyedMatch (doc : Value) : Prop where
  players : ∀ k, (doc.child "players").child k ≠ .null →
    k ≠ "" ∧ Value.field ((doc.child "players").child k) "uuid" = some k
  positions : ∀ k, (doc.child "Positions").child k ≠ .null →
    (∃ position : PlayerPosition, position.rawValue = k) ∧
      Value.field ((doc.child "Positions").child k) "positionForMatch" = some k ∧
      ∃ u, u ≠ "" ∧ Value.field ((doc.child "Positions").child k) "uuid" = some u

/-- A match that is not there has no wrong key. -/
theorem keyedMatch_null : KeyedMatch .null :=
  ⟨fun _ h => absurd rfl h, fun _ h => absurd rfl h⟩

/-- A value that stores a string is an object. -/
theorem asDictionary_of_field {v : Value} {key s : String} (h : v.field key = some s) :
    ∃ d, v.asDictionary = some d := by
  refine asDictionary_of_child (k := key) fun hnull => ?_
  rw [Value.field, hnull] at h
  cases h

/-- The players of such a match are objects. -/
theorem KeyedMatch.playersObjects {doc : Value} (h : KeyedMatch doc) :
    Value.NestedObjects (doc.child "players") :=
  fun k hk => asDictionary_of_field (h.players k hk).2

/-- What is decoded as a dictionary is there. -/
theorem child_ne_null_of_asDictionary {v : Value} {d : Dictionary} (h : v.asDictionary = some d) :
    v ≠ .null := by
  rintro rfl
  cases h

/-! ## Decoded matches -/

/-- What the views rely on in a match decoded from a document. -/
structure DecodedKeyed (doc : Value) (match' : MatchsModel) : Prop where
  uuids : ((match'.players.getD []).map UserModel.uuid).Nodup
  slots : ((match'.Position.getD []).map UserPositionModel.positionForMatch).Nodup
  joined : ∀ currentUser, MatchCardCell.currentUserIsJoined currentUser match' = true ↔
    ∃ uid, currentUser = some uid ∧ uid ∈ (doc.child "players").keys
  named : ∀ player ∈ match'.players.getD [], ∃ u, u ≠ "" ∧ player.uuid = some u

/-- A decoded nested map whose entries carry their keys has as many different copies as entries. -/
theorem nodup_of_carries {β : Type} {v : Value} {d : Dictionary} (h : v.asDictionary = some d)
    {name : String} (order : DictOrder) {f : Dictionary → β} {copy : β → Option String}
    (hcopy : ∀ k dk, (k, dk) ∈ d.nested name → copy (f dk) = some k) :
    (((order.iterate name (d.nested name)).map fun dic => f dic.2).map copy).Nodup := by
  have hsame : ((d.nested name).map fun dic => copy (f dic.2)) =
      ((d.nested name).map Prod.fst).map some := by
    rw [List.map_map]
    exact List.map_congr_left fun dic hdic => hcopy dic.1 dic.2 hdic
  refine nodup_iterate order name _ ?_
  rw [hsame]
  exact (nested_keys_nodup h name).map (Option.some_injective _)

/-- Decoding such a match keeps its keys. -/
theorem KeyedMatch.decoded {doc : Value} (h : KeyedMatch doc) {d : Dictionary}
    (hd : doc.asDictionary = some d) (order : DictOrder) :
    DecodedKeyed doc (MatchsModel.init order d) := by
  have huuid : ∀ k dk, (k, dk) ∈ d.nested "players" → (UserModel.init dk).uuid = some k := by
    intro k dk hmem
    have hdk := mem_nested hd hmem
    show some (dk.string "uuid") = some k
    rw [string_of_asDictionary hdk, (h.players k (child_ne_null_of_asDictionary hdk)).2]
    rfl
  have hslot : ∀ k dk, (k, dk) ∈ d.nested "Positions" →
      (UserPositionModel.init dk).positionForMatch = some k := by
    intro k dk hmem
    have hdk := mem_nested hd hmem
    show some (dk.string "positionForMatch") = some k
    rw [string_of_asDictionary hdk, (h.positions k (child_ne_null_of_asDictionary hdk)).2.1]
    rfl
  have hperm := order.perm "players" (d.nested "players")
  refine ⟨nodup_of_carries hd order huuid, nodup_of_carries hd order hslot, ?_, ?_⟩
  · intro currentUser
    cases currentUser with
    | none => simp [MatchCardCell.currentUserIsJoined]
    | some uid =>
      have hany : MatchCardCell.currentUserIsJoined (some uid) (MatchsModel.init order d) = true ↔
          ∃ dic ∈ d.nested "players", (UserModel.init dic.2).uuid = some uid := by
        simp only [MatchCardCell.currentUserIsJoined, MatchsModel.init, List.any_eq_true,
          List.mem_map, decide_eq_true_eq]
        constructor
        · rintro ⟨_, ⟨dic, hdic, rfl⟩, heq⟩
          exact ⟨dic, hperm.mem_iff.mp hdic, heq⟩
        · rintro ⟨dic, hdic, heq⟩
          exact ⟨_, ⟨dic, hperm.mem_iff.mpr hdic, rfl⟩, heq⟩
      rw [hany]
      constructor
      · rintro ⟨⟨k, dk⟩, hmem, heq⟩
        rw [huuid k dk hmem] at heq
        cases heq
        exact ⟨uid, rfl, Json.mem_keys_iff.mpr (child_ne_null_of_asDictionary (mem_nested hd hmem))⟩
      · rintro ⟨_, ⟨⟩, hmem⟩
        obtain ⟨dk, hdk⟩ := h.playersObjects uid (Json.mem_keys_iff.mp hmem)
        have hentry := nested_mem hd h.playersObjects hdk
        exact ⟨(uid, dk), hentry, huuid uid dk hentry⟩
  · intro player hplayer
    obtain ⟨⟨k, dk⟩, hdic, rfl⟩ := List.mem_map.mp hplayer
    have hmem := hperm.mem_iff.mp hdic
    refine ⟨k, ?_, huuid k dk hmem⟩
    exact (h.players k (child_ne_null_of_asDictionary (mem_nested hd hmem))).1

/-! ## The database -/

/-- An assignment names a slot of the pitch and a player with a uuid. -/
def AssignsKeyed (r : Request) : Prop :=
  ∀ m k player, r = .matchs (.setPlayerPositionWithMatch m k player) →
    (∃ position : PlayerPosition, position.rawValue = k) ∧ ∃ u, u ≠ "" ∧ player.uuid = some u

/-- The same in terms of the roster and the slots. -/
theorem keyedMatch_iff {db : Value} {m : String} :
    KeyedMatch (matchNode db m) ↔
      (∀ k, (roster db m).child k ≠ .null →
        k ≠ "" ∧ Value.field ((roster db m).child k) "uuid" = some k) ∧
      ∀ k, slot db m k ≠ .null →
        (∃ position : PlayerPosition, position.rawValue = k) ∧
          (slot db m k).field "positionForMatch" = some k ∧
          ∃ u, u ≠ "" ∧ (slot db m k).field "uuid" = some u :=
  ⟨fun h => ⟨h.players, h.positions⟩, fun h => ⟨h.1, h.2⟩⟩

/-- A server step keeps the keys of a match. -/
theorem keyedMatch_serve {w : World} {fl : Flight} (o : Outcome) {m : String} {q : Remote}
    (h : KeyedMatch (matchNode w.server.database m)) (hjoins : JoinsSelf fl)
    (hassigns : AssignsKeyed fl.request) (hq : fl.request.remote = .ok q) :
    KeyedMatch (matchNode (fl.request.serve w.server o).1.database m) := by
  obtain ⟨hplayers, hpositions⟩ := keyedMatch_iff.mp h
  rw [keyedMatch_iff]
  cases pitchStep_serve w.server fl.request o m with
  | unchanged hroster hslot =>
    rw [hroster]
    exact ⟨hplayers, fun k => by rw [hslot]; exact hpositions k⟩
  | joined u user hjoin _ hroster hslot =>
    rw [hroster]
    refine ⟨fun k hk => ?_, fun k => by rw [hslot]; exact hpositions k⟩
    rw [Json.child_setChild] at hk ⊢
    by_cases hku : k = u
    · -- the record that has just been written
      subst hku
      rw [hjoin] at hq
      obtain ⟨-, hpath, -⟩ := (MatchWrite.join k user).remote_eq_ok.mp hq
      rw [if_pos rfl, record_uuid, hjoins m k user (.inr hjoin)]
      refine ⟨?_, rfl⟩
      rintro rfl
      exact hpath (by simp)
    · rw [if_neg hku] at hk ⊢
      exact hplayers k hk
  | left u _ _ hroster hslot =>
    rw [hroster]
    refine ⟨fun k hk => ?_, fun k => by rw [hslot]; exact hpositions k⟩
    rw [Json.child_setChild] at hk ⊢
    by_cases hku : k = u
    · rw [if_pos hku] at hk
      exact absurd rfl hk
    · rw [if_neg hku] at hk ⊢
      exact hplayers k hk
  | assigned k' player hassign _ hroster hslot =>
    rw [hroster]
    refine ⟨hplayers, fun k hk => ?_⟩
    rw [hslot] at hk ⊢
    by_cases hkk : k = k'
    · subst hkk
      obtain ⟨hposition, u, hu, huuid⟩ := hassigns m k player hassign
      rw [if_pos rfl, slotValue_positionForMatch, slotValue_uuid, huuid]
      exact ⟨hposition, rfl, u, hu, rfl⟩
    · rw [if_neg hkk] at hk ⊢
      exact hpositions k hk
  | cleared k' _ _ hroster hslot =>
    rw [hroster]
    refine ⟨hplayers, fun k hk => ?_⟩
    rw [hslot] at hk ⊢
    by_cases hkk : k = k'
    · rw [if_pos hkk] at hk
      exact absurd rfl hk
    · rw [if_neg hkk] at hk ⊢
      exact hpositions k hk
  | dropped _ _ hroster hslot =>
    rw [hroster]
    exact ⟨fun k hk => absurd rfl hk, fun k hk => absurd (hslot k) hk⟩

/-! ## Caches and requests in flight -/

/-- Assignments take a player from the list above the pitch and a slot of the pitch. -/
def AssignedFromList (w : World) (i : ℕ) (op : Op) : Prop :=
  ∀ a ∈ op.assigns, a.2 ∈ (w.clients i).matchs.unselectedPlayer ∧
    ∃ position ∈ PlayerPosition.allCases, PlayerPosition.rawValue position = a.1

instance (w : World) (i : ℕ) (op : Op) : Decidable (AssignedFromList w i op) :=
  inferInstanceAs (Decidable (∀ a ∈ op.assigns, _))

section Caches

variable (w₀ : World)

/-- A keyed document some match has had in the run. -/
def StoredDocument (doc : Value) : Prop :=
  KeyedMatch doc ∧ ∃ w m, Reaches App.step (OnCall AssignedFromList) w₀ w ∧
    doc = matchNode w.server.database m

/-- A match decoded from such a document, or the one a client starts with. -/
def FetchedMatch (match' : MatchsModel) : Prop :=
  match' = MatchsModel.init .byKey [] ∨
    ∃ doc d order, StoredDocument w₀ doc ∧ doc.asDictionary = some d ∧
      match' = MatchsModel.init order d

/-- The matches a client has cached. -/
def Client.cachedMatchs (c : Client) : List MatchsModel :=
  c.matchs.selectedMatch :: c.matchs.matchsModelList

/-- What a request in flight carries, and what its answer has brought. -/
structure FlightKeyed (fl : Flight) : Prop where
  assigns : AssignsKeyed fl.request
  selected : ∀ m, fl.request = .matchs (.getMatchWithMatchID m) → ∀ a ∈ fl.answer,
    ∀ d ∈ a.value.asDictionary, StoredDocument w₀ a.value
  listed : fl.request = .matchs .getAllMatchs → ∀ a ∈ fl.answer,
    ∀ k, ∀ d ∈ Value.asDictionary (a.value.child k), StoredDocument w₀ (a.value.child k)

variable {w₀}

/-- A request that has just been issued. -/
theorem flightKeyed_issued {i : ℕ} {r : Request} {cause : Option Request} {c : Client}
    (h : AssignsKeyed r) : FlightKeyed w₀ ⟨i, r, cause, c, none⟩ := by
  refine ⟨h, ?_, ?_⟩
  · intro m _ a ha
    cases ha
  · intro _ a ha
    cases ha

/-- The answers to reads of matches bring stored documents. -/
theorem flightKeyed_serve {w : World} {fl : Flight} (o : Outcome)
    (hreach : Reaches App.step (OnCall AssignedFromList) w₀ w)
    (hkeyed : ∀ m, KeyedMatch (matchNode w.server.database m)) (h : FlightKeyed w₀ fl) :
    FlightKeyed w₀ { fl with answer := some (fl.request.serve w.server o).2 } := by
  have hstored : ∀ m, StoredDocument w₀ (matchNode w.server.database m) :=
    fun m => ⟨hkeyed m, w, m, hreach, rfl⟩
  refine ⟨h.assigns, fun m hr a ha d hd => ?_, fun hr a ha k d hd => ?_⟩
  · cases ha
    have hr : fl.request = .matchs (.getMatchWithMatchID m) := hr
    rw [hr] at hd ⊢
    rcases MatchRead.detail.answer w.server o with hanswer | ⟨⟨e, hanswer⟩, -⟩
    · rw [hanswer]
      exact hstored m
    · rw [hanswer] at hd
      cases hd
  · cases ha
    have hr : fl.request = .matchs .getAllMatchs := hr
    rw [hr] at hd ⊢
    have hread : ∀ q, (Request.matchs .getAllMatchs).remote = .ok q → q = .getData ["Matchs"] := by
      rintro q ⟨⟩
      rfl
    rcases answer_of_getData hread w.server o with hanswer | ⟨⟨e, hanswer⟩, -⟩
    · rw [hanswer]
      exact hstored k
    · rw [hanswer] at hd
      cases hd

/-- A cached player has a uuid. -/
theorem FetchedMatch.named {match' : MatchsModel} (h : FetchedMatch w₀ match') {player : UserModel}
    (hplayer : player ∈ match'.players.getD []) : ∃ u, u ≠ "" ∧ player.uuid = some u := by
  rcases h with rfl | ⟨doc, d, order, hstored, hd, rfl⟩
  · cases hplayer
  · exact (hstored.1.decoded hd order).named player hplayer

/-- The invariant: database, caches and requests in flight have consistent keys. -/
theorem keyed_of_reaches {w : World} (hserver : ∀ m, KeyedMatch (matchNode w₀.server.database m))
    {server : Firebase} {sessions : ℕ → Option String} (hstart : w₀ = World.start server sessions)
    (hrun : Reaches App.step (OnCall AssignedFromList) w₀ w) :
    (∀ m, KeyedMatch (matchNode w.server.database m)) ∧
      (∀ i, ∀ match' ∈ (w.clients i).cachedMatchs, FetchedMatch w₀ match') ∧
      ∀ fl ∈ w.flights, FlightKeyed w₀ fl := by
  refine joint_invariant (P := App.service)
    (I := fun s => ∀ m, KeyedMatch (matchNode s.database m))
    (Q := fun c => ∀ match' ∈ c.cachedMatchs, FetchedMatch w₀ match') hrun hserver ?_ ?_ ?_ ?_ ?_
  · intro i match' hmatch
    rw [hstart] at hmatch
    exact .inl (List.mem_singleton.mp hmatch)
  · rw [hstart]
    rfl
  · intro w n o fl hreach hI hJ hget _
    have hfl : fl ∈ w.flights := List.mem_of_getElem? hget
    obtain ⟨q, hq⟩ := sent_of_reaches (hstart ▸ hreach) fl hfl
    have hjoins := joinsSelf_of_reaches (hstart ▸ hreach) fl hfl
    exact ⟨fun m => keyedMatch_serve o (hI m) hjoins hJ.assigns hq,
      flightKeyed_serve o hreach hI hJ⟩
  · intro w i op c rs hreach hQ hcond hcall
    have hcall := toOption_eq_some.mp hcall
    have hfrom := calledFrom_of_call hcall
    refine ⟨fun match' hmatch => ?_, fun r hr => ?_⟩
    · rcases List.mem_cons.mp hmatch with rfl | hmatch
      · exact hQ _ (hfrom.selectedMatch ▸ List.mem_cons_self ..)
      · rcases hfrom.matchsModelList with hlist | hlist
        · exact hQ _ (List.mem_cons_of_mem _ (hlist ▸ hmatch))
        · rw [hlist] at hmatch
          cases hmatch
    · refine flightKeyed_issued ?_
      rintro m k player rfl
      -- the menu passes a player it shows and a slot of the pitch
      cases (issues_of_call hcall hr).1
      obtain ⟨hplayer, position, -, hposition⟩ := hcond (k, player) rfl
      refine ⟨⟨position, hposition⟩, ?_⟩
      have hexact := (unselectedExact_of_reaches (hstart ▸ hreach)).1 i
      rw [hexact] at hplayer
      exact (hQ _ (List.mem_cons_self ..)).named (List.mem_of_mem_filter hplayer)
  · intro w n d fl a c rs hreach hQ hJ _ _ ha hcomplete
    have hcomplete := toOption_eq_some.mp hcomplete
    have hfrom := completedFrom_of_complete hcomplete
    refine ⟨fun match' hmatch => ?_, fun r hr => ?_⟩
    · rcases List.mem_cons.mp hmatch with rfl | hmatch
      · rcases hfrom.selection with ⟨hselected, -⟩ | ⟨m, d, hr, hd, hselected, -⟩
        · rw [hselected]
          exact hQ _ (List.mem_cons_self ..)
        · rw [hselected]
          exact .inr ⟨_, d, _, hJ.selected m hr a ha d hd, hd, rfl⟩
      · rcases hfrom.matchsModelList match' hmatch with hold | ⟨hr, order, k, d, hd, rfl⟩
        · exact hQ _ (List.mem_cons_of_mem _ hold)
        · exact .inr ⟨_, d, order, hJ.listed hr a ha k d hd, hd, rfl⟩
    · -- no completion issues an assignment
      refine flightKeyed_issued ?_
      rintro m k player rfl
      have hissues := (issues_of_complete hcomplete hr).1
      generalize fl.request = r₀ at hissues
      cases hissues

end Caches

/-- Along every run of any number of clients, with caches of any age, in which assignments take
a player the menu shows and a slot of the pitch: in every match document the keys of players and
positions agree with the copies inside, a match decoded from one has no two players with one
uuid and no two positions with one slot, and shows the user as joined exactly when his uid is a
key; and every match a client has cached was decoded from such a document. -/
theorem keys_consistent {server : Firebase} {sessions : ℕ → Option String} {w : World}
    (h₀ : ∀ m, KeyedMatch (matchNode server.database m))
    (hrun : Reaches App.step (OnCall AssignedFromList) (World.start server sessions) w) :
    (∀ m, KeyedMatch (matchNode w.server.database m)) ∧
      (∀ m order, ∀ d ∈ (matchNode w.server.database m).asDictionary,
        DecodedKeyed (matchNode w.server.database m) (MatchsModel.init order d)) ∧
      ∀ i, ∀ match' ∈ (w.clients i).cachedMatchs, match' = MatchsModel.init .byKey [] ∨
        ∃ w' m, Reaches App.step (OnCall AssignedFromList) (World.start server sessions) w' ∧
          DecodedKeyed (matchNode w'.server.database m) match' := by
  obtain ⟨hkeyed, hcached, -⟩ := keyed_of_reaches h₀ rfl hrun
  refine ⟨hkeyed, fun m order d hd => (hkeyed m).decoded hd order, fun i match' hmatch => ?_⟩
  rcases hcached i match' hmatch with hstart | ⟨doc, d, order, ⟨hdoc, w', m, hreach, rfl⟩, hd, rfl⟩
  · exact .inl hstart
  · exact .inr ⟨w', m, hreach, hdoc.decoded hd order⟩

/-- A match is created, `n` joins, and an admin opens it and puts `n` on the pitch. -/
def placedFromList : List Label :=
  [.call 1 (.createMatch "m" "message" "area" 0 1), .serve 0 {},
    .call 0 (.joinMatches "m" (samplePlayer "n"))] ++ roundTrip 1 {} ++
    [.serve 1 {}, .call 1 (.openDetail "m")] ++ roundTrip 2 {} ++
    [.call 1 (.setPlayerPositionWithMatch "m" "A0" (samplePlayer "n")), .serve 2 {}]

/-- A player from the list is placed. -/
theorem keys_consistent_placed :
    ∃ w, exec (restrict App.step (OnCall AssignedFromList))
        (World.start ⟨.null, []⟩ fun _ => some "n") placedFromList = some w ∧
      (slot w.server.database "m" "A0").field "uuid" = some "n" ∧
      KeyedMatch (matchNode w.server.database "m") := by
  obtain ⟨w, hw, hslot⟩ := Option.map_eq_some_iff.mp (show (exec (restrict App.step
    (OnCall AssignedFromList)) (World.start ⟨.null, []⟩ fun _ => some "n") placedFromList).map
    (fun w => (slot w.server.database "m" "A0").field "uuid") = some (some "n")
    from by decide +kernel)
  have hkeyed : ∀ m, KeyedMatch (matchNode (⟨.null, []⟩ : Firebase).database m) :=
    fun _ => keyedMatch_null
  exact ⟨w, hw, hslot, (keys_consistent hkeyed (reaches_of_exec hw)).1 "m"⟩

end TifaSoccer
