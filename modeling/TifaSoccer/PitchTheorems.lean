import TifaSoccer.DecodeTheorems

/-!
# Roster and pitch

The two subtrees of a match that the players are in. `PitchStep` says what a server step can do
to both of them, and `slot_serve` what it can do to one slot. The slots carry their own names
(`SlotsNamed`), so the decoded positions are the slots.
-/

namespace TifaSoccer

open Async Run

/-! ## Slots -/

/-- `Matchs/m/Positions/k` -/
def slot (db : Value) (m k : String) : Value := (positions db m).child k

/-- What an assignment stores in its slot. -/
def slotValue (k : String) (player : UserModel) : Value :=
  .object (player.castUserPositionModel k).asDictionary

/-- What an assignment stores is an object. -/
theorem slotValue_asDictionary (k : String) (player : UserModel) :
    ∃ d, (slotValue k player).asDictionary = some d :=
  ⟨_, rfl⟩

/-- The cast gives a missing field of the player its default. -/
theorem castUserPositionModel_eq (player : UserModel) (k : String) :
    player.castUserPositionModel k =
      { email := some (player.email.getD "")
        nameSurname := some (player.nameSurname.getD "")
        position := some (player.position.getD "")
        rate := some (player.rate.getD 0)
        picture := some (player.picture.getD "")
        uuid := some (player.uuid.getD "")
        authority := some (player.authority.getD "")
        positionForMatch := some k } := rfl

/-- An assignment stores the uuid of the player. -/
@[simp] theorem slotValue_uuid (k : String) (player : UserModel) :
    (slotValue k player).field "uuid" = some (player.uuid.getD "") := by
  rw [slotValue, castUserPositionModel_eq]
  exact field_object (UserPositionModel.asDictionary_nodup _)
    (by simp [UserPositionModel.asDictionary])

/-- An assignment stores the name of the slot. -/
@[simp] theorem slotValue_positionForMatch (k : String) (player : UserModel) :
    (slotValue k player).field "positionForMatch" = some k := by
  rw [slotValue, castUserPositionModel_eq]
  exact field_object (UserPositionModel.asDictionary_nodup _)
    (by simp [UserPositionModel.asDictionary])

/-- The requests that empty a slot: the leave of its player, a tap on the pitch, and what
replaces the whole match. -/
def Request.vacates (m k : String) : Request → Bool
  | .matchs (.deletePlayerForFootballArea m' k') => decide (m' = m ∧ k' = k)
  | .matchs (.deletePlayerPositionWithMatch m' k') => decide (m' = m ∧ k' = k)
  | .matchs (.deleteMatches m') => decide (m' = m)
  | .createMatch (.createMatch m' _ _ _ _) => decide (m' = m)
  | _ => false

/-- The slot and the player of an assignment. -/
def Request.assigns (m : String) : Request → Option (String × UserModel)
  | .matchs (.setPlayerPositionWithMatch m' k player) => if m' = m then some (k, player) else none
  | _ => none

/-- The request behind an assignment. -/
theorem assigns_eq_some {m : String} {r : Request} {k : String} {player : UserModel} :
    r.assigns m = some (k, player) ↔ r = .matchs (.setPlayerPositionWithMatch m k player) := by
  unfold Request.assigns
  split
  · rename_i m' k' player'
    split_ifs with hm
    · simp [hm]
    · simp [hm]
  · rename_i hne
    simp only [reduceCtorEq, false_iff]
    intro h
    exact hne _ _ _ h

/-! ## The effect of a server step -/

/-- All that a server step can do to the roster and the slots of `m`. -/
inductive PitchStep (m : String) (r : Request) (o : Outcome) (db db' : Value) : Prop
  | unchanged (hroster : roster db' m = roster db m) (hslot : ∀ k, slot db' m k = slot db m k)
  | joined (u : String) (user : UserModel) (hr : r = .matchs (.joinMatchesWrite m u user))
      (ho : o.error = none)
      (hroster : roster db' m = (roster db m).setChild u (.object user.asDictionary))
      (hslot : ∀ k, slot db' m k = slot db m k)
  | left (u : String) (hr : r = .matchs (.leaveMatches m u)) (ho : o.error = none)
      (hroster : roster db' m = (roster db m).setChild u .null)
      (hslot : ∀ k, slot db' m k = slot db m k)
  | assigned (k : String) (player : UserModel)
      (hr : r = .matchs (.setPlayerPositionWithMatch m k player)) (ho : o.error = none)
      (hroster : roster db' m = roster db m)
      (hslot : ∀ k', slot db' m k' = if k' = k then slotValue k player else slot db m k')
  | cleared (k : String) (hr : r.vacates m k = true) (ho : o.error = none)
      (hroster : roster db' m = roster db m)
      (hslot : ∀ k', slot db' m k' = if k' = k then .null else slot db m k')
  | dropped (hr : ∀ k, r.vacates m k = true) (ho : o.error = none)
      (hroster : roster db' m = .null) (hslot : ∀ k, slot db' m k = .null)

/-- Every request does to the roster and the pitch what `PitchStep` says. -/
theorem pitchStep_serve (s : Firebase) (r : Request) (o : Outcome) (m : String) :
    PitchStep m r o s.database (r.serve s o).1.database := by
  rcases matchNode_serve s r o m with h | ⟨p, v, ho, hw, -, h⟩
  · exact .unchanged (by rw [roster, h, roster])
      fun k => by rw [slot, positions, h, slot, positions]
  · have hroster : roster (r.serve s o).1.database m =
        ((matchNode s.database m).set p v).child "players" := by rw [roster, h]
    have hslot : ∀ k, slot (r.serve s o).1.database m k =
        (((matchNode s.database m).set p v).child "Positions").child k := by
      intro k
      rw [slot, positions, h]
    -- joins and leaves write below `players`, the slots are below `Positions`
    cases hw with
    | join u user =>
      exact .joined u user rfl ho (by rw [hroster]; simp [roster])
        fun k => by rw [hslot]; simp [slot, positions]
    | leave u =>
      exact .left u rfl ho (by rw [hroster]; simp [roster])
        fun k => by rw [hslot]; simp [slot, positions]
    | clearSlot k =>
      exact .cleared k (by simp [Request.vacates]) ho (by rw [hroster]; simp [roster])
        fun k' => by rw [hslot]; simp [slot, positions]
    | assign k player =>
      exact .assigned k player rfl ho (by rw [hroster]; simp [roster])
        fun k' => by rw [hslot]; simp [slot, positions, slotValue]
    | unassign k =>
      exact .cleared k (by simp [Request.vacates]) ho (by rw [hroster]; simp [roster])
        fun k' => by rw [hslot]; simp [slot, positions]
    | delete =>
      exact .dropped (by simp [Request.vacates]) ho (by rw [hroster]; simp)
        fun k => by rw [hslot]; simp
    | create adminMessage footballArea startDate finishDate =>
      exact .dropped (by simp [Request.vacates]) ho
        (by rw [hroster]; simp [Json.object, CreateMatchViewModel.matchParams])
        fun k => by rw [hslot]; simp [Json.object, CreateMatchViewModel.matchParams]
    | planning b =>
      exact .unchanged (by rw [hroster]; simp [roster])
        fun k => by rw [hslot]; simp [slot, positions]
    | comment key comment uuid date =>
      exact .unchanged (by rw [hroster]; simp [roster])
        fun k => by rw [hslot]; simp [slot, positions]

/-- All that a server step can do to a slot: nothing, an assignment, its removal, or dropping
it together with the match. -/
theorem slot_serve (s : Firebase) (r : Request) (o : Outcome) (m k : String) :
    slot (r.serve s o).1.database m k = slot s.database m k ∨
      (∃ player, r = .matchs (.setPlayerPositionWithMatch m k player) ∧ o.error = none ∧
        slot (r.serve s o).1.database m k = slotValue k player) ∨
      (r.vacates m k = true ∧ o.error = none ∧ slot (r.serve s o).1.database m k = .null) := by
  cases pitchStep_serve s r o m with
  | unchanged _ hslot => exact .inl (hslot k)
  | joined _ _ _ _ _ hslot => exact .inl (hslot k)
  | left _ _ _ _ hslot => exact .inl (hslot k)
  | assigned k' player hr ho _ hslot =>
    by_cases hk : k = k'
    · subst hk
      exact .inr (.inl ⟨player, hr, ho, by rw [hslot, if_pos rfl]⟩)
    · exact .inl (by rw [hslot, if_neg hk])
  | cleared k' hr ho _ hslot =>
    by_cases hk : k = k'
    · subst hk
      exact .inr (.inr ⟨hr, ho, by rw [hslot, if_pos rfl]⟩)
    · exact .inl (by rw [hslot, if_neg hk])
  | dropped hr ho _ hslot => exact .inr (.inr ⟨hr k, ho, hslot k⟩)

/-- An assignment in flight that does not fail is stored. -/
theorem slot_assign {m k : String} {r : Request} {player : UserModel} {q : Remote}
    (hr : r = .matchs (.setPlayerPositionWithMatch m k player)) (hq : r.remote = .ok q)
    (s : Firebase) {o : Outcome} (ho : o.error = none) :
    slot (r.serve s o).1.database m k = slotValue k player := by
  subst hr
  have hw := MatchWrite.assign (m := m) k player
  obtain ⟨hm, hk, -⟩ := hw.remote_eq_ok.mp hq
  rw [slot, positions, matchNode_write hw hm hk s ho]
  simp [slotValue]

/-- Nobody is on the pitch of the sample match. -/
theorem slot_sampleMatch (players : List String) (k : String) :
    slot (sampleMatch players).database "m" k = .null := by
  have hfold : ∀ db : Value, positions db "m" = .null → positions (players.foldl (fun db u =>
      db.set ["Matchs", "m", "players", u] (.object (samplePlayer u).asDictionary)) db) "m" =
        .null := by
    induction players with
    | nil => exact fun _ h => h
    | cons u players ih =>
      intro db h
      refine ih _ ?_
      rw [positions, matchNode_set_match, if_pos rfl]
      simpa [positions] using h
  rw [slot, sampleMatch, hfold _ rfl, Json.child_null]

/-! ## Named slots -/

/-- Every slot of `m` is an object that carries its own name. -/
def SlotsNamed (db : Value) (m : String) : Prop :=
  ∀ k, slot db m k ≠ .null →
    (∃ d, (slot db m k).asDictionary = some d) ∧ (slot db m k).field "positionForMatch" = some k

/-- A server step keeps the slots named. -/
theorem slotsNamed_serve {s : Firebase} {m : String} (h : SlotsNamed s.database m) (r : Request)
    (o : Outcome) : SlotsNamed (r.serve s o).1.database m := by
  intro k hk
  rcases slot_serve s r o m k with hslot | ⟨player, -, -, hslot⟩ | ⟨-, -, hslot⟩
  · rw [hslot] at hk ⊢
    exact h k hk
  · rw [hslot]
    exact ⟨slotValue_asDictionary k player, slotValue_positionForMatch k player⟩
  · exact absurd hslot hk

/-- The slots stay named along every run. -/
theorem slotsNamed_of_reaches {C : World → Label → Prop} {m : String} {server : Firebase}
    {sessions : ℕ → Option String} {w : World} (h₀ : SlotsNamed server.database m)
    (hrun : Reaches App.step C (World.start server sessions) w) :
    SlotsNamed w.server.database m :=
  server_invariant (P := App.service) (I := fun s => SlotsNamed s.database m) hrun h₀
    fun _ _ fl o _ hI _ _ => slotsNamed_serve hI fl.request o

/-- The pitch of the sample is empty. -/
theorem slotsNamed_sampleMatch (players : List String) :
    SlotsNamed (sampleMatch players).database "m" :=
  fun k hk => absurd (slot_sampleMatch players k) hk

/-- Each position decoded from a match with named slots is a slot under its own name. -/
theorem slot_of_mem_Position {db : Value} {m : String} (h : SlotsNamed db m) {d : Dictionary}
    (hd : (matchNode db m).asDictionary = some d) {order : DictOrder} {p : UserPositionModel}
    (hp : p ∈ (MatchsModel.init order d).Position.getD []) :
    ∃ k, p.positionForMatch = some k ∧ slot db m k ≠ .null ∧
      p.uuid = some (((slot db m k).field "uuid").getD "") := by
  obtain ⟨k, dk, hdk, rfl⟩ := mem_Position hd hp
  have hdk : (slot db m k).asDictionary = some dk := hdk
  have hne : slot db m k ≠ .null := by
    intro hnull
    rw [hnull] at hdk
    cases hdk
  refine ⟨k, ?_, hne, uuid_init hdk⟩
  rw [positionForMatch_init hdk, (h k hne).2, Option.getD_some]

/-- Each slot of a match with named slots is decoded. -/
theorem mem_Position_of_slot {db : Value} {m : String} (h : SlotsNamed db m) {k : String}
    (hk : slot db m k ≠ .null) :
    ∃ d, (matchNode db m).asDictionary = some d ∧ ∀ order : DictOrder,
      ∃ p ∈ (MatchsModel.init order d).Position.getD [], p.positionForMatch = some k ∧
        p.uuid = some (((slot db m k).field "uuid").getD "") := by
  have hpositions : (matchNode db m).child "Positions" ≠ .null := by
    intro hnull
    apply hk
    rw [slot, positions, hnull, Json.child_null]
  obtain ⟨d, hd⟩ := asDictionary_of_child hpositions
  obtain ⟨dk, hdk⟩ := (h k hk).1
  have hall : Value.NestedObjects ((matchNode db m).child "Positions") :=
    fun k' hk' => (h k' hk').1
  refine ⟨d, hd, fun order => ⟨_, Position_mem hd order hall hdk, ?_, uuid_init hdk⟩⟩
  rw [positionForMatch_init hdk, (h k hk).2, Option.getD_some]

/-- The loop over the decoded positions finds the player of a slot under its name. -/
theorem playerAt_of_slot {db : Value} {m : String} (h : SlotsNamed db m) {d : Dictionary}
    (hd : (matchNode db m).asDictionary = some d) (order : DictOrder) {k v : String}
    (hk : (slot db m k).field "uuid" = some v) :
    (MatchDetailView.playerAt (MatchsModel.init order d) k).bind UserPositionModel.uuid =
      some v := by
  have hne : slot db m k ≠ .null := by
    intro hnull
    rw [hnull] at hk
    cases hk
  obtain ⟨d', hd', hall⟩ := mem_Position_of_slot h hne
  obtain rfl : d' = d := Option.some.inj (hd'.symm.trans hd)
  obtain ⟨p, hp, hpos, -⟩ := hall order
  have hfound : (MatchDetailView.playerAt (MatchsModel.init order d') k).isSome = true :=
    List.find?_isSome.mpr ⟨p, hp, decide_eq_true hpos⟩
  obtain ⟨p', hp'⟩ := Option.isSome_iff_exists.mp hfound
  -- the first one found under this name is the slot
  have hfind : ((MatchsModel.init order d').Position.getD []).find?
      (fun player => decide (player.positionForMatch = some k)) = some p' := hp'
  have hname : p'.positionForMatch = some k := by
    simpa using List.find?_some hfind
  obtain ⟨k', hk', -, huuid⟩ := slot_of_mem_Position h hd (List.mem_of_find?_eq_some hfind)
  obtain rfl : k' = k := Option.some.inj (hk'.symm.trans hname)
  rw [hp', Option.bind_some, huuid, hk, Option.getD_some]

end TifaSoccer
