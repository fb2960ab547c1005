import TifaSoccer.PitchTheorems
import TifaSoccer.ReadingTheorems
import TifaSoccer.ViewModelTheorems

/-!
# The slots of the pitch

An assignment writes a player into a slot by name, without looking at what is there. The guards
are on the side of the client: the menu offers only the players its cached match does not show
on the pitch, and only the slots it shows free. They are as good as the cache: what the cache does
not show has been assigned since it was read (`shownAt_or_assigned`). So no player is in two slots
(`one_slot_each`), and no assignment is lost (`no_lost_assignment`), along runs in which nobody
else's assignment has come between that read and the write.
-/

namespace TifaSoccer

open Async Run

/-! ## The menu -/

/-- The slot and the player of a tap in the menu. -/
def Op.assigns : Op → Option (String × UserModel)
  | .setPlayerPositionWithMatch _ playerPosition player => some (playerPosition, player)
  | _ => none

/-- Assignments are issued from the menu of the detail screen. -/
def AssignedFromMenu (w : World) (i : ℕ) (op : Op) : Prop :=
  ∀ a ∈ op.assigns, (w.clients i).menuOffers a.1 a.2

instance (w : World) (i : ℕ) (op : Op) : Decidable (AssignedFromMenu w i op) :=
  inferInstanceAs (Decidable (∀ a ∈ op.assigns, _))

/-- The menu offered the player and the slot of every assignment in flight. -/
theorem menuOffers_of_reaches {C : World → Label → Prop} {server : Firebase}
    {sessions : ℕ → Option String} {w : World} (hC : ∀ w l, C w l → OnCall AssignedFromMenu w l)
    (hrun : Reaches App.step C (World.start server sessions) w) {fl : Flight} (hfl : fl ∈ w.flights)
    {m k : String} {player : UserModel}
    (hr : fl.request = .matchs (.setPlayerPositionWithMatch m k player)) :
    fl.issuedIn.menuOffers k player := by
  revert m k player
  refine flight_invariant (P := App.service) (J := fun fl => ∀ {m k player},
    fl.request = .matchs (.setPlayerPositionWithMatch m k player) →
      fl.issuedIn.menuOffers k player) hrun rfl ?_ ?_ ?_ fl hfl
  · intro w i op c rs r _ hcond hcall hr m k player heq
    have hissues := (issues_of_call (toOption_eq_some.mp hcall) hr).1
    simp only at heq
    subst heq
    cases hissues
    exact hC _ _ hcond (k, player) rfl
  · intro w n o fl _ _ _ _ hJ m k player heq
    exact hJ heq
  · -- no completion issues an assignment
    intro w n d fl a c rs r _ _ _ _ _ hcomplete hr m k player heq
    have hissues := (issues_of_complete (toOption_eq_some.mp hcomplete) hr).1
    simp only at heq
    subst heq
    generalize fl.request = r₀ at hissues
    cases hissues

/-! ## One slot for each player -/

/-- No two slots of `m` store the same uuid. -/
def OneSlotEach (db : Value) (m : String) : Prop :=
  ∀ k k' v, (slot db m k).field "uuid" = some v → (slot db m k').field "uuid" = some v → k = k'

/-- The slot and the uuid of an assignment to `m` that has been applied. -/
def assignedBy (m : String) (e : Request × Outcome) : Option (String × String) :=
  if e.2.error = none then (e.1.assigns m).map fun a => (a.1, a.2.uuid.getD "") else none

/-- When an assignment to `m` is applied, the match it was issued from was read from `m`, and since
then the player has not been assigned to another slot. -/
def PlacedOnce (m : String) (w : TimedWorld) (fl : TimedFlight) (o : Outcome) : Prop :=
  ∀ a ∈ fl.request.1.assigns m, o.error = none →
    ∃ x ∈ fl.issuedIn.2, x.request = .matchs (.getMatchWithMatchID m) ∧
      ∀ e ∈ since w.server.2 x.moment, ∀ b ∈ assignedBy m e, b.2 = a.2.uuid.getD "" → b.1 = a.1

instance (m : String) (w : TimedWorld) (fl : TimedFlight) (o : Outcome) :
    Decidable (PlacedOnce m w fl o) :=
  inferInstanceAs (Decidable (∀ a ∈ fl.request.1.assigns m, _))

/-- The uuid of the player a client's cached match shows in a slot. -/
def Client.shownAt (c : Client) (k : String) : Option String :=
  (MatchDetailView.playerAt c.matchs.selectedMatch k).bind UserPositionModel.uuid

/-! ### What the cache shows -/

/-- The answers that show the match `m`. -/
def AnswersMatch (m : String) (r : Request) (a : Answer) : Prop :=
  r = .matchs (.getMatchWithMatchID m) ∧ a.value.asDictionary.isSome = true

/-- A slot stores a player only if it did before or he has just been assigned to it. -/
theorem stored_of_serve (m k v : String) (s : Firebase) (r : Request) (o : Outcome) :
    (if (slot (r.serve s o).1.database m k).field "uuid" = some v then 1 else 0) ≤
      (if (slot s.database m k).field "uuid" = some v then 1 else 0) +
        [(r, o)].countP fun e => decide (assignedBy m e = some (k, v)) := by
  rcases slot_serve s r o m k with hsame | ⟨player, hr, ho, hslot⟩ | ⟨-, -, hnull⟩
  · rw [hsame]
    exact Nat.le_add_right _ _
  · rw [hslot, slotValue_uuid]
    by_cases hv : some (player.uuid.getD "") = some v
    · have hassigned : assignedBy m (r, o) = some (k, v) := by
        rw [assignedBy, if_pos ho, assigns_eq_some.mpr hr, Option.map_some, Option.some.inj hv]
      rw [if_pos hv, List.countP_singleton, if_pos (decide_eq_true hassigned)]
      exact Nat.le_add_left _ _
    · rw [if_neg hv]
      exact Nat.zero_le _
  · rw [hnull, Value.field_null, if_neg (by simp)]
    exact Nat.zero_le _

/-- A read of `m` shows what its slots store. -/
theorem shows_of_serve {m : String} {s : Firebase} {r : Request} {o : Outcome}
    (h : AnswersMatch m r (r.serve s o).2) :
    (r.serve s o).2.value = matchNode s.database m ∧
      ∀ k, slot (r.serve s o).1.database m k = slot s.database m k := by
  obtain ⟨rfl, hsome⟩ := h
  constructor
  · rcases MatchRead.detail.answer s o with hsnapshot | ⟨⟨e, he⟩, -⟩
    · rw [hsnapshot]
      rfl
    · rw [he] at hsome
      cases hsome
  · intro k
    rcases slot_serve s (.matchs (.getMatchWithMatchID m)) o m k with
      hsame | ⟨player, hr, -, -⟩ | ⟨hvacates, -, -⟩
    · exact hsame
    · cases hr
    · cases hvacates

/-- The answers that show `m` show a match with named slots. -/
theorem named_of_holds {C : TimedWorld → Label → Prop} {m : String} {server : Firebase}
    {sessions : ℕ → Option String} {w : TimedWorld} (h₀ : SlotsNamed server.database m)
    (hrun : Reaches App.timed C (TimedWorld.start server sessions) w) {x : Reading Request Answer}
    (hx : w.Holds x) (hshows : AnswersMatch m x.request x.answer) :
    ∃ db, SlotsNamed db m ∧ x.answer.value = matchNode db m := by
  refine reading_invariant (P := App.service) (I := fun _ x => AnswersMatch m x.request x.answer →
    ∃ db, SlotsNamed db m ∧ x.answer.value = matchNode db m) hrun ?_ ?_ x hx hshows
  · intro w n o fl hreach _ _ hshows
    have hrun' : Reaches App.step (fun _ _ => True) (World.start server sessions) w.untimed :=
      untimed_of_reaches hreach fun _ _ _ => trivial
    have hnamed : SlotsNamed w.untimed.server.database m := slotsNamed_of_reaches h₀ hrun'
    exact ⟨w.server.1.database, hnamed, (shows_of_serve hshows).1⟩
  · intro w n o fl x _ _ _ hI
    exact hI

/-- A player whom a slot stores is shown there by the match a request was issued from, or he has
been assigned to the slot since it was read. -/
theorem shownAt_or_assigned {C : TimedWorld → Label → Prop} {m : String} {server : Firebase}
    {sessions : ℕ → Option String} {w : TimedWorld} (h₀ : SlotsNamed server.database m)
    (hrun : Reaches App.timed C (TimedWorld.start server sessions) w) {fl : TimedFlight}
    (hfl : fl ∈ w.flights) {x : Reading Request Answer} (hx : fl.issuedIn.2 = some x)
    (hread : x.request = .matchs (.getMatchWithMatchID m)) {k v : String}
    (hstored : (slot w.server.1.database m k).field "uuid" = some v) :
    fl.issuedIn.1.shownAt k = some v ∨ ∃ e ∈ since w.server.2 x.moment,
      assignedBy m e = some (k, v) := by
  obtain ⟨m', order, d, -, hd, hselected⟩ := selectedFrom_of_reaches hrun hfl hx
  have hshows : AnswersMatch m x.request x.answer := ⟨hread, by rw [hd]; rfl⟩
  obtain ⟨db, hnamed, hvalue⟩ := named_of_holds h₀ hrun (.issued hfl hx) hshows
  rw [hvalue] at hd
  have hgrown := grown_since (P := App.service)
    (fun s => if (slot s.database m k).field "uuid" = some v then 1 else 0)
    (fun e => decide (assignedBy m e = some (k, v))) (AnswersMatch m)
    (fun a => if Value.field ((a.value.child "Positions").child k) "uuid" = some v then 1 else 0)
    (stored_of_serve m k v) ?_ hrun (.issued hfl hx) hshows
  · simp only [hstored, if_true, hvalue] at hgrown
    by_cases hshown : (slot db m k).field "uuid" = some v
    · left
      rw [Client.shownAt, hselected]
      exact playerAt_of_slot hnamed hd order hshown
    · right
      replace hgrown : 1 ≤ (if (slot db m k).field "uuid" = some v then 1 else 0) +
        (since w.server.2 x.moment).countP fun e => decide (assignedBy m e = some (k, v)) := hgrown
      rw [if_neg hshown, Nat.zero_add] at hgrown
      obtain ⟨e, he, hassigned⟩ := List.countP_pos_iff.mp hgrown
      exact ⟨e, he, of_decide_eq_true hassigned⟩
  · intro s r o hshows
    obtain ⟨hvalue, hslot⟩ := shows_of_serve hshows
    show (if (slot (r.serve s o).1.database m k).field "uuid" = some v then 1 else 0) ≤
      (if Value.field (((r.serve s o).2.value.child "Positions").child k) "uuid" = some v then 1
        else 0)
    rw [hslot, hvalue]
    exact le_of_eq rfl

/-- What the menu offers is not on the cached pitch. -/
theorem not_on_pitch_of_menuOffers {c : Client} {k : String} {player : UserModel}
    (hexact : UnselectedExact c) (hmenu : c.menuOffers k player) {position : UserPositionModel}
    (hposition : position ∈ c.matchs.selectedMatch.Position.getD []) :
    position.uuid ≠ player.uuid := by
  have hmem : player ∈ c.matchs.unselectedPlayer := hmenu.1
  rw [hexact, List.mem_filter, decide_eq_true_eq] at hmem
  exact hmem.2 position hposition

/-- The menu offers players with a uuid: they were decoded. -/
theorem uuid_of_menuOffers {c : Client} {x : Reading Request Answer} (hselected : SelectedFrom c x)
    (hexact : UnselectedExact c) {k : String} {player : UserModel} (hmenu : c.menuOffers k player) :
    player.uuid = some (player.uuid.getD "") := by
  obtain ⟨m, order, d, -, -, hselected⟩ := hselected
  have hmem : player ∈ c.matchs.unselectedPlayer := hmenu.1
  rw [hexact, List.mem_filter, hselected] at hmem
  obtain ⟨dk, -, rfl⟩ := List.mem_map.mp hmem.1
  rfl

/-- Whom the cached match shows in a slot the menu does not offer. -/
theorem shownAt_ne_of_menuOffers {c : Client} {k k' : String} {player : UserModel}
    (hexact : UnselectedExact c) (hmenu : c.menuOffers k player) {v : String}
    (huuid : player.uuid = some v) : c.shownAt k' ≠ some v := by
  intro hshown
  obtain ⟨position, hfound, hposition⟩ := Option.bind_eq_some_iff.mp hshown
  exact not_on_pitch_of_menuOffers hexact hmenu (List.mem_of_find?_eq_some hfound)
    (hposition.trans huuid.symm)

/-- An assignment that is applied is of a player whom no other slot stores. -/
theorem slot_eq_of_assigns {m : String} {server : Firebase} {sessions : ℕ → Option String}
    {w : TimedWorld} (hnamed : SlotsNamed server.database m)
    (hrun : Reaches App.timed
      (fun w l => OnCall AssignedFromMenu w.untimed l ∧ OnServe (PlacedOnce m) w l)
      (TimedWorld.start server sessions) w) {fl : TimedFlight} (hfl : fl ∈ w.flights) {o : Outcome}
    (hcond : PlacedOnce m w fl o) (ho : o.error = none) {k k' : String} {player : UserModel}
    (hr : fl.request.1 = .matchs (.setPlayerPositionWithMatch m k player))
    (hstored : (slot w.server.1.database m k').field "uuid" = some (player.uuid.getD "")) :
    k = k' := by
  have hworld : Reaches App.step (OnCall AssignedFromMenu) (World.start server sessions)
      w.untimed := untimed_of_reaches hrun fun _ _ h => h.1
  have hexact : UnselectedExact fl.issuedIn.1 :=
    (unselectedExact_of_reaches hworld).2 _ (mem_untimed hfl)
  have hmenu : fl.issuedIn.1.menuOffers k player :=
    menuOffers_of_reaches (fun _ _ h => h) hworld (mem_untimed hfl) hr
  obtain ⟨x, hx, hread, honce⟩ := hcond (k, player) (assigns_eq_some.mpr hr) ho
  have huuid := uuid_of_menuOffers (selectedFrom_of_reaches hrun hfl hx) hexact hmenu
  rcases shownAt_or_assigned hnamed hrun hfl hx hread hstored with hshown | ⟨e, he, hassigned⟩
  · exact absurd hshown (shownAt_ne_of_menuOffers hexact hmenu huuid)
  · exact (honce e he _ hassigned rfl).symm

/-- Along every run of any number of clients in which assignments come from the menu and a player
is not assigned to another slot between the read of a cached match and an assignment issued from
it, no player is in two slots of `m`. -/
theorem one_slot_each (m : String) {server : Firebase} {sessions : ℕ → Option String}
    {w : TimedWorld} (h₀ : OneSlotEach server.database m) (hnamed : SlotsNamed server.database m)
    (hrun : Reaches App.timed
      (fun w l => OnCall AssignedFromMenu w.untimed l ∧ OnServe (PlacedOnce m) w l)
      (TimedWorld.start server sessions) w) :
    OneSlotEach w.server.1.database m := by
  refine server_invariant (P := App.service.timed Request.storesMatch)
    (I := fun s => OneSlotEach s.1.database m) hrun h₀ ?_
  intro w n fl o hreach hI hget hC
  have hassign : ∀ {k k' player},
      fl.request.1 = .matchs (.setPlayerPositionWithMatch m k player) → o.error = none →
      (slot w.server.1.database m k').field "uuid" = some (player.uuid.getD "") → k = k' :=
    fun hr ho => slot_eq_of_assigns hnamed hreach (List.mem_of_getElem? hget) (hC.2 fl hget) ho hr
  show OneSlotEach (fl.request.1.serve w.server.1 o).1.database m
  -- two slots with one uuid after the step: each was there before, or has just been assigned
  intro k k' v hk hk'
  rcases slot_serve w.server.1 fl.request.1 o m k with h | ⟨player, hr, ho, h⟩ | ⟨-, -, h⟩ <;>
    rw [h] at hk
  · rcases slot_serve w.server.1 fl.request.1 o m k' with h' | ⟨player', hr', ho', h'⟩ | ⟨-, -, h'⟩
      <;> rw [h'] at hk'
    · exact hI k k' v hk hk'
    · rw [slotValue_uuid] at hk'
      exact (hassign hr' ho' (hk.trans hk'.symm)).symm
    · cases hk'
  · rcases slot_serve w.server.1 fl.request.1 o m k' with h' | ⟨player', hr', ho', h'⟩ | ⟨-, -, h'⟩
      <;> rw [h'] at hk'
    · rw [slotValue_uuid] at hk
      exact hassign hr ho (hk'.trans hk.symm)
    · rw [hr] at hr'
      cases hr'
      rfl
    · cases hk'
  · cases hk

/-- An admin opens the screen and assigns `n`. -/
def assignOnce : List Label :=
  [.call 0 (.openDetail "m")] ++ roundTrip 0 {} ++
    [.call 0 (.setPlayerPositionWithMatch "m" "A0" (samplePlayer "n")), .serve 0 {}]

/-- One assignment from the menu. -/
theorem one_slot_each_assigned_once :
    ∃ w, exec (restrict App.timed
        fun w l => OnCall AssignedFromMenu w.untimed l ∧ OnServe (PlacedOnce "m") w l)
        (TimedWorld.start (sampleMatch ["n"]) fun _ => some "n") assignOnce = some w ∧
      OneSlotEach w.server.1.database "m" := by
  obtain ⟨w, hw⟩ := Option.isSome_iff_exists.mp (show (exec (restrict App.timed
    fun w l => OnCall AssignedFromMenu w.untimed l ∧ OnServe (PlacedOnce "m") w l)
    (TimedWorld.start (sampleMatch ["n"]) fun _ => some "n") assignOnce).isSome
    from by decide +kernel)
  refine ⟨w, hw, one_slot_each "m" ?_ (slotsNamed_sampleMatch ["n"]) (reaches_of_exec hw)⟩
  intro k k' v hk _
  rw [slot_sampleMatch] at hk
  cases hk

/-- The admin assigns `n` once more before the refresh has arrived. -/
def assignTwice : List Label :=
  assignOnce ++ [.deliver 0 fun _ => .byKey,
    .call 0 (.setPlayerPositionWithMatch "m" "A1" (samplePlayer "n")), .serve 1 {}]

/-- One admin puts a player into two slots. -/
theorem quick_admin_places_twice :
    ∃ w, exec (restrict App.step (OnCall AssignedFromMenu))
        (World.start (sampleMatch ["n"]) fun _ => some "n") assignTwice = some w ∧
      ¬ OneSlotEach w.server.database "m" := by
  obtain ⟨w, hw, hslots⟩ := Option.map_eq_some_iff.mp (show (exec (restrict App.step
    (OnCall AssignedFromMenu)) (World.start (sampleMatch ["n"]) fun _ => some "n") assignTwice).map
    (fun w => ((slot w.server.database "m" "A0").field "uuid",
      (slot w.server.database "m" "A1").field "uuid")) = some (some "n", some "n")
    from by decide +kernel)
  obtain ⟨hA0, hA1⟩ := Prod.mk.inj hslots
  exact ⟨w, hw, fun h => absurd (h _ _ _ hA0 hA1) (by decide)⟩

/-! ## Lost assignments -/

/-- The slot a tap on the pitch empties. -/
def Request.taps (m : String) : Request → Option String
  | .matchs (.deletePlayerPositionWithMatch m' k) => if m' = m then some k else none
  | _ => none

/-- The request behind a tap. -/
theorem taps_eq_some {m : String} {r : Request} {k : String} :
    r.taps m = some k ↔ r = .matchs (.deletePlayerPositionWithMatch m k) := by
  unfold Request.taps
  split
  · rename_i m' k'
    split_ifs with hm
    · simp [hm]
    · simp [hm]
  · rename_i hne
    simp only [reduceCtorEq, false_iff]
    intro h
    exact hne _ _ h

def Op.taps : Op → Option String
  | .deletePlayerPositionWithMatch _ playerPosition => some playerPosition
  | _ => none

/-- Removals are issued by tapping a player on the pitch. -/
def TappedOnPitch (w : World) (i : ℕ) (op : Op) : Prop :=
  ∀ k ∈ op.taps,
    MatchDetailView.isUserInThisPosition (w.clients i).matchs.selectedMatch k = true

instance (w : World) (i : ℕ) (op : Op) : Decidable (TappedOnPitch w i op) :=
  inferInstanceAs (Decidable (∀ k ∈ op.taps, _))

/-- Whether a request takes the assignment of a player to a slot back: a tap takes back the
assignment of the player it was aimed at, everything else that empties the slot takes back
any. -/
def takesBack (m : String) (fl : Flight) (a : String × String) : Bool :=
  match fl.request.taps m with
  | some k => decide (a.1 = k ∧ fl.issuedIn.shownAt k = some a.2)
  | none => fl.request.vacates m a.1

/-- The assignments to slots of `m` that the server has acknowledged and nobody has taken back. -/
def acknowledged (m : String) :
    List (String × String) → World → Label → List (String × String) :=
  served fun o fl placed =>
    if o.error = none then
      ((fl.request.assigns m).map fun a => (a.1, a.2.uuid.getD "")).toList ++
        placed.filter fun a => !takesBack m fl a
    else placed

/-- When an assignment to a slot of `m` or a tap on it is applied, the match it was issued from was
read from `m`, and since then nobody else has been assigned to the slot: nobody but the player of
the assignment, or whom the match shows to the tap. -/
def SlotUntouched (m : String) (w : TimedWorld) (fl : TimedFlight) (o : Outcome) : Prop :=
  o.error = none →
    (∀ a ∈ fl.request.1.assigns m,
      ∃ x ∈ fl.issuedIn.2, x.request = .matchs (.getMatchWithMatchID m) ∧
        ∀ e ∈ since w.server.2 x.moment, ∀ b ∈ assignedBy m e, b.1 = a.1 → b.2 = a.2.uuid.getD "") ∧
    ∀ k ∈ fl.request.1.taps m,
      ∃ x ∈ fl.issuedIn.2, x.request = .matchs (.getMatchWithMatchID m) ∧
        ∀ e ∈ since w.server.2 x.moment, ∀ b ∈ assignedBy m e, b.1 = k →
          fl.issuedIn.1.shownAt k = some b.2

instance (m : String) (w : TimedWorld) (fl : TimedFlight) (o : Outcome) :
    Decidable (SlotUntouched m w fl o) :=
  inferInstanceAs (Decidable (_ → _ ∧ _))

/-- The menu shows nobody in the slot it offers. -/
theorem shownAt_of_menuOffers {c : Client} {k : String} {player : UserModel}
    (hmenu : c.menuOffers k player) : c.shownAt k = none := by
  have hfree : (MatchDetailView.playerAt c.matchs.selectedMatch k).isSome = false := hmenu.2
  rw [Client.shownAt, Option.isSome_eq_false_iff, Option.isNone_iff_eq_none] at *
  rw [hfree, Option.bind_none]

section Kept

variable {C : TimedWorld → Label → Prop} {m : String} {server : Firebase}
  {sessions : ℕ → Option String} {w : TimedWorld} {fl : TimedFlight} {o : Outcome}
  (hnamed : SlotsNamed server.database m)
  (hrun : Reaches App.timed C (TimedWorld.start server sessions) w) (hfl : fl ∈ w.flights)
  (ho : o.error = none) (huntouched : SlotUntouched m w fl o)
include hnamed hrun hfl ho huntouched

/-- A request that is not an assignment leaves a slot alone, or takes back who is in it. -/
theorem slot_of_not_takesBack {a : String × String}
    (hstored : (slot w.server.1.database m a.1).field "uuid" = some a.2)
    (hassign : fl.request.1.assigns m = none) (hkept : takesBack m fl.untimed a = false) :
    (slot (fl.request.1.serve w.server.1 o).1.database m a.1).field "uuid" = some a.2 := by
  rcases slot_serve w.server.1 fl.request.1 o m a.1 with h | ⟨player, hr, -, -⟩ | ⟨hvacates, -, -⟩
  · rw [h]
    exact hstored
  · rw [assigns_eq_some.mpr hr] at hassign
    cases hassign
  · cases htap : fl.request.1.taps m with
    | none =>
      have hvacates' : takesBack m fl.untimed a = true := by
        simp only [takesBack, Flight.untimed, htap]
        exact hvacates
      rw [hvacates'] at hkept
      cases hkept
    | some k =>
      -- a tap on the slot was aimed at the player it stores, since the match showed him
      have hk : k = a.1 := by
        rw [taps_eq_some.mp htap] at hvacates
        simpa [Request.vacates] using hvacates
      subst hk
      obtain ⟨x, hx, hread, hnone⟩ := (huntouched ho).2 a.1 htap
      have hshown : fl.issuedIn.1.shownAt a.1 = some a.2 := by
        rcases shownAt_or_assigned hnamed hrun hfl hx hread hstored with hshown | ⟨e, he, hassigned⟩
        · exact hshown
        · exact hnone e he _ hassigned rfl
      have hback : takesBack m fl.untimed a = true := by
        simp only [takesBack, Flight.untimed, htap]
        exact decide_eq_true ⟨trivial, hshown⟩
      rw [hback] at hkept
      cases hkept

/-- An assignment from the menu keeps every other one: the slot it writes was free, or stored
the same player. -/
theorem slot_of_assigned {k : String} {player : UserModel} {q : Remote}
    (hr : fl.request.1 = .matchs (.setPlayerPositionWithMatch m k player))
    (hq : fl.request.1.remote = .ok q) (hmenu : fl.issuedIn.1.menuOffers k player)
    {a : String × String} (hstored : (slot w.server.1.database m a.1).field "uuid" = some a.2) :
    (slot (fl.request.1.serve w.server.1 o).1.database m a.1).field "uuid" = some a.2 := by
  by_cases hk : a.1 = k
  · -- the slot written: the menu saw it free, so whom it stores has been assigned since
    obtain ⟨x, hx, hread, hsame⟩ := (huntouched ho).1 (k, player) (assigns_eq_some.mpr hr)
    rw [hk] at hstored
    rcases shownAt_or_assigned hnamed hrun hfl hx hread hstored with hshown | ⟨e, he, hassigned⟩
    · rw [shownAt_of_menuOffers hmenu] at hshown
      cases hshown
    · have hv : a.2 = player.uuid.getD "" := hsame e he (k, a.2) hassigned rfl
      rw [hk, slot_assign hr hq w.server.1 ho, slotValue_uuid, hv]
  · rcases slot_serve w.server.1 fl.request.1 o m a.1 with
      h | ⟨player', hr', -, -⟩ | ⟨hvacates, -, -⟩
    · rw [h]
      exact hstored
    · rw [hr] at hr'
      cases hr'
      exact absurd rfl hk
    · rw [hr] at hvacates
      cases hvacates

end Kept

/-- Along every run of any number of admins who assign from the menu, and in which nobody else is
assigned to a slot between the read of a cached match and an assignment or tap issued from it, every
assignment that was acknowledged and not taken back stands in the database: none is overwritten by
another player's, none is deleted by a tap aimed at another player. -/
theorem no_lost_assignment (m : String) {server : Firebase} {sessions : ℕ → Option String}
    {s : TimedWorld × List (String × String)} (hnamed : SlotsNamed server.database m)
    (hrun : Reaches (record App.timed fun placed w l => acknowledged m placed w.untimed l)
      (fun s l => OnCall AssignedFromMenu s.1.untimed l ∧ OnServe (SlotUntouched m) s.1 l)
      (TimedWorld.start server sessions, []) s) :
    ∀ a ∈ s.2, (slot s.1.server.1.database m a.1).field "uuid" = some a.2 := by
  refine served_invariant_timed (P := App.service)
    (Q := fun server placed => ∀ a ∈ placed,
      (slot server.database m a.1).field "uuid" = some a.2) hrun (by simp) ?_
  intro s n fl o hreach hQ hget hC a ha
  have htimed : Reaches App.timed (fun w l => OnCall AssignedFromMenu w.untimed l)
      (TimedWorld.start server sessions) s.1 := hreach.of_record fun _ _ h => h.1
  have hworld : Reaches App.step (OnCall AssignedFromMenu) (World.start server sessions)
      s.1.untimed := untimed_of_reaches htimed fun _ _ h => h
  have hfl : fl ∈ s.1.flights := List.mem_of_getElem? hget
  have huntouched : SlotUntouched m s.1 fl o := hC.2 fl hget
  show (slot (fl.request.1.serve s.1.server.1 o).1.database m a.1).field "uuid" = some a.2
  cases ho : o.error with
  | some e =>
    rw [ho, if_neg (by simp)] at ha
    rw [serve_failed s.1.server.1 fl.request.1 ho]
    exact hQ a ha
  | none =>
    rw [ho, if_pos rfl, List.mem_append, Option.mem_toList, Option.map_eq_some_iff,
      List.mem_filter] at ha
    obtain ⟨q, hq⟩ := sent_of_reaches hworld _ (mem_untimed hfl)
    replace hq : fl.request.1.remote = .ok q := hq
    rcases ha with ⟨⟨k, player⟩, hassigns, rfl⟩ | ⟨hold, hkept⟩
    · -- the assignment that has just been stored
      replace hassigns : fl.request.1.assigns m = some (k, player) := hassigns
      rw [slot_assign (assigns_eq_some.mp hassigns) hq s.1.server.1 ho, slotValue_uuid]
    · cases hassigns : fl.request.1.assigns m with
      | none =>
        exact slot_of_not_takesBack hnamed htimed hfl ho huntouched (hQ a hold) hassigns
          (by simpa using hkept)
      | some p =>
        have hr := assigns_eq_some.mp hassigns
        have hmenu := menuOffers_of_reaches (fun _ _ h => h) hworld (mem_untimed hfl) hr
        exact slot_of_assigned hnamed htimed hfl ho huntouched hr hq hmenu (hQ a hold)

/-- An admin assigns `n`, sees him after the refresh, assigns `o` and takes `n` back. -/
def assignAndTakeBack : List Label :=
  assignOnce ++ [.deliver 0 fun _ => .byKey] ++ roundTrip 0 {} ++
    [.call 0 (.setPlayerPositionWithMatch "m" "B0" (samplePlayer "o")), .serve 0 {},
      .call 0 (.deletePlayerPositionWithMatch "m" "A0"), .serve 1 {}]

/-- One assignment stands, the other was taken back. -/
theorem no_lost_assignment_taken_back :
    ∃ s, exec (restrict (record App.timed fun placed w l => acknowledged "m" placed w.untimed l)
        fun s l => OnCall AssignedFromMenu s.1.untimed l ∧ OnServe (SlotUntouched "m") s.1 l)
        (TimedWorld.start (sampleMatch ["n", "o"]) fun _ => some "n", []) assignAndTakeBack =
          some s ∧
      s.2 = [("B0", "o")] ∧
      ∀ a ∈ s.2, (slot s.1.server.1.database "m" a.1).field "uuid" = some a.2 := by
  obtain ⟨s, hs, hhist⟩ := Option.map_eq_some_iff.mp (show (exec (restrict (record App.timed
    fun placed w l => acknowledged "m" placed w.untimed l)
    fun s l => OnCall AssignedFromMenu s.1.untimed l ∧ OnServe (SlotUntouched "m") s.1 l)
    (TimedWorld.start (sampleMatch ["n", "o"]) fun _ => some "n", []) assignAndTakeBack).map
    Prod.snd = some [("B0", "o")] from by decide +kernel)
  exact ⟨s, hs, hhist,
    no_lost_assignment "m" (slotsNamed_sampleMatch ["n", "o"]) (reaches_of_exec hs)⟩

/-- Two admins open the screen, and both assign a player to the slot they see free. -/
def assignBoth : List Label :=
  [.call 1 (.openDetail "m")] ++ roundTrip 0 {} ++ assignOnce ++
    [.deliver 0 fun _ => .byKey,
      .call 1 (.setPlayerPositionWithMatch "m" "A0" (samplePlayer "o")), .serve 1 {}]

/-- An acknowledged assignment is overwritten. -/
theorem second_admin_overwrites :
    ∃ s, exec (restrict (record App.step (acknowledged "m"))
        (fun s l => OnCall AssignedFromMenu s.1 l ∧ OnCall TappedOnPitch s.1 l))
        (World.start (sampleMatch ["n", "o"]) fun _ => some "n", []) assignBoth = some s ∧
      ¬ ∀ a ∈ s.2, (slot s.1.server.database "m" a.1).field "uuid" = some a.2 := by
  obtain ⟨s, hs, hlost⟩ := Option.map_eq_some_iff.mp (show (exec (restrict (record App.step
    (acknowledged "m")) (fun s l => OnCall AssignedFromMenu s.1 l ∧ OnCall TappedOnPitch s.1 l))
    (World.start (sampleMatch ["n", "o"]) fun _ => some "n", []) assignBoth).map
    (fun s => decide (∀ a ∈ s.2, (slot s.1.server.database "m" a.1).field "uuid" = some a.2)) =
    some false from by decide +kernel)
  exact ⟨s, hs, of_decide_eq_false hlost⟩

end TifaSoccer
