import TifaSoccer.DocumentTheorems
import TifaSoccer.PitchTheorems
import TifaSoccer.ReadingTheorems
import TifaSoccer.ResolveTheorems

/-!
# The roster of a match

`joinMatches` reads the roster, tests its size and writes the player in a second request. The
test is not repeated when the write is applied, so the capacity of a match holds only along
runs in which other joins have not taken the free places in between (`roster_le_capacity`), and
fails in the run where two players take the last place (`two_joins_overflow`). Each entry of the
roster is written at its own path, so no join or leave is lost (`last_roster_write_wins`).
-/

namespace TifaSoccer

open Async Run

/-! ## Joining players -/

/-- A join writes the record of the user under his own uuid. -/
def JoinsSelf (fl : Flight) : Prop :=
  ∀ m u user, fl.request = .matchs (.joinMatchesRead m u user) ∨
    fl.request = .matchs (.joinMatchesWrite m u user) → user.uuid = some u

/-- The clients issue the joins, so this holds however the server serves. -/
theorem joinsSelf_of_quiet (serve : Firebase → Request → Outcome → Firebase × Answer)
    {C : World → Label → Prop} {w₀ w : World} (h₀ : w₀.flights = [])
    (hrun : Reaches { App.service with serve := serve }.step C w₀ w) :
    ∀ fl ∈ w.flights, JoinsSelf fl := by
  refine flight_invariant (P := { App.service with serve := serve }) hrun h₀ ?_ ?_ ?_
  · intro w i op c rs r _ _ hcall hr m u user heq
    have hissues := (issues_of_call (toOption_eq_some.mp hcall) hr).1
    simp only at heq
    rcases heq with rfl | rfl
    · cases hissues with
      | joinMatches _ _ hu => exact hu
    · cases hissues
  · intro w n o fl _ _ _ _ hJ
    exact hJ
  · intro w n d fl a c rs r _ _ _ hJ _ hcomplete hr m u user heq
    have hissues := (issues_of_complete (toOption_eq_some.mp hcomplete) hr).1
    generalize hreq : fl.request = r₀ at hissues
    simp only at heq
    rcases heq with rfl | rfl
    · cases hissues
    · cases hissues
      exact hJ m u user (.inl hreq)

/-- Along every run a join writes the record of the user. -/
theorem joinsSelf_of_reaches {C : World → Label → Prop} {server : Firebase}
    {sessions : ℕ → Option String} {w : World}
    (hrun : Reaches App.step C (World.start server sessions) w) :
    ∀ fl ∈ w.flights, JoinsSelf fl :=
  joinsSelf_of_quiet (fun s r o => r.serve s o) rfl hrun

/-- The record of a user names him. -/
theorem record_uuid (user : UserModel) :
    Value.field (.object user.asDictionary) "uuid" = user.uuid :=
  field_object user.asDictionary_nodup (by simp [UserModel.asDictionary])

/-- The record of a user with a uuid is stored as an object. -/
theorem record_ne_null {user : UserModel} {u : String} (huuid : user.uuid = some u) :
    (Json.object user.asDictionary : Value) ≠ .null := by
  intro hnull
  have hfield := record_uuid user
  rw [hnull, huuid] at hfield
  cases hfield

/-- A join that is applied puts the user on the roster and takes nobody off it. -/
theorem mem_roster_joined {m u : String} {user : UserModel} {db db' : Value}
    (huuid : user.uuid = some u)
    (hroster : roster db' m = (roster db m).setChild u (.object user.asDictionary)) {v : String}
    (hv : v ∈ (roster db m).keys) : v ∈ (roster db' m).keys := by
  rw [Json.mem_keys_iff] at hv ⊢
  rw [hroster, Json.child_setChild]
  split_ifs
  · exact record_ne_null huuid
  · exact hv

/-! ## Capacity -/

/-- The number of players `joinMatches` tests for. -/
def capacity : ℕ := 14

/-- The uuid under which a request writes a player into the roster of `m`. -/
def Request.joins (m : String) : Request → Option String
  | .matchs (.joinMatchesWrite matchsID currentUserID _) =>
    if matchsID = m then some currentUserID else none
  | _ => none

/-- The request behind a join. -/
theorem joins_eq_some {m u : String} {r : Request} :
    r.joins m = some u ↔ ∃ user, r = .matchs (.joinMatchesWrite m u user) := by
  unfold Request.joins
  split
  · rename_i m' u' user
    split_ifs with hm
    · simp [hm]
    · simp [hm]
  · rename_i hne
    simp only [reduceCtorEq, false_iff]
    rintro ⟨user, rfl⟩
    exact hne _ _ _ rfl

/-- A join of `m` that has been applied. -/
def joined (m : String) (e : Request × Outcome) : Bool :=
  (e.1.joins m).isSome && e.2.error.isNone

/-- When a join is applied, the other joins of `m` that have been applied since its read, if there
are any, have left one of the places which the read has shown free. -/
def LeavesPlace (m : String) (w : TimedWorld) (fl : TimedFlight) (o : Outcome) : Prop :=
  (fl.request.1.joins m).isSome = true → o.error = none → ∀ x ∈ fl.request.2,
    (since w.server.2 x.moment).countP (joined m) = 0 ∨
      x.answer.value.childrenCount + (since w.server.2 x.moment).countP (joined m) < capacity

instance (m : String) (w : TimedWorld) (fl : TimedFlight) (o : Outcome) :
    Decidable (LeavesPlace m w fl o) :=
  inferInstanceAs (Decidable (_ → _ → ∀ x ∈ fl.request.2, _))

/-- The reads of the roster by the joins of `m` that have been answered. -/
def ReadsRoster (m : String) (r : Request) (a : Answer) : Prop :=
  (∃ u user, r = .matchs (.joinMatchesRead m u user)) ∧ a.succeeded = true

/-- A roster grows by the joins that are applied, each by at most one player. -/
theorem childrenCount_serve (m : String) (s : Firebase) (r : Request) (o : Outcome) :
    (roster (r.serve s o).1.database m).childrenCount ≤
      (roster s.database m).childrenCount + [(r, o)].countP (joined m) := by
  cases pitchStep_serve s r o m with
  | joined u user hr ho hroster _ =>
    have hjoined : joined m (r, o) = true := by simp [joined, hr, ho, Request.joins]
    rw [hroster, List.countP_singleton, hjoined, if_pos rfl]
    exact Json.childrenCount_setChild_le _ _ u
  | left u _ _ hroster _ =>
    rw [hroster]
    exact (Json.childrenCount_setChild_null_le _ u).trans (Nat.le_add_right _ _)
  | dropped _ _ hroster _ =>
    rw [hroster]
    exact Nat.zero_le _
  | unchanged hroster _ | assigned _ _ _ _ hroster _ | cleared _ _ _ hroster _ =>
    rw [hroster]
    exact Nat.le_add_right _ _

/-- What a join reads is the roster, and the read changes nothing. -/
theorem roster_of_read {m : String} {s : Firebase} {r : Request} {o : Outcome}
    (h : ReadsRoster m r (r.serve s o).2) :
    (r.serve s o).2.value = roster s.database m ∧
      roster (r.serve s o).1.database m = roster s.database m := by
  obtain ⟨⟨u, user, rfl⟩, hsucceeded⟩ := h
  have hremote : ∀ q, (Request.matchs (.joinMatchesRead m u user)).remote = .ok q →
      q = .getData ["Matchs", m, "players"] :=
    fun q hq => ((joinMatchesRead_eq_ok m u user).mp hq).2.symm
  constructor
  · rcases answer_of_getData hremote s o with hsnapshot | ⟨⟨e, he⟩, -⟩
    · rw [hsnapshot]
      rfl
    · rw [he] at hsucceeded
      cases hsucceeded
  · rcases matchNode_serve s (.matchs (.joinMatchesRead m u user)) o m with hsame | ⟨_, _, _, hw, _⟩
    · rw [roster, hsame, roster]
    · cases hw

/-- The roster has grown since a read by at most the joins applied since. -/
theorem childrenCount_since {C : TimedWorld → Label → Prop} {server : Firebase}
    {sessions : ℕ → Option String} {w : TimedWorld} {m : String}
    (hrun : Reaches App.timed C (TimedWorld.start server sessions) w) {x : Reading Request Answer}
    (hx : w.Holds x) (hreads : ReadsRoster m x.request x.answer) :
    (roster w.server.1.database m).childrenCount ≤
      x.answer.value.childrenCount + (since w.server.2 x.moment).countP (joined m) := by
  refine grown_since (P := App.service) (fun s => (roster s.database m).childrenCount) (joined m)
    (ReadsRoster m) (fun a => a.value.childrenCount) (childrenCount_serve m) ?_ hrun hx hreads
  intro s r o h
  obtain ⟨hvalue, hsame⟩ := roster_of_read h
  exact le_of_eq (congrArg Json.childrenCount (hsame.trans hvalue.symm))

/-- The write of a join is issued on a read of the roster that has not found fourteen players. -/
theorem read_of_join {C : TimedWorld → Label → Prop} {server : Firebase}
    {sessions : ℕ → Option String} {w : TimedWorld}
    (hrun : Reaches App.timed C (TimedWorld.start server sessions) w) {fl : TimedFlight}
    (hfl : fl ∈ w.flights) {m u : String} (hjoins : fl.request.1.joins m = some u) :
    ∃ x, fl.request.2 = some x ∧ ReadsRoster m x.request x.answer ∧
      x.answer.value.childrenCount ≠ capacity := by
  revert hjoins
  refine flight_invariant (P := App.service.timed Request.storesMatch)
    (J := fun fl => fl.request.1.joins m = some u → ∃ x, fl.request.2 = some x ∧
      ReadsRoster m x.request x.answer ∧ x.answer.value.childrenCount ≠ capacity) hrun rfl
    ?_ ?_ ?_ fl hfl
  · -- no call issues the write of a join
    intro w i op c rs r _ _ hcall hr hjoins
    obtain ⟨rs₁, hcalled, -, rfl⟩ := timed_call hcall
    obtain ⟨r', hr', rfl⟩ := List.mem_map.mp hr
    obtain ⟨user, rfl⟩ := joins_eq_some.mp hjoins
    have hissues := (issues_of_call (toOption_eq_some.mp hcalled) hr').1
    cases hissues
  · intro w n o fl _ _ _ _ hJ
    exact hJ
  · intro w n orders fl a c rs r _ _ _ _ _ hcomplete hr hjoins
    obtain ⟨rs₁, hcompleted, -, rfl⟩ := timed_complete hcomplete
    obtain ⟨r', hr', rfl⟩ := List.mem_map.mp hr
    obtain ⟨user, rfl⟩ := joins_eq_some.mp hjoins
    have hissues := (issues_of_complete (toOption_eq_some.mp hcompleted) hr').1
    refine ⟨_, rfl, ?_⟩
    generalize fl.request.1 = r₀ at hissues ⊢
    generalize a.1 = a₀ at hissues ⊢
    cases hissues with
    | joinWrite _ _ _ ha hcount => exact ⟨⟨⟨u, user, rfl⟩, succeeded_iff.mpr ha⟩, hcount⟩

/-- Along every run of any number of clients in which the joins of `m` that are applied between
the read of a join and its write leave one of the free places, the roster of `m` never has more
than 14 players. -/
theorem roster_le_capacity (m : String) {server : Firebase} {sessions : ℕ → Option String}
    {w : TimedWorld} (h₀ : (roster server.database m).childrenCount ≤ capacity)
    (hrun : Reaches App.timed (OnServe (LeavesPlace m)) (TimedWorld.start server sessions) w) :
    (roster w.server.1.database m).childrenCount ≤ capacity := by
  have hbound : (roster w.server.1.database m).childrenCount ≤ capacity ∧ ∀ x, w.Holds x →
      ReadsRoster m x.request x.answer → x.answer.value.childrenCount ≤ capacity := by
    refine hrun.invariant (I := fun w => (roster w.server.1.database m).childrenCount ≤ capacity ∧
      ∀ x, w.Holds x → ReadsRoster m x.request x.answer →
        x.answer.value.childrenCount ≤ capacity) ?_ ?_
    · exact ⟨h₀, fun x hx => absurd hx not_holds_timed⟩
    · intro w l w' hreach hI hC hstep
      constructor
      · rcases server_of_step hstep with ⟨hsame, -⟩ | ⟨n, o, fl, rfl, hget, -, hserver⟩
        · rw [hsame]
          exact hI.1
        · replace hserver : w'.server.1 = (fl.request.1.serve w.server.1 o).1 :=
            congrArg Prod.fst hserver
          rw [hserver]
          have hgrow := childrenCount_serve m w.server.1 fl.request.1 o
          rw [List.countP_singleton] at hgrow
          cases hjoined : joined m (fl.request.1, o) with
          | false =>
            rw [hjoined, if_neg (by simp)] at hgrow
            exact hgrow.trans hI.1
          | true =>
            rw [hjoined, if_pos rfl] at hgrow
            simp only [joined, Bool.and_eq_true, Option.isNone_iff_eq_none] at hjoined
            obtain ⟨u, hu⟩ := Option.isSome_iff_exists.mp hjoined.1
            have hfl := List.mem_of_getElem? hget
            obtain ⟨x, hx, hreads, hfree⟩ := read_of_join hreach hfl hu
            -- what the read has shown, and what has come since
            have hnow := childrenCount_since hreach (.caused hfl hx) hreads
            have hread := hI.2 x (.caused hfl hx) hreads
            have hroom := hC fl hget hjoined.1 hjoined.2 x hx
            have hbefore := hI.1
            omega
      · intro x hx hreads
        rcases holds_of_step hstep hx with hx | ⟨n, o, fl, rfl, hget, -, rfl⟩
        · exact hI.2 x hx hreads
        · show (fl.request.1.serve w.server.1 o).2.value.childrenCount ≤ capacity
          rw [(roster_of_read hreads).1]
          exact hI.1
  exact hbound.1

/-- A match with thirteen players. -/
def thirteenPlayers : Firebase :=
  sampleMatch ["a", "b", "c", "d", "e", "f", "g", "h", "i", "j", "k", "l", "m"]

/-- `n` takes the last place, and `o` finds the roster full. -/
def joinLast : List Label :=
  [.call 0 (.joinMatches "m" (samplePlayer "n"))] ++ roundTrip 0 {} ++
    [.serve 0 {}, .call 1 (.joinMatches "m" (samplePlayer "o"))] ++ roundTrip 1 {}

/-- The last place is taken, and the next player turned away. -/
theorem roster_le_capacity_last_place :
    ∃ w, exec (restrict App.timed (OnServe (LeavesPlace "m")))
        (TimedWorld.start thirteenPlayers fun _ => none) joinLast = some w ∧
      (w.clients 1).1.matchs.showAlert = true ∧
      (roster w.server.1.database "m").childrenCount ≤ capacity := by
  obtain ⟨w, hw, halert⟩ := Option.map_eq_some_iff.mp (show (exec (restrict App.timed
    (OnServe (LeavesPlace "m"))) (TimedWorld.start thirteenPlayers fun _ => none) joinLast).map
    (fun w => (w.clients 1).1.matchs.showAlert) = some true from by decide +kernel)
  exact ⟨w, hw, halert, roster_le_capacity "m" (by decide +kernel) (reaches_of_exec hw)⟩

/-- `n` and `o` both read the roster before either writes. -/
def joinBoth : List Label :=
  [.call 0 (.joinMatches "m" (samplePlayer "n")), .call 1 (.joinMatches "m" (samplePlayer "o")),
    .serve 0 {}, .serve 1 {}, .deliver 0 fun _ => .byKey, .deliver 0 fun _ => .byKey,
    .serve 0 {}, .serve 1 {}]

/-- Two clients read a roster of thirteen, both find it not full, and both write. -/
theorem two_joins_overflow :
    (roster thirteenPlayers.database "m").childrenCount ≤ capacity ∧
      (exec App.step (World.start thirteenPlayers fun _ => none) joinBoth).map
        (fun w => (roster w.server.database "m").childrenCount) = some 15 := by
  decide +kernel

/-! ## The last write of an entry -/

/-- A write of one entry of a roster. -/
inductive RosterWrite where
  | join (user : UserModel)
  | leave
deriving DecidableEq

/-- What a write leaves at the entry. -/
def RosterWrite.record : RosterWrite → Value
  | .join user => .object user.asDictionary
  | .leave => .null

/-- What a request writes at the entry of `u` in the roster of `m`. -/
def Request.writesEntry (m u : String) : Request → Option RosterWrite
  | .matchs (.joinMatchesWrite m' u' user) => if m' = m ∧ u' = u then some (.join user) else none
  | .matchs (.leaveMatches m' u') => if m' = m ∧ u' = u then some .leave else none
  | _ => none

/-- The last write of the entry of `u` the server has applied. -/
def lastEntryWrite (m u : String) : Option RosterWrite → World → Label → Option RosterWrite :=
  served fun o fl last => if o.error = none then (fl.request.writesEntry m u).or last else last

/-- The match is not deleted, and its id is fresh when it is created. -/
def SparesMatch (m : String) (w : World) (fl : Flight) (o : Outcome) : Prop :=
  o.error = none → fl.request.deletes ≠ some m ∧
    (fl.request.creates = some m → (matchNode w.server.database m).isNull = true)

instance (m : String) (w : World) (fl : Flight) (o : Outcome) : Decidable (SparesMatch m w fl o) :=
  inferInstanceAs (Decidable (_ → _))

/-- The requests behind the writes of an entry. -/
theorem writesEntry_eq_some {m u : String} {r : Request} {write : RosterWrite}
    (h : r.writesEntry m u = some write) :
    (∃ user, write = .join user ∧ r = .matchs (.joinMatchesWrite m u user)) ∨
      write = .leave ∧ r = .matchs (.leaveMatches m u) := by
  unfold Request.writesEntry at h
  split at h
  · split_ifs at h with heq
    cases h
    exact .inl ⟨_, rfl, by rw [heq.1, heq.2]⟩
  · split_ifs at h with heq
    cases h
    exact .inr ⟨rfl, by rw [heq.1, heq.2]⟩
  · cases h

/-- The uid below which a request writes into a roster. -/
def Request.rosterUser : Request → Option String
  | .matchs (.joinMatchesWrite _ currentUserID _) => some currentUserID
  | .matchs (.leaveMatches _ currentUserID) => some currentUserID
  | _ => none

/-- The ids in a request for the roster of a match, that of the match and the uid, have no slash. -/
def UnsplitEntry (w : World) (fl : Flight) (o : Outcome) : Prop :=
  UnsplitMatch w fl o ∧ ∀ u ∈ fl.request.rosterUser, '/' ∉ u.toList

instance (w : World) (fl : Flight) (o : Outcome) : Decidable (UnsplitEntry w fl o) :=
  inferInstanceAs (Decidable (UnsplitMatch w fl o ∧ ∀ u ∈ fl.request.rosterUser, _))

/-- An entry of a roster is a child of it when its uid has no slash. -/
theorem roster_set_entry {doc : Value} {u : String} (hu : u ≠ "") (hslash : '/' ∉ u.toList)
    (v : Value) :
    (doc.set (["players", u].flatMap pathComponents) v).child "players" =
      (doc.child "players").setChild u v := by
  rw [flatMap_pathComponents_cons (by decide) (by decide), flatMap_pathComponents_cons hu hslash]
  simp

/-- A write of an entry that does not fail is applied. -/
theorem entry_of_write {m u : String} {w : World} {fl : Flight} {write : RosterWrite} {q : Remote}
    (hr : fl.request.writesEntry m u = some write) (hq : fl.request.remote = .ok q) {o : Outcome}
    (hplain : UnsplitEntry w fl o) (ho : o.error = none) (s : Firebase) :
    (roster (fl.request.serveResolved s o).1.database m).child u = write.record := by
  have hw : MatchWrite m fl.request ["players", u] write.record := by
    rcases writesEntry_eq_some hr with ⟨user, rfl, hreq⟩ | ⟨rfl, hreq⟩
    · rw [hreq]
      exact .join u user
    · rw [hreq]
      exact .leave u
  have huser : fl.request.rosterUser = some u := by
    rcases writesEntry_eq_some hr with ⟨user, -, hreq⟩ | ⟨-, hreq⟩ <;> rw [hreq] <;> rfl
  obtain ⟨hm, hp, -⟩ := hw.remote_eq_ok.mp hq
  rw [roster, matchNode_writeResolved hw hm (hplain.1 m hw.matchID) hp s ho,
    roster_set_entry (fun hu => hp (by simp [hu])) (hplain.2 u huser)]
  simp

/-- Nothing else touches the entry. -/
theorem entry_of_other {m u : String} {w : World} {fl : Flight} {o : Outcome}
    (hr : fl.request.writesEntry m u = none) (hcond : SparesMatch m w fl o)
    (hplain : UnsplitEntry w fl o) :
    (roster (fl.request.serveResolved w.server o).1.database m).child u =
      (roster w.server.database m).child u := by
  rcases matchNode_serveResolved hplain.1 w.server o m with h | ⟨p, v, ho, hw, hpath, h⟩
  · rw [roster, h, roster]
  · rw [roster, h]
    obtain ⟨hkept, hfresh⟩ := hcond ho
    obtain ⟨i, r, cause, c, a⟩ := fl
    simp only at hw hr hkept hfresh
    cases hw with
    | join u' user =>
      have hne : u ≠ u' := by
        rintro rfl
        simp [Request.writesEntry] at hr
      rw [roster_set_entry (fun hu => hpath.2 (by simp [hu])) (hplain.2 u' rfl),
        Json.child_setChild, if_neg hne, roster]
    | leave u' =>
      have hne : u ≠ u' := by
        rintro rfl
        simp [Request.writesEntry] at hr
      rw [roster_set_entry (fun hu => hpath.2 (by simp [hu])) (hplain.2 u' rfl),
        Json.child_setChild, if_neg hne, roster]
    | clearSlot k | assign k player | unassign k | planning b | comment key comment uuid date =>
      rw [flatMap_pathComponents_cons (by decide) (by decide)]
      simp [roster]
    | delete => exact absurd rfl hkept
    | create adminMessage footballArea startDate finishDate =>
      -- a new match has an empty roster, and there was none before
      rw [roster, Json.isNull_iff.mp (hfresh rfl)]
      simp [Json.object, CreateMatchViewModel.matchParams]

/-- The entry is what the last write left, or what it was at the start. -/
def EntryRecorded (m u : String) (db₀ : Value) (s : Firebase) (last : Option RosterWrite) : Prop :=
  (∀ write ∈ last, (∀ user, write = .join user → user.uuid = some u) ∧
      (roster s.database m).child u = write.record) ∧
    (last = none → (roster s.database m).child u = (roster db₀ m).child u)

/-- Along every run of any number of clients in which `m` is not deleted, and in which the ids in
the requests for a roster have no slash, the entry of `u` in the roster of `m` is decided by the
last join or leave of `u` that was applied: he is on the roster exactly when it was a join, with the
record that join wrote. Without one the entry is as at the start. -/
theorem last_roster_write_wins (m u : String) {server : Firebase} {sessions : ℕ → Option String}
    {s : World × Option RosterWrite}
    (hrun : Reaches (record App.resolvingService.step (lastEntryWrite m u))
      (fun s l => OnServe (SparesMatch m) s.1 l ∧ OnServe UnsplitEntry s.1 l)
      (World.start server sessions, none) s) :
    (∀ write ∈ s.2, (u ∈ (roster s.1.server.database m).keys ↔ ∃ user, write = .join user) ∧
      (roster s.1.server.database m).child u = write.record) ∧
      (s.2 = none →
        (roster s.1.server.database m).child u = (roster server.database m).child u) := by
  have hrecorded : EntryRecorded m u server.database s.1.server s.2 := by
    refine served_invariant (P := App.resolvingService)
      (Q := EntryRecorded m u server.database) hrun ⟨by simp, fun _ => rfl⟩ ?_
    intro s n fl o hreach hQ hget hC
    have hworld : Reaches App.resolvingService.step (OnServe (SparesMatch m))
        (World.start server sessions) s.1 := hreach.of_record fun _ _ h => h.1
    have hfl : fl ∈ s.1.flights := List.mem_of_getElem? hget
    show EntryRecorded m u server.database (fl.request.serveResolved s.1.server o).1 _
    cases ho : o.error with
    | some e =>
      rw [serveResolved_failed s.1.server fl.request ho, if_neg (by simp)]
      exact hQ
    | none =>
      rw [if_pos rfl]
      cases hwrite : fl.request.writesEntry m u with
      | none =>
        unfold EntryRecorded
        rw [entry_of_other hwrite (hC.1 fl hget) (hC.2 fl hget), Option.none_or]
        exact hQ
      | some write =>
        rw [Option.some_or]
        obtain ⟨q, hq⟩ := sent_of_quiet _ rfl hworld fl hfl
        refine ⟨?_, by simp⟩
        rintro _ ⟨⟩
        refine ⟨fun user huser => ?_,
          entry_of_write hwrite hq (hC.2 fl hget) ho s.1.server⟩
        rcases writesEntry_eq_some hwrite with ⟨user', rfl, hr⟩ | ⟨rfl, -⟩
        · cases huser
          exact joinsSelf_of_quiet _ rfl hworld fl hfl m u user (.inr hr)
        · cases huser
  refine ⟨fun write hwrite => ?_, hrecorded.2⟩
  obtain ⟨hself, hentry⟩ := hrecorded.1 write hwrite
  refine ⟨?_, hentry⟩
  rw [Json.mem_keys_iff, hentry]
  cases write with
  | join user => exact ⟨fun _ => ⟨user, rfl⟩, fun _ => record_ne_null (hself user rfl)⟩
  | leave => simp [RosterWrite.record]

/-- `n` joins, leaves while `o` joins, and joins again. -/
def joinedAgain : List Label :=
  [.call 0 (.joinMatches "m" (samplePlayer "n"))] ++ roundTrip 0 {} ++ roundTrip 0 {} ++
    roundTrip 0 {} ++
    [.call 0 (.leaveMatches "m"), .call 1 (.joinMatches "m" (samplePlayer "o")), .serve 0 {}] ++
    roundTrip 1 {} ++ [.serve 1 {}, .call 0 (.joinMatches "m" (samplePlayer "n"))] ++
    roundTrip 2 {} ++ [.serve 2 {}]

/-- A player joins, leaves and joins again. -/
theorem last_roster_write_wins_joined_again :
    ∃ s, exec (restrict (record App.resolvingService.step (lastEntryWrite "m" "n"))
        (fun s l => OnServe (SparesMatch "m") s.1 l ∧ OnServe UnsplitEntry s.1 l))
        (World.start (sampleMatch ["o"]) fun _ => some "n", none) joinedAgain = some s ∧
      "n" ∈ (roster s.1.server.database "m").keys ∧
      (roster s.1.server.database "m").child "n" = .object (samplePlayer "n").asDictionary := by
  obtain ⟨s, hs, hlast⟩ := Option.map_eq_some_iff.mp (show (exec (restrict (record
    App.resolvingService.step (lastEntryWrite "m" "n"))
    (fun s l => OnServe (SparesMatch "m") s.1 l ∧ OnServe UnsplitEntry s.1 l))
    (World.start (sampleMatch ["o"]) fun _ => some "n", none) joinedAgain).map Prod.snd =
    some (some (.join (samplePlayer "n"))) from by decide +kernel)
  obtain ⟨hjoined, hrecord⟩ := (last_roster_write_wins "m" "n" (reaches_of_exec hs)).1 _ hlast
  exact ⟨s, hs, hjoined.mpr ⟨_, rfl⟩, hrecord⟩

end TifaSoccer
