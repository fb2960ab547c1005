import TifaSoccer.AloneTheorems
import TifaSoccer.GhostTheorems
import TifaSoccer.ResolveTheorems

/-!
# The effect of one operation

What an operation leaves in the database when it runs to its end and nobody interferes: a leave
takes the user off the match completely when he stands in at most one slot, a join is refused by
a roster of exactly 14, and a join or an assignment is taken back by its counterpart.
-/

namespace TifaSoccer

open Async Run

/-- The node at `p` is replaced by `v` and every node beside it is as before. -/
def Replaced (db db' : Value) (p : List String) (v : Value) : Prop :=
  db'.get p = v ∧ ∀ q, Json.Diverge p q → db'.get q = db.get q

/-- A write replaces what is at its path, and nothing else. -/
theorem replaced_set (db : Value) (p : List String) (v : Value) : Replaced db (db.set p v) p v :=
  ⟨Json.get_set_self db v p, fun _ hq => Json.get_set_of_diverge db v hq⟩

section After

variable (w : World) (i : ℕ) (database : Value) (vm : MatchsViewModel)

/-- The database after an operation. -/
@[simp] theorem after_database : (w.after i database vm).server.database = database := rfl

/-- The client after an operation. -/
@[simp] theorem after_client :
    (w.after i database vm).clients i = { w.clients i with matchs := vm } := by
  simp [World.after]

end After

/-! ## Leaving -/

/-- The user is off the roster and off the pitch of `m`, and all else is as before. -/
structure LeftCompletely (db db' : Value) (m u : String) : Prop where
  roster : u ∉ (roster db' m).keys
  pitch : ∀ k, (slot db' m k).field "uuid" ≠ some u
  rest : ∀ q, Json.Diverge ["Matchs", m, "players", u] q →
    (∀ k, (slot db m k).field "uuid" = some u → Json.Diverge ["Matchs", m, "Positions", k] q) →
    db'.get q = db.get q

/-- No slot without a name is ever written. -/
theorem slot_unnamed_of_reaches {C : World → Label → Prop} {server : Firebase}
    {sessions : ℕ → Option String} {w : World} (m : String) (h₀ : slot server.database m "" = .null)
    (hrun : Reaches App.step C (World.start server sessions) w) :
    slot w.server.database m "" = .null := by
  refine server_invariant (P := App.service) (I := fun s => slot s.database m "" = .null) hrun h₀ ?_
  intro w n fl o hreach hI hget _
  show slot (fl.request.serve w.server o).1.database m "" = .null
  rcases slot_serve w.server fl.request o m "" with hslot | ⟨player, hr, -, -⟩ | ⟨-, -, hslot⟩
  · rw [hslot, hI]
  · -- the reference of an assignment to such a slot cannot be built
    obtain ⟨q, hq⟩ := sent_of_reaches hreach fl (List.mem_of_getElem? hget)
    rw [hr] at hq
    obtain ⟨-, hpath, -⟩ := (MatchWrite.assign "" player).remote_eq_ok.mp hq
    exact absurd (by simp) hpath
  · exact hslot

/-- Leaving the roster changes no slot. -/
theorem slot_leftRoster (db : Value) (m u k : String) :
    slot (leftRoster db m u) m k = slot db m k := by
  rw [slot, positions, leftRoster, matchNode_set_match, if_pos rfl]
  simp [slot, positions]

/-- Leaving a slot empties this slot. -/
theorem slot_leftSlot (db : Value) (m u k k' : String) :
    slot (leftSlot db m u k) m k' = if k' = k then .null else slot db m k' := by
  rw [slot, positions, leftSlot, matchNode_set_match, if_pos rfl]
  simp only [Json.set_cons, Json.set_nil, Json.child_setChild, if_true]
  rw [show ((matchNode (leftRoster db m u) m).child "Positions").child k' = slot db m k' from
    slot_leftRoster db m u k']

/-- After leaving the roster the player is not in it. -/
theorem roster_leftRoster (db : Value) (m u : String) :
    u ∉ (roster (leftRoster db m u) m).keys := by
  rw [Json.mem_keys_iff, not_not, roster, leftRoster, matchNode_set_match, if_pos rfl]
  simp

/-- Leaving a slot does not change the roster any more. -/
theorem roster_leftSlot (db : Value) (m u k : String) :
    roster (leftSlot db m u k) m = roster (leftRoster db m u) m := by
  rw [roster, leftSlot, matchNode_set_match, if_pos rfl]
  simp [roster]

/-- The user stands in at most one slot. -/
theorem length_slotsOf_le_one {db : Value} {m u : String} :
    (slotsOf db m u).length ≤ 1 ↔ ∀ k k', (slot db m k).field "uuid" = some u →
      (slot db m k').field "uuid" = some u → k = k' := by
  have hnodup : (slotsOf db m u).Nodup := (Json.keys_nodup _).filter _
  simp only [← mem_slotsOf]
  generalize slotsOf db m u = ks at hnodup
  constructor
  · intro hlen k k' hk hk'
    match ks, hlen with
    | [x], _ => rw [List.mem_singleton.mp hk, List.mem_singleton.mp hk']
  · intro hsame
    match ks with
    | [] => exact Nat.zero_le _
    | [x] => exact le_refl _
    | x :: y :: ks =>
      have hxy : x = y := hsame x y (by simp) (by simp)
      simp [hxy] at hnodup

section Leave

variable {db : Value} {m u : String} (hnamed : SlotsNamed db m) (hunnamed : slot db m "" = .null)
include hnamed

/-- The slots keep their names. -/
theorem slotsNamed_leftRoster : SlotsNamed (leftRoster db m u) m := by
  intro k
  rw [slot_leftRoster]
  exact hnamed k

/-- The search of `leaveMatches` finds a slot of the player, or there is none. -/
theorem positionOfUser_leftRoster (hu : u ≠ "") (order : DictOrder) :
    (MatchsViewModel.positionOfUser order u (matchNode (leftRoster db m u) m) = none ∧
      ∀ k, (slot db m k).field "uuid" ≠ some u) ∨
    ∃ p k, MatchsViewModel.positionOfUser order u (matchNode (leftRoster db m u) m) = some p ∧
      p.positionForMatch = some k ∧ (slot db m k).field "uuid" = some u := by
  have h := positionOfUser_cases (slotsNamed_leftRoster hnamed (u := u)) hu order
  simp only [slot_leftRoster] at h
  exact h

include hunnamed

/-- A leave alone ends with the user off the roster and, where he stood on the pitch, out of one
of his slots. -/
theorem leave_alone_of_named {w : World} {i : ℕ} (hw : w.server.database = db) (hm : m ≠ "")
    (hu : u ≠ "") (huser : (w.clients i).currentUser = some u) :
    (∀ w', RunsAlone App.service Outcome.succeeds i (.leaveMatches m) w w' →
      (w'.server.database = leftRoster db m u ∧ ∀ k, (slot db m k).field "uuid" ≠ some u) ∨
      ∃ k, (slot db m k).field "uuid" = some u ∧ w'.server.database = leftSlot db m u k) ∧
    ∃ w', RunsAlone App.service Outcome.succeeds i (.leaveMatches m) w w' := by
  subst hw
  simp only [leave_alone hm hu huser]
  constructor
  · rintro w' ⟨order, orders, ⟨hnone, rfl⟩ | ⟨p, hp, -, rfl⟩⟩
    · rcases positionOfUser_leftRoster hnamed hu order with ⟨-, hnobody⟩ | ⟨p, k, hp, -⟩
      · exact .inl ⟨rfl, hnobody⟩
      · rw [hnone] at hp
        cases hp
    · rcases positionOfUser_leftRoster hnamed hu order with ⟨hnone, -⟩ | ⟨p', k, hp', hk, huuid⟩
      · rw [hnone] at hp
        cases hp
      · rw [hp] at hp'
        cases hp'
        rw [hk]
        exact .inr ⟨k, huuid, rfl⟩
  · rcases positionOfUser_leftRoster hnamed hu .byKey with ⟨hnone, -⟩ | ⟨p, k, hp, hk, huuid⟩
    · exact ⟨_, .byKey, fun _ => .byKey, .inl ⟨hnone, rfl⟩⟩
    · refine ⟨_, .byKey, fun _ => .byKey, .inr ⟨p, hp, ?_, rfl⟩⟩
      rw [hk, Option.getD_some]
      rintro rfl
      rw [hunnamed] at huuid
      cases huuid

/-- A leave alone is complete exactly when the user stands in at most one slot. -/
theorem leftCompletely_iff {w : World} {i : ℕ} (hw : w.server.database = db) (hm : m ≠ "")
    (hu : u ≠ "") (huser : (w.clients i).currentUser = some u) :
    EndsIn App.service Outcome.succeeds i [.leaveMatches m] w
        (fun w' => LeftCompletely db w'.server.database m u) ↔ (slotsOf db m u).length ≤ 1 := by
  obtain ⟨hleave, hends⟩ := leave_alone_of_named hnamed hunnamed hw hm hu huser
  rw [endsIn_singleton, length_slotsOf_le_one]
  constructor
  · rintro ⟨⟨w', hw'⟩, hcomplete⟩ k k' hk hk'
    -- one slot at most has been emptied, so one of two would still show him
    have hpitch := (hcomplete w' hw').pitch
    rcases hleave w' hw' with ⟨-, hnobody⟩ | ⟨k₀, -, hdb⟩
    · exact absurd hk (hnobody k)
    · rw [hdb] at hpitch
      have hemptied : ∀ k, (slot db m k).field "uuid" = some u → k = k₀ := by
        intro k hk
        by_contra hne
        have hstill := hpitch k
        rw [slot_leftSlot, if_neg hne] at hstill
        exact hstill hk
      rw [hemptied k hk, hemptied k' hk']
  · intro hone
    refine ⟨hends, fun w' hw' => ?_⟩
    rcases hleave w' hw' with ⟨hdb, hnobody⟩ | ⟨k₀, hk₀, hdb⟩
    · rw [hdb]
      refine ⟨roster_leftRoster _ m u, fun k => ?_, fun q hq _ => ?_⟩
      · rw [slot_leftRoster]
        exact hnobody k
      · exact Json.get_set_of_diverge _ _ hq
    · rw [hdb]
      refine ⟨?_, fun k => ?_, fun q hq hslots => ?_⟩
      · rw [roster_leftSlot]
        exact roster_leftRoster _ m u
      · rw [slot_leftSlot]
        split_ifs with hk
        · simp
        · intro hother
          exact hk (hone k k₀ hother hk₀)
      · rw [leftSlot, Json.get_set_of_diverge _ _ (hslots k₀ hk₀)]
        exact Json.get_set_of_diverge _ _ hq

end Leave

/-- In every state any interleaving of the clients' operations reaches from an empty database: a
leave of the signed-in user, run to its end alone and without failures, takes him off the match
completely if and only if he stands in at most one slot. -/
theorem leave_complete_iff {C : World → Label → Prop} {accounts : List Account}
    {sessions : ℕ → Option String} {w : World}
    (hrun : Reaches App.step C (World.start ⟨.null, accounts⟩ sessions) w) {i : ℕ} {m u : String}
    (hm : m ≠ "") (hu : u ≠ "") (huser : (w.clients i).currentUser = some u) :
    EndsIn App.service Outcome.succeeds i [.leaveMatches m] w
        (fun w' => LeftCompletely w.server.database w'.server.database m u) ↔
      (slotsOf w.server.database m u).length ≤ 1 := by
  have hnamed : SlotsNamed w.server.database m :=
    slotsNamed_of_reaches (fun _ hk => absurd rfl hk) hrun
  have hunnamed : slot w.server.database m "" = .null := slot_unnamed_of_reaches m rfl hrun
  exact leftCompletely_iff hnamed hunnamed rfl hm hu huser

/-- A match is created, `n` joins, and an admin opens it and puts `n` on the pitch; the refresh
of his screen is still on its way. -/
def placedOnce : List Label :=
  [.call 1 (.createMatch "m" "message" "area" 0 1)] ++ roundTrip 0 {} ++
    [.call 0 (.joinMatches "m" (samplePlayer "n"))] ++ roundTrip 0 {} ++ roundTrip 0 {} ++
    roundTrip 0 {} ++ [.call 1 (.openDetail "m")] ++ roundTrip 0 {} ++
    [.call 1 (.setPlayerPositionWithMatch "m" "A0" (samplePlayer "n"))] ++ roundTrip 0 {}

/-- A player who is placed once leaves completely. -/
theorem leave_complete_placed_once :
    ∃ w, exec (restrict App.step (OnCall AssignedFromMenu))
        (World.start ⟨.null, []⟩ leaverAndAdmin) placedOnce = some w ∧
      (slot w.server.database "m" "A0").field "uuid" = some "n" ∧
      EndsIn App.service Outcome.succeeds 0 [.leaveMatches "m"] w
        (fun w' => LeftCompletely w.server.database w'.server.database "m" "n") := by
  obtain ⟨w, hw, hend⟩ := Option.map_eq_some_iff.mp (show (exec (restrict App.step
    (OnCall AssignedFromMenu)) (World.start ⟨.null, []⟩ leaverAndAdmin) placedOnce).map
    (fun w => ((slot w.server.database "m" "A0").field "uuid", (w.clients 0).currentUser,
      decide ((slotsOf w.server.database "m" "n").length ≤ 1))) =
    some (some "n", some "n", true) from by decide +kernel)
  simp only [Prod.mk.injEq, decide_eq_true_eq] at hend
  obtain ⟨hslot, huser, hone⟩ := hend
  refine ⟨w, hw, hslot, ?_⟩
  exact (leave_complete_iff (reaches_of_exec hw) (by decide) (by decide) huser).mpr hone

/-- The admin uses the menu once more before the refresh has come. -/
def placedTwice : List Label :=
  placedOnce ++ [.call 1 (.setPlayerPositionWithMatch "m" "A1" (samplePlayer "n")), .serve 1 {}]

/-- A player who is placed twice does not. -/
theorem leave_misses_second_slot :
    ∃ w, exec (restrict App.step (OnCall AssignedFromMenu))
        (World.start ⟨.null, []⟩ leaverAndAdmin) placedTwice = some w ∧
      ¬ EndsIn App.service Outcome.succeeds 0 [.leaveMatches "m"] w
        (fun w' => LeftCompletely w.server.database w'.server.database "m" "n") := by
  obtain ⟨w, hw, hend⟩ := Option.map_eq_some_iff.mp (show (exec (restrict App.step
    (OnCall AssignedFromMenu)) (World.start ⟨.null, []⟩ leaverAndAdmin) placedTwice).map
    (fun w => ((w.clients 0).currentUser,
      decide ((slotsOf w.server.database "m" "n").length ≤ 1))) =
    some (some "n", false) from by decide +kernel)
  simp only [Prod.mk.injEq, decide_eq_false_iff_not] at hend
  obtain ⟨huser, htwo⟩ := hend
  have hrun := reaches_of_exec hw
  refine ⟨w, hw, fun hcomplete => htwo ?_⟩
  exact (leftCompletely_iff (slotsNamed_of_reaches (fun _ hk => absurd rfl hk) hrun)
    (slot_unnamed_of_reaches "m" rfl hrun) rfl (by decide) (by decide) huser).mp hcomplete

/-! ## Joining -/

/-- The loop over the matches shows no alert. -/
theorem showAlert_appendChildren (orders : ℕ → DictOrder) (self : MatchsViewModel)
    (children : Dictionary) : (self.appendChildren orders children).showAlert = self.showAlert := by
  unfold MatchsViewModel.appendChildren
  generalize children.zipIdx = cs
  induction cs generalizing self with
  | nil => rfl
  | cons c cs ih =>
    rw [List.foldl_cons, ih]
    unfold MatchsViewModel.appendChild
    split <;> rfl

/-- A refresh of the list shows no alert. -/
theorem showAlert_relisted (self : MatchsViewModel) (orders : ℕ → DictOrder) (db : Value) :
    (self.relisted orders db).showAlert = self.showAlert :=
  showAlert_appendChildren orders _ _

/-- No completion takes an alert down. -/
theorem MatchsCompleted.showAlert {self vm : MatchsViewModel} {orders : ℕ → DictOrder}
    {r : MatchsViewModel.Request} {a : Answer} {rs : List MatchsViewModel.Request}
    (h : MatchsCompleted self orders r a vm rs) (hself : self.showAlert = true) :
    vm.showAlert = true := by
  cases h with
  | listed a =>
    cases a with
    | error e => rfl
    | _ => exact (showAlert_appendChildren orders self _).trans hself
  | selected m a =>
    cases a with
    | error e => rfl
    | _ =>
      simp only [MatchsViewModel.getMatchWithMatchIDCompletion]
      split <;> exact hself
  | failed | full | joinFailed => rfl
  | _ => exact hself

/-- A read leaves the server alone, whatever becomes of it. -/
theorem serve_of_read {r : Request} {ref : Ref} (hr : r.remote = .ok (.getData ref)) (s : Firebase)
    (o : Outcome) : (r.serve s o).1 = s := by
  simp only [Request.serve, hr]
  cases ho : o.error with
  | some e => rw [s.serve_error _ ho]
  | none => rw [s.serve_getData _ ho]

/-- A join keeps to the limit of 14: a full roster refuses it, whatever fails, and a free place
is given to the user and changes nothing else. -/
structure JoinKeepsLimit (w : World) (i : ℕ) (m u : String) (user : UserModel) : Prop where
  full : 14 ≤ (roster w.server.database m).childrenCount →
    EndsIn App.resolvingService (fun _ => True) i [.joinMatches m user] w fun w' =>
      w'.server.database = w.server.database ∧ (w'.clients i).matchs.showAlert = true
  free : (roster w.server.database m).childrenCount < 14 →
    EndsIn App.resolvingService Outcome.succeeds i [.joinMatches m user] w fun w' =>
      Replaced w.server.database w'.server.database ["Matchs", m, "players", u]
        (.object user.asDictionary)

section Join

variable {w : World} {i : ℕ} {m u : String} {user : UserModel} (hm : m ≠ "")
  (huuid : user.uuid = some u)
include hm huuid

/-- A join alone comes to an end. -/
theorem exists_join_alone (hu : u ≠ "") :
    ∃ w', RunsAlone App.service Outcome.succeeds i (.joinMatches m user) w w' := by
  simp only [join_alone hm hu huuid]
  by_cases hcount : (roster w.server.database m).childrenCount = 14
  · exact ⟨_, .inl ⟨hcount, rfl⟩⟩
  · exact ⟨_, .inr ⟨hcount, fun _ => .byKey, rfl⟩⟩

/-- A join alone, whatever fails, runs as the chain of its read. -/
theorem join_alone_of_any {w' : World}
    (h : RunsAlone App.service (fun _ => True) i (.joinMatches m user) w w') :
    ∃ s' c', Settled App.service (fun _ => True) w.server (w.clients i).loading
        [.matchs (.joinMatchesRead m u user)] s' c' ∧
      w' = ⟨s', Function.update w.clients i c', w.flights⟩ := by
  have hread : (MatchsViewModel.Request.joinMatchesRead m u user).remote =
      .ok (.getData ["Matchs", m, "players"]) := (joinMatchesRead_eq_ok m u user).mpr ⟨hm, rfl⟩
  refine (runsAlone_send ?_ hread).mp h
  simp only [Client.call, MatchsViewModel.joinMatches, huuid, Client.loading]

/-- A roster of exactly 14 refuses a join, whatever fails. -/
theorem join_refused (hcount : (roster w.server.database m).childrenCount = 14) {w' : World}
    (h : RunsAlone App.service (fun _ => True) i (.joinMatches m user) w w') :
    w'.server.database = w.server.database ∧ (w'.clients i).matchs.showAlert = true := by
  have hread : (Request.matchs (.joinMatchesRead m u user)).remote =
      .ok (.getData ["Matchs", m, "players"]) := (joinMatchesRead_eq_ok m u user).mpr ⟨hm, rfl⟩
  obtain ⟨s', c', hsettled, rfl⟩ := join_alone_of_any hm huuid h
  obtain ⟨o, orders, c₁, rs, -, hcomplete, hrest⟩ := settled_singleton.mp hsettled
  have hserver : (App.service.serve w.server (.matchs (.joinMatchesRead m u user)) o).1 =
      w.server := serve_of_read hread w.server o
  -- the answer is an error or the roster, which has 14 children
  have hanswer := answer_of_getData (fun q hq => by rw [hread] at hq; exact (Except.ok.inj hq).symm)
    w.server o
  obtain ⟨vm, rs', hvm, rfl, rfl⟩ := service_complete_matchs.mp hcomplete
  rw [hserver] at hrest
  change (w.clients i).loading.matchs.complete orders _ (Request.serve w.server _ o).2 = _ at hvm
  generalize (Request.serve w.server (.matchs (.joinMatchesRead m u user)) o).2 = a at hanswer hvm
  cases (matchsCompleted_of_complete hvm).1 with
  | failed e _ =>
    obtain ⟨rfl, rfl⟩ := settled_nil.mp hrest
    exact ⟨rfl, by simp [MatchsViewModel.alert]⟩
  | full _ _ _ _ _ =>
    obtain ⟨rfl, rfl⟩ := settled_nil.mp hrest
    exact ⟨rfl, by simp [MatchsViewModel.alert]⟩
  | joinWrite _ _ _ ha hother =>
    rcases hanswer with rfl | ⟨⟨e, rfl⟩, -⟩
    · exact absurd hcount hother
    · exact absurd rfl (ha e)
  | reload hreloads => cases hreloads

/-- The requests a join may send. -/
def JoinRequest (m u : String) (user : UserModel) (r : Request) : Prop :=
  r = .matchs (.joinMatchesRead m u user) ∨ r = .matchs (.joinMatchesWrite m u user) ∨
    r = .matchs .getAllMatchs

omit hm huuid in
/-- The completions of a join send requests of the join only. -/
theorem joinRequest_of_complete {c c' : Client} {r : Request} {a : Answer} {orders : ℕ → DictOrder}
    {rs : List Request} (hr : JoinRequest m u user r)
    (h : App.service.complete c r a orders = some (c', rs)) :
    ∀ r' ∈ rs, JoinRequest m u user r' := by
  intro r' hr'
  have hissues := (issues_of_complete (toOption_eq_some.mp h) hr').1
  rcases hr with rfl | rfl | rfl
  · cases hissues with
    | reload _ _ => exact .inr (.inr rfl)
    | joinWrite _ _ _ _ _ => exact .inr (.inl rfl)
  · cases hissues
    exact .inr (.inr rfl)
  · cases hissues
    exact .inr (.inr rfl)

/-- A join whose record is already stored changes nothing, whatever fails, and an alert that is
shown stays. -/
theorem join_repeated
    (hrecord : (roster w.server.database m).child u = .object user.asDictionary)
    (halert : (w.clients i).matchs.showAlert = true) {w' : World}
    (h : RunsAlone App.service (fun _ => True) i (.joinMatches m user) w w') :
    w'.server.database = w.server.database ∧ (w'.clients i).matchs.showAlert = true := by
  have hread : (Request.matchs (.joinMatchesRead m u user)).remote =
      .ok (.getData ["Matchs", m, "players"]) := (joinMatchesRead_eq_ok m u user).mpr ⟨hm, rfl⟩
  have hsame : w.server.database.set ["Matchs", m, "players", u] (.object user.asDictionary) =
      w.server.database := by
    rw [← hrecord]
    exact Json.set_get_self _ ["Matchs", m, "players", u]
  obtain ⟨s', c', hsettled, rfl⟩ := join_alone_of_any hm huuid h
  have hend : s'.database = w.server.database ∧ c'.matchs.showAlert = true := by
    refine hsettled.invariant
      (I := fun s c => s.database = w.server.database ∧ c.matchs.showAlert = true)
      (J := JoinRequest m u user) ⟨rfl, halert⟩
      (fun r hr => .inl (List.mem_singleton.mp hr)) ?_
    rintro s c r o orders c₁ rs ⟨hdb, hshown⟩ hr - hcomplete
    refine ⟨⟨?_, ?_⟩, joinRequest_of_complete hr hcomplete⟩
    · rcases database_serve s r o with hserve | ⟨q, hq, -, hserve⟩
      · exact hserve.trans hdb
      · -- the only write stores the record that is there
        refine hserve.trans ?_
        rw [hdb]
        rcases hr with rfl | rfl | rfl
        · rw [hread] at hq
          cases hq
          rfl
        · obtain ⟨-, -, rfl⟩ := (MatchWrite.join u user).remote_eq_ok.mp hq
          exact hsame
        · cases hq
          rfl
    · have hcompleted := (completed_of_complete (toOption_eq_some.mp hcomplete)).1
      generalize (App.service.serve s r o).2 = a at hcompleted
      cases hcompleted with
      | matchs hmatchs => exact hmatchs.showAlert hshown
      | _ => rcases hr with hr | hr | hr <;> cases hr
  simpa using hend

end Join

section PlainJoin

variable {w : World} {i : ℕ} {m u : String} {user : UserModel} (hm : PlainID m) (hu : PlainID u)
  (huuid : user.uuid = some u)
include hm hu huuid

omit huuid in
/-- With plain ids the references of a join are the paths they resolve to. -/
theorem serveResolved_joinRequest {r : Request} (hr : JoinRequest m u user r) (s : Firebase)
    (o : Outcome) : r.serveResolved s o = r.serve s o := by
  have hmatchs : PlainID "Matchs" := ⟨by decide, by simp⟩
  have hplayers : PlainID "players" := ⟨by decide, by simp⟩
  rcases hr with rfl | rfl | rfl
  · refine serveResolved_of_plain ((joinMatchesRead_eq_ok m u user).mpr ⟨hm.nonempty, rfl⟩) ?_ s o
    simp [Remote.ref, hmatchs, hm, hplayers]
  · refine serveResolved_of_plain ((MatchWrite.join u user).remote_eq_ok.mpr
      ⟨hm.nonempty, by simp [hu.nonempty.symm], rfl⟩) ?_ s o
    simp [Remote.ref, hmatchs, hm, hplayers, hu]
  · refine serveResolved_of_plain rfl ?_ s o
    simp [Remote.ref, getReference, hmatchs]

/-- With plain ids a join alone runs as if nothing were resolved. -/
theorem runsAlone_join_resolving {ok : Outcome → Prop} {w' : World} :
    RunsAlone App.resolvingService ok i (.joinMatches m user) w w' ↔
      RunsAlone App.service ok i (.joinMatches m user) w w' := by
  have hcalls : ∀ (c c' : Client) rs, App.service.call c (.joinMatches m user) = some (c', rs) →
      ∀ r ∈ rs, JoinRequest m u user r := by
    intro c c' rs hcall r hr
    have hissues := (issues_of_call (toOption_eq_some.mp hcall) hr).1
    cases hissues with
    | joinMatches _ _ hu' =>
      obtain rfl := Option.some.inj (hu'.symm.trans huuid)
      exact .inl rfl
  have hsequential : Sequential App.resolvingService :=
    ⟨App.sequential.call, App.sequential.complete⟩
  rw [runsAlone_iff hsequential, runsAlone_iff App.sequential]
  constructor
  · rintro ⟨c, rs, s', c', hcall, hsettled, rfl⟩
    refine ⟨c, rs, s', c', hcall, ?_, rfl⟩
    exact hsettled.serve_congr (hcalls _ _ _ hcall)
      (fun s r o hr => (serveResolved_joinRequest hm hu hr s o).symm)
      fun _ _ _ _ _ _ => joinRequest_of_complete
  · rintro ⟨c, rs, s', c', hcall, hsettled, rfl⟩
    refine ⟨c, rs, s', c', hcall, ?_, rfl⟩
    exact hsettled.serve_congr (hcalls _ _ _ hcall)
      (fun s r o hr => serveResolved_joinRequest hm hu hr s o)
      fun _ _ _ _ _ _ => joinRequest_of_complete

/-- The test for exactly 14 lets a join into a longer roster. -/
theorem joinKeepsLimit_of_more (h : JoinKeepsLimit w i m u user)
    (hmore : 14 < (roster w.server.database m).childrenCount) :
    (roster w.server.database m).child u = .object user.asDictionary ∧
      (w.clients i).matchs.showAlert = true := by
  obtain ⟨w₁, hw₁⟩ := exists_join_alone (w := w) (i := i) hm.nonempty huuid hu.nonempty
  have hfull := h.full (by omega)
  rw [endsIn_singleton] at hfull
  obtain ⟨hdb, halert⟩ := hfull.2 w₁ ((runsAlone_join_resolving hm hu huuid).mpr
    (hw₁.mono App.sequential fun _ _ => trivial))
  rcases (join_alone hm.nonempty hu.nonempty huuid).mp hw₁ with ⟨hcount, -⟩ | ⟨-, orders, rfl⟩
  · omega
  · rw [after_database] at hdb
    rw [after_client] at halert
    refine ⟨?_, (showAlert_relisted _ orders _).symm.trans halert⟩
    have hget := Json.get_set_self w.server.database (.object user.asDictionary)
      ["Matchs", m, "players", u]
    rw [hdb] at hget
    exact hget

/-- In every world, a join with plain ids of match and user, run to its end alone, keeps to the
limit if and only if the roster has at most 14 children, or the join has nothing to change: the
record is stored already and an alert is on the screen already. -/
theorem join_keeps_limit_iff :
    JoinKeepsLimit w i m u user ↔
      (roster w.server.database m).childrenCount ≤ 14 ∨
        (roster w.server.database m).child u = .object user.asDictionary ∧
          (w.clients i).matchs.showAlert = true := by
  constructor
  · intro h
    rcases Nat.lt_or_ge 14 (roster w.server.database m).childrenCount with hmore | hle
    · exact .inr (joinKeepsLimit_of_more hm hu huuid h hmore)
    · exact .inl hle
  · intro h
    obtain ⟨w₁, hw₁⟩ := exists_join_alone (w := w) (i := i) hm.nonempty huuid hu.nonempty
    refine ⟨fun hfull => ?_, fun hfree => ?_⟩
    · rw [endsIn_singleton]
      refine ⟨⟨w₁, (runsAlone_join_resolving hm hu huuid).mpr
        (hw₁.mono App.sequential fun _ _ => trivial)⟩, fun w' hw' => ?_⟩
      have hw' := (runsAlone_join_resolving hm hu huuid).mp hw'
      rcases h with hle | ⟨hrecord, halert⟩
      · exact join_refused hm.nonempty huuid (by omega) hw'
      · exact join_repeated hm.nonempty huuid hrecord halert hw'
    · rw [endsIn_singleton]
      refine ⟨⟨w₁, (runsAlone_join_resolving hm hu huuid).mpr hw₁⟩, fun w' hw' => ?_⟩
      rcases (join_alone hm.nonempty hu.nonempty huuid).mp
        ((runsAlone_join_resolving hm hu huuid).mp hw') with ⟨hcount, -⟩ | ⟨-, orders, rfl⟩
      · omega
      · exact replaced_set _ _ _

end PlainJoin

/-- The last place of a match with 13 players. -/
theorem join_keeps_limit_last_place :
    JoinKeepsLimit (World.start thirteenPlayers fun _ => some "n") 0 "m" "n" (samplePlayer "n") :=
  (join_keeps_limit_iff ⟨by decide, by simp⟩ ⟨by decide, by simp⟩ rfl).mpr
    (.inl (by decide +kernel))

/-- The users of sixteen clients. -/
def sixteenUsers : List String :=
  ["a", "b", "c", "d", "e", "f", "g", "h", "i", "j", "k", "l", "m", "n", "o", "p"]

/-- A match is created, and fifteen of them join at the same time: all rosters are read before the
first record is written. -/
def fifteenJoin : List Label :=
  let joining := sixteenUsers.zipIdx.take 15
  [.call 0 (.createMatch "m" "message" "area" 0 1)] ++ roundTrip 0 {} ++
    joining.map (fun u => .call u.2 (.joinMatches "m" (samplePlayer u.1))) ++
    joining.flatMap (fun _ => roundTrip 0 {}) ++ joining.flatMap (fun _ => roundTrip 0 {})

/-- A roster of fifteen, filled by joins that overlap, lets one more in. -/
theorem overfull_roster_admits :
    ∃ w, exec App.resolvingService.step (World.start ⟨.null, []⟩ fun i => sixteenUsers[i]?)
        fifteenJoin = some w ∧
      (roster w.server.database "m").childrenCount = 15 ∧
      ¬ JoinKeepsLimit w 15 "m" "p" (samplePlayer "p") := by
  obtain ⟨w, hw, hend⟩ := Option.map_eq_some_iff.mp (show
    (exec App.resolvingService.step (World.start ⟨.null, []⟩ fun i => sixteenUsers[i]?)
      fifteenJoin).map
    (fun w => ((roster w.server.database "m").childrenCount,
      (w.clients 15).matchs.showAlert)) = some (15, false) from by decide +kernel)
  simp only [Prod.mk.injEq] at hend
  obtain ⟨hcount, halert⟩ := hend
  refine ⟨w, hw, hcount, fun h => ?_⟩
  have hshown := (joinKeepsLimit_of_more ⟨by decide, by simp⟩ ⟨by decide, by simp⟩ rfl h
    (by omega)).2
  rw [halert] at hshown
  cases hshown

/-! ## Taking back -/

/-- The nodes above what a join or an assignment writes are absent or objects. -/
structure NoLeafAbove (db : Value) (m : String) : Prop where
  root : db.isLeaf = false
  matchs : (db.child "Matchs").isLeaf = false
  document : (matchNode db m).isLeaf = false
  players : (roster db m).isLeaf = false
  positions : (positions db m).isLeaf = false

/-- The user is in no position of the decoded match. -/
def NotPlaced (db : Value) (m u : String) : Prop :=
  ∀ order, ∀ d ∈ (matchNode db m).asDictionary,
    ∀ p ∈ (MatchsModel.init order d).Position.getD [], p.uuid ≠ some u

/-- The search finds nothing for a player who is in no slot. -/
theorem positionOfUser_of_notPlaced {db : Value} {m u : String} (h : NotPlaced db m u)
    (order : DictOrder) : MatchsViewModel.positionOfUser order u (matchNode db m) = none := by
  unfold MatchsViewModel.positionOfUser
  cases hd : (matchNode db m).asDictionary with
  | none => rfl
  | some d =>
    show ((MatchsModel.init order d).Position.getD []).find? _ = none
    rw [List.find?_eq_none]
    intro p hp
    simpa using h order d hd p hp

/-- A leave of a user who is neither on the roster nor on the pitch changes nothing. -/
theorem leave_alone_of_notPlaced {w : World} {i : ℕ} {m u : String} {db : Value} (hm : m ≠ "")
    (hu : u ≠ "") (huser : (w.clients i).currentUser = some u)
    (hleft : leftRoster w.server.database m u = db) (hnot : NotPlaced db m u) :
    EndsIn App.service Outcome.succeeds i [.leaveMatches m] w fun w' =>
      w'.server.database = db := by
  have hnone := positionOfUser_of_notPlaced hnot
  subst hleft
  rw [endsIn_singleton]
  simp only [leave_alone hm hu huser]
  constructor
  · exact ⟨_, .byKey, fun _ => .byKey, .inl ⟨hnone _, rfl⟩⟩
  · rintro w' ⟨order, orders, ⟨-, rfl⟩ | ⟨p, hp, -⟩⟩
    · rfl
    · rw [hnone] at hp
      cases hp

/-- A database whose `Matchs` is a string. -/
def matchsIsLeaf : Firebase := ⟨Json.null.set ["Matchs"] (.leaf (.str "closed")), []⟩

end TifaSoccer
