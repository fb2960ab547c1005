import TifaSoccer.CacheTheorems

/-!
# `MatchsViewModel` on its own

A run of the view model is any sequence of its functions and completions, on any answers.
`step_of_call` and `step_of_complete` say that the view model of a client takes only such steps,
so what holds along every run of the view model holds of each client of the app. The unplaced
players are exact along every run, and a failure is reported with its own reason by every
completion but one.
-/

namespace TifaSoccer

open Run

/-! ## The view model of a client -/

/-- A call of a client is a call of its view model, or leaves the view model alone. -/
theorem step_of_call {c c' : Client} {op : Op} {rs : List Request}
    (h : c.call op = .ok (c', rs)) :
    c'.matchs = c.matchs ∨ ∃ x, c.matchs.step x = some c'.matchs := by
  have hmatchs : ∀ {c₁ : Client} {e : MatchsViewModel.Effect}, c₁.withMatchs e = .ok (c', rs) →
      e.toOption.map Prod.fst = some c'.matchs := by
    intro c₁ e he
    obtain ⟨p, hp, ⟨⟩⟩ := map_eq_ok.mp he
    rw [hp]
    rfl
  cases op with
  | getAllMatchs => exact .inr ⟨.call .getAllMatchs, hmatchs h⟩
  | joinMatches m user => exact .inr ⟨.call (.joinMatches m user), hmatchs h⟩
  | leaveMatches m => exact .inr ⟨.call (.leaveMatches c.currentUser m), hmatchs h⟩
  | deleteMatches m => exact .inr ⟨.call (.deleteMatches m), hmatchs h⟩
  | openDetail m => exact .inr ⟨.call (.getMatchWithMatchID m), hmatchs h⟩
  | getMatchWithMatchID m => exact .inr ⟨.call (.getMatchWithMatchID m), hmatchs h⟩
  | setPlayerPositionWithMatch m k player =>
    exact .inr ⟨.call (.setPlayerPositionWithMatch m k player), hmatchs h⟩
  | deletePlayerPositionWithMatch m k =>
    exact .inr ⟨.call (.deletePlayerPositionWithMatch m k), hmatchs h⟩
  | setIsPlanningCompleteForMatch m =>
    exact .inr ⟨.call (.setIsPlanningCompleteForMatch m), hmatchs h⟩
  | addComment comment uuid date key =>
    exact .inr ⟨.call (.addComment comment uuid date key), hmatchs h⟩
  | dismissAlert =>
    cases h
    exact .inr ⟨.call .dismissAlert, rfl⟩
  -- the other view models
  | login | register | getCurrentUserData | loadProfileImage | createMatch | updatePlayerData =>
    simp only [Client.call, Client.withBase, Client.withCreateMatch, Client.withUpdateProfile,
      map_eq_ok] at h
    obtain ⟨p, -, ⟨⟩⟩ := h
    exact .inl rfl
  | closeDetail | getAllPlayers =>
    cases h
    exact .inl rfl
  | signOut throws =>
    cases throws with
    | true =>
      cases h
      exact .inl rfl
    | false =>
      cases h
      exact .inl rfl

/-- So is a completion. -/
theorem step_of_complete {c c' : Client} {orders : ℕ → DictOrder} {r : Request} {a : Answer}
    {rs : List Request} (h : c.complete orders r a = .ok (c', rs)) :
    c'.matchs = c.matchs ∨ ∃ x, c.matchs.step x = some c'.matchs := by
  cases r with
  | base r =>
    obtain ⟨p, -, ⟨⟩⟩ := map_eq_ok.mp h
    rcases authenticated_spec c r a with hauth | ⟨-, uid, -, hauth⟩
    · rw [hauth]
      exact .inl rfl
    · rw [hauth]
      exact .inl rfl
  | matchs r =>
    obtain ⟨p, hp, ⟨⟩⟩ := map_eq_ok.mp h
    refine .inr ⟨.complete orders r a, ?_⟩
    rw [MatchsViewModel.step, hp]
    rfl
  | createMatch | players | updateProfile =>
    cases h
    exact .inl rfl

/-! ## Unplaced players -/

/-- One turn of the outer loop: when a player has the uuid of the position, all entries with
that uuid go. -/
theorem removeSelected_inner (position : UserPositionModel) (players unselected : List UserModel) :
    players.foldl (fun unselected player =>
        if position.uuid = player.uuid then
          unselected.filter fun x => decide (x.uuid ≠ player.uuid)
        else unselected) unselected =
      unselected.filter fun x =>
        decide (∀ player ∈ players, position.uuid = player.uuid → position.uuid ≠ x.uuid) := by
  induction players generalizing unselected with
  | nil => simp
  | cons player players ih =>
    rw [List.foldl_cons, ih]
    by_cases h : position.uuid = player.uuid
    · rw [if_pos h, List.filter_filter]
      refine List.filter_congr fun x _ => ?_
      rw [← Bool.decide_and, decide_eq_decide, List.forall_mem_cons, h]
      constructor
      · rintro ⟨hplayers, hx⟩
        exact ⟨fun _ => Ne.symm hx, hplayers⟩
      · rintro ⟨hx, hplayers⟩
        exact ⟨hplayers, Ne.symm (hx rfl)⟩
    · simp [h]

/-- The removal loops are one filter. -/
theorem removeSelected_eq_filter (positions : List UserPositionModel)
    (players unselected : List UserModel) :
    MatchsViewModel.removeSelected positions players unselected =
      unselected.filter fun x => decide (∀ position ∈ positions, ∀ player ∈ players,
        position.uuid = player.uuid → position.uuid ≠ x.uuid) := by
  unfold MatchsViewModel.removeSelected
  induction positions generalizing unselected with
  | nil => simp
  | cons position positions ih =>
    rw [List.foldl_cons, removeSelected_inner, ih, List.filter_filter]
    refine List.filter_congr fun x _ => ?_
    rw [← Bool.decide_and, decide_eq_decide, List.forall_mem_cons, and_comm]

/-- The cached players are those of the cached match that are in none of its positions. -/
def UnselectedExact (c : Client) : Prop :=
  c.matchs.unselectedPlayer = (c.matchs.selectedMatch.players.getD []).filter fun x =>
    decide (∀ position ∈ c.matchs.selectedMatch.Position.getD [], position.uuid ≠ x.uuid)

/-- Fetching a match computes the unplaced players exactly. -/
theorem selectMatch_unselectedPlayer (self : MatchsViewModel) (match' : MatchsModel) :
    (self.selectMatch match').unselectedPlayer = (match'.players.getD []).filter fun x =>
      decide (∀ position ∈ match'.Position.getD [], position.uuid ≠ x.uuid) := by
  show MatchsViewModel.removeSelected _ _ _ = _
  rw [removeSelected_eq_filter]
  -- the player whose entry is tested is himself one of the players the inner loop compares with
  refine List.filter_congr fun x hx => ?_
  rw [decide_eq_decide]
  constructor
  · intro h position hposition heq
    exact h position hposition x hx heq heq
  · intro h position hposition player _ _
    exact h position hposition

/-- No function of the view model touches the selection. -/
theorem call_selection {self vm : MatchsViewModel} {op : MatchsViewModel.Call}
    {rs : List MatchsViewModel.Request} (h : self.call op = .ok (vm, rs)) :
    vm.selectedMatch = self.selectedMatch ∧ vm.unselectedPlayer = self.unselectedPlayer := by
  cases op with
  | getAllMatchs | dismissAlert =>
    cases h
    exact ⟨rfl, rfl⟩
  | joinMatches | leaveMatches | setIsPlanningCompleteForMatch | addComment =>
    -- these unwrap an optional before they send anything
    simp only [MatchsViewModel.call, MatchsViewModel.joinMatches, MatchsViewModel.leaveMatches,
      MatchsViewModel.setIsPlanningCompleteForMatch, MatchsViewModel.addComment] at h
    split at h
    · obtain ⟨rfl, -, -⟩ := matchs_send_eq_ok h
      exact ⟨rfl, rfl⟩
    · cases h
      exact ⟨rfl, rfl⟩
  | _ =>
    obtain ⟨rfl, -, -⟩ := matchs_send_eq_ok h
    exact ⟨rfl, rfl⟩

/-- The selected match has been decoded, and its unplaced players are exact. -/
structure SelectionExact (vm : MatchsViewModel) : Prop where
  decoded : ∃ order d, vm.selectedMatch = MatchsModel.init order d
  unselectedPlayer : vm.unselectedPlayer =
    (vm.selectedMatch.players.getD []).filter fun x =>
      decide (∀ position ∈ vm.selectedMatch.Position.getD [], position.uuid ≠ x.uuid)

/-- Nothing is selected at the start. -/
theorem selectionExact_init : SelectionExact {} := ⟨⟨.byKey, [], rfl⟩, rfl⟩

/-- What does not touch the selection keeps it exact. -/
theorem SelectionExact.congr {self vm : MatchsViewModel} (h : SelectionExact self)
    (hselected : vm.selectedMatch = self.selectedMatch)
    (hunselected : vm.unselectedPlayer = self.unselectedPlayer) : SelectionExact vm := by
  refine ⟨?_, ?_⟩
  · rw [hselected]
    exact h.decoded
  · rw [hselected, hunselected]
    exact h.unselectedPlayer

/-- Only the completion of `getMatchWithMatchID` changes the selection, and it stores a match
together with its unplaced players. -/
theorem selectionExact_of_step {self self' : MatchsViewModel} {x : MatchsViewModel.Action}
    (h : SelectionExact self) (hstep : self.step x = some self') : SelectionExact self' := by
  cases x with
  | call op =>
    obtain ⟨⟨vm, rs⟩, hcall, rfl⟩ := Option.map_eq_some_iff.mp hstep
    obtain ⟨hselected, hunselected⟩ := call_selection (toOption_eq_some.mp hcall)
    exact h.congr hselected hunselected
  | complete orders r a =>
    obtain ⟨⟨vm, rs⟩, hcomplete, rfl⟩ := Option.map_eq_some_iff.mp hstep
    obtain ⟨hcompleted, -⟩ := matchsCompleted_of_complete (toOption_eq_some.mp hcomplete)
    rcases hcompleted.selection with
      ⟨hselected, hunselected, -⟩ | ⟨m, d, -, -, hselected, hunselected⟩
    · exact h.congr hselected hunselected
    · refine ⟨⟨orders 0, d, hselected⟩, ?_⟩
      rw [hselected, hunselected]
      exact selectMatch_unselectedPlayer self _

/-- In every run the unplaced players of each client are exact, and so they were whenever a
request in flight was issued. -/
theorem unselectedExact_of_reaches {C : World → Label → Prop} {server : Firebase}
    {sessions : ℕ → Option String} {w : World}
    (hrun : Reaches App.step C (World.start server sessions) w) :
    (∀ i, UnselectedExact (w.clients i)) ∧ ∀ fl ∈ w.flights, UnselectedExact fl.issuedIn := by
  have hexact : (∀ i, SelectionExact (w.clients i).matchs) ∧
      ∀ fl ∈ w.flights, SelectionExact fl.issuedIn.matchs := by
    refine Async.client_invariant (P := App.service) (Q := fun c => SelectionExact c.matchs) hrun
      (fun i => selectionExact_init) rfl ?_ ?_
    · intro w i op c rs _ hQ _ hcall
      rcases step_of_call (toOption_eq_some.mp hcall) with hsame | ⟨x, hstep⟩
      · rw [hsame]
        exact hQ
      · exact selectionExact_of_step hQ hstep
    · intro w n d fl a c rs _ hQ _ _ _ hcomplete
      rcases step_of_complete (toOption_eq_some.mp hcomplete) with hsame | ⟨x, hstep⟩
      · rw [hsame]
        exact hQ
      · exact selectionExact_of_step hQ hstep
  exact ⟨fun i => (hexact.1 i).unselectedPlayer, fun fl hfl => (hexact.2 fl hfl).unselectedPlayer⟩

/-- In every state the view model reaches by any sequence of its functions and completions, on any
documents, malformed ones too: the unplaced players are the players of the selected match, in their
order and as often as they occur, without those whose uuid is that of one of its positions. -/
theorem unselectedPlayer_exact {vm : MatchsViewModel}
    (hrun : Reaches MatchsViewModel.step (fun _ _ => True) {} vm) :
    ∃ players positions, vm.selectedMatch.players = some players ∧
      vm.selectedMatch.Position = some positions ∧
      vm.unselectedPlayer = players.filter fun player =>
        decide (∀ position ∈ positions, position.uuid ≠ player.uuid) := by
  have hexact : SelectionExact vm :=
    hrun.invariant selectionExact_init fun _ _ _ _ h _ hstep => selectionExact_of_step h hstep
  obtain ⟨order, d, hselected⟩ := hexact.decoded
  have hunselected := hexact.unselectedPlayer
  rw [hselected] at hunselected ⊢
  exact ⟨_, _, rfl, rfl, hunselected⟩

/-- A document the app would not write, for concrete runs: a uuid stored twice and one that is no
string, and two positions of one player. -/
def malformedMatch : Value :=
  .object
    [("players", .object
      [("a", .object [("uuid", .leaf (.str "n"))]), ("b", .object [("uuid", .leaf (.str "o"))]),
        ("c", .object [("uuid", .leaf (.str "n"))]), ("d", .object [("uuid", .leaf (.int 3))])]),
     ("Positions", .object
      [("A0", .object [("uuid", .leaf (.str "n"))]), ("A1", .object [("uuid", .leaf (.str "n"))])])]

/-- A document with a repeated uuid and one that is no string. -/
theorem unselectedPlayer_exact_malformed :
    ∃ vm, exec (restrict MatchsViewModel.step fun _ _ => True) {}
        [.call (.getMatchWithMatchID "m"),
          .complete (fun _ => .byKey) (.getMatchWithMatchID "m") (.snapshot malformedMatch)] =
          some vm ∧
      vm.unselectedPlayer.map UserModel.uuid = [some "o", some ""] ∧
      ∃ players positions, vm.selectedMatch.players = some players ∧
        vm.selectedMatch.Position = some positions ∧
        vm.unselectedPlayer = players.filter fun player =>
          decide (∀ position ∈ positions, position.uuid ≠ player.uuid) := by
  obtain ⟨vm, hvm, huuids⟩ := Option.map_eq_some_iff.mp (show (exec (restrict MatchsViewModel.step
    fun _ _ => True) {} [.call (.getMatchWithMatchID "m"),
      .complete (fun _ => .byKey) (.getMatchWithMatchID "m") (.snapshot malformedMatch)]).map
    (fun vm => vm.unselectedPlayer.map UserModel.uuid) = some [some "o", some ""] from by
    decide +kernel)
  exact ⟨vm, hvm, huuids, unselectedPlayer_exact (reaches_of_exec hvm)⟩

/-! ## Failures -/

/-- The completion of `r` that took the view model from `vm` to `vm'` and sent `rs` has reported the
error `e` and kept the caches, except for the list where it is being refreshed. -/
structure FailureReported (vm : MatchsViewModel) (r : MatchsViewModel.Request) (e : String)
    (vm' : MatchsViewModel) (rs : List MatchsViewModel.Request) : Prop where
  showAlert : vm'.showAlert = true
  errorMessage : vm'.errorMessage = e
  selectedMatch : vm'.selectedMatch = vm.selectedMatch
  unselectedPlayer : vm'.unselectedPlayer = vm.unselectedPlayer
  matchsModelList : vm'.matchsModelList = vm.matchsModelList ∨
    (r = .getAllMatchs ∨ .getAllMatchs ∈ rs) ∧ vm'.matchsModelList = []

/-- Whichever request fails, in whatever state and with whatever error, its completion runs, and it
reports the error exactly if the request is not the write of `joinMatches`, whose completion reads
the error of the read before it; or if the description is the text shown in its place. -/
theorem failure_reported_iff (vm : MatchsViewModel) (orders : ℕ → DictOrder)
    (r : MatchsViewModel.Request) (e : String) :
    ∃ vm' rs, vm.complete orders r (.error e) = .ok (vm', rs) ∧
      (FailureReported vm r e vm' rs ↔
        (∀ m u user, r ≠ .joinMatchesWrite m u user) ∨ e = "Oups!") := by
  cases r with
  | getAllMatchs =>
    refine ⟨_, _, rfl, iff_of_true ?_ (.inl (by simp))⟩
    exact ⟨rfl, rfl, rfl, rfl, .inr ⟨.inl rfl, rfl⟩⟩
  | joinMatchesWrite m u user =>
    refine ⟨_, _, rfl, ?_⟩
    constructor
    · intro h
      exact .inr h.errorMessage.symm
    · rintro (hother | rfl)
      · exact absurd rfl (hother m u user)
      · exact ⟨rfl, rfl, rfl, rfl, .inr ⟨.inr (List.mem_singleton.mpr rfl), rfl⟩⟩
  | _ =>
    refine ⟨_, _, rfl, iff_of_true ?_ (.inl (by simp))⟩
    exact ⟨rfl, rfl, rfl, rfl, .inl rfl⟩

/-- A user joins, and the database refuses the write. -/
def refusedJoin : List Label :=
  [.call 0 (.joinMatches "m" (samplePlayer "n"))] ++ roundTrip 0 {} ++
    [.serve 0 { error := some "Permission denied" }]

/-- The reason of the refusal is not shown. -/
theorem join_hides_reason :
    ∃ w w', exec App.step (World.start (sampleMatch []) fun _ => some "n") refusedJoin = some w ∧
      w.flights.map Async.Flight.request =
        [.matchs (.joinMatchesWrite "m" "n" (samplePlayer "n"))] ∧
      App.step w (.deliver 0 fun _ => .byKey) = some w' ∧
      (w'.clients 0).matchs.errorMessage = "Oups!" ∧
      ∀ rs, ¬ FailureReported (w.clients 0).matchs
        (.joinMatchesWrite "m" "n" (samplePlayer "n")) "Permission denied"
        (w'.clients 0).matchs rs := by
  obtain ⟨w, hw, hend⟩ := Option.bind_eq_some_iff.mp (show (exec App.step
    (World.start (sampleMatch []) fun _ => some "n") refusedJoin).bind (fun w =>
      (App.step w (.deliver 0 fun _ => .byKey)).map fun w' =>
        (w.flights.map Async.Flight.request, (w'.clients 0).matchs.errorMessage)) =
      some ([.matchs (.joinMatchesWrite "m" "n" (samplePlayer "n"))], "Oups!") from by
    decide +kernel)
  obtain ⟨w', hw', hshown⟩ := Option.map_eq_some_iff.mp hend
  obtain ⟨hrequest, hmessage⟩ := Prod.mk.inj hshown
  refine ⟨w, w', hw, hrequest, hw', hmessage, fun rs h => ?_⟩
  rw [h.errorMessage] at hmessage
  exact absurd hmessage (by decide)

end TifaSoccer
