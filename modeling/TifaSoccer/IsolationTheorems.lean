import TifaSoccer.CacheTheorems
import TifaSoccer.Lib.Lockstep
import TifaSoccer.ResolveTheorems

/-!
# One match does not touch another

Everything a client does with one match stays below `Matchs/m`, also the removal at the end of a
leave, whose path is computed from a stored slot name. A stored name may be any string, and `child`
splits a string at its slashes; so here a request is served at the path Firebase resolves its
reference to. The operations on a match read nothing but `Matchs/m` and the whole list of matches,
and what comes of that list decides nothing; so two runs from databases that agree on `Matchs/m`
go in lockstep.
-/

namespace TifaSoccer

open Async Run

/-! ## Operations on one match -/

/-- The match an operation addresses. -/
def Op.addresses (c : Client) : Op → Option String
  | .joinMatches matchsID _ => some matchsID
  | .leaveMatches matchsID => some matchsID
  | .deleteMatches matchsID => some matchsID
  | .setPlayerPositionWithMatch matchID _ _ => some matchID
  | .deletePlayerPositionWithMatch matchID _ => some matchID
  | .setIsPlanningCompleteForMatch matchID => some matchID
  | .addComment _ _ _ _ => c.matchs.selectedMatch.matchID
  | _ => none

/-- A request about `m`, or the list of all matches. -/
def AddressedTo (m : String) (r : Request) : Prop :=
  ∃ r', r = .matchs r' ∧ (r' = .getAllMatchs ∨ r'.matchID = some m)

/-- A call at a match sends requests to this match. -/
theorem addressedTo_of_call {m : String} {c c' : Client} {op : Op} {rs : List Request}
    (hop : op.addresses c = some m) (h : c.call op = .ok (c', rs)) :
    ∀ r ∈ rs, AddressedTo m r := by
  intro r hr
  have hissues := (issues_of_call h hr).1
  cases hissues with
  | addComment comment uuid date key hm => exact ⟨_, rfl, .inr (hm.symm.trans hop)⟩
  | _ => first | exact ⟨_, rfl, .inr hop⟩ | cases hop

/-- The chain of a request stays at its match. -/
theorem addressedTo_of_complete {m : String} {c c' : Client} {orders : ℕ → DictOrder} {r : Request}
    {a : Answer} {rs : List Request} (hr : AddressedTo m r)
    (h : c.complete orders r a = .ok (c', rs)) : ∀ r' ∈ rs, AddressedTo m r' := by
  intro r' hr'
  have hissues := (issues_of_complete h hr').1
  obtain ⟨r₀, rfl, hr₀⟩ := hr
  cases hissues with
  | reload _ _ => exact ⟨_, rfl, .inl rfl⟩
  | _ =>
    rcases hr₀ with hall | hm
    · cases hall
    · exact ⟨_, rfl, .inr hm⟩

/-! ## The server -/

/-- Users and the other matches are as before. -/
structure OutsideUnchanged (m : String) (db db' : Value) : Prop where
  users : db'.child "Users" = db.child "Users"
  others : ∀ m', m' ≠ m → matchNode db' m' = matchNode db m'

/-- A write below the match leaves the rest alone. -/
theorem outsideUnchanged_set {m : String} {db₀ db : Value} (h : OutsideUnchanged m db₀ db)
    (p : List String) (v : Value) : OutsideUnchanged m db₀ (db.set ("Matchs" :: m :: p) v) := by
  constructor
  · rw [← h.users]
    simp
  · intro m' hm'
    rw [matchNode_set_match, if_neg hm']
    exact h.others m' hm'

/-- What a request about `m` asks of Firebase: all matches, a value below `m` or a write there. -/
theorem remote_addressed {m : String} {r : MatchsViewModel.Request} {q : Remote}
    (hr : r = .getAllMatchs ∨ r.matchID = some m) (hq : r.remote = .ok q) :
    (r = .getAllMatchs ∧ ∃ ref, q = .getData ref) ∨
      ∃ p, q = .getData ("Matchs" :: m :: p) ∨ ∃ v, q = .setValue ("Matchs" :: m :: p) v := by
  rcases hr with rfl | hm
  · cases hq
    exact .inl ⟨rfl, _, rfl⟩
  · right
    have hwrite : ∀ {p v}, MatchWrite m (.matchs r) p v →
        ∃ p, q = .getData ("Matchs" :: m :: p) ∨ ∃ v, q = .setValue ("Matchs" :: m :: p) v := by
      intro p v hw
      obtain ⟨-, -, rfl⟩ := hw.remote_eq_ok.mp hq
      exact ⟨p, .inr ⟨v, rfl⟩⟩
    cases r with
    | getAllMatchs => cases hm
    | joinMatchesRead m' u user =>
      cases hm
      exact ⟨["players"], .inl ((joinMatchesRead_eq_ok m u user).mp hq).2.symm⟩
    | isUserInFootballArea m' u =>
      cases hm
      exact ⟨[], .inl ((MatchRead.area u).remote_eq_ok.mp hq).2.symm⟩
    | getMatchWithMatchID m' =>
      cases hm
      exact ⟨[], .inl (MatchRead.detail.remote_eq_ok.mp hq).2.symm⟩
    | _ =>
      cases hm
      exact hwrite (by constructor)

/-- What the servers of two runs have in common: the match, and in the first one everything else is
as it was at the start. -/
def ServersAgree (m : String) (db₀ : Value) (s s' : Firebase) : Prop :=
  OutsideUnchanged m db₀ s.database ∧ matchNode s'.database m = matchNode s.database m

/-- A request about `m` gets the same answer from both servers, unless it asks for all matches. -/
theorem serversAgree_serve {m : String} (hm : m ≠ "") (hslash : '/' ∉ m.toList) {db₀ : Value}
    {s s' : Firebase} {r : Request} (o : Outcome) (h : ServersAgree m db₀ s s')
    (hr : AddressedTo m r) :
    ServersAgree m db₀ (r.serveResolved s o).1 (r.serveResolved s' o).1 ∧
      (r ≠ .matchs .getAllMatchs →
        (r.serveResolved s' o).2 = (r.serveResolved s o).2) := by
  obtain ⟨r, rfl, hr⟩ := hr
  unfold Request.serveResolved
  cases hq : (Request.matchs r).remote with
  | error e => exact ⟨h, fun _ => rfl⟩
  | ok q =>
    show ServersAgree m db₀ (s.serve q.resolve o).1 (s'.serve q.resolve o).1 ∧
      (_ → (s'.serve q.resolve o).2 = (s.serve q.resolve o).2)
    cases ho : o.error with
    | some e =>
      rw [s.serve_error _ ho, s'.serve_error _ ho]
      exact ⟨h, fun _ => rfl⟩
    | none =>
      rcases remote_addressed hr hq with ⟨rfl, ref, rfl⟩ | ⟨p, rfl | ⟨v, rfl⟩⟩
      · rw [Remote.resolve, s.serve_getData _ ho, s'.serve_getData _ ho]
        exact ⟨h, fun hne => absurd rfl hne⟩
      · rw [Remote.resolve, flatMap_pathComponents hm hslash, s.serve_getData _ ho,
          s'.serve_getData _ ho]
        refine ⟨h, fun _ => ?_⟩
        show Answer.snapshot ((matchNode s'.database m).get _) = _
        rw [h.2]
        rfl
      · rw [Remote.resolve, flatMap_pathComponents hm hslash, s.serve_setValue _ _ ho,
          s'.serve_setValue _ _ ho]
        refine ⟨⟨outsideUnchanged_set h.1 _ v, ?_⟩, fun _ => rfl⟩
        show matchNode (s'.database.set _ v) m = matchNode (s.database.set _ v) m
        rw [matchNode_set_match, matchNode_set_match, if_pos rfl, if_pos rfl, h.2]

/-! ## The clients -/

/-- Two functions of the view model send the same requests and leave the same selected match. -/
def SameEffect (e e' : MatchsViewModel.Effect) : Prop :=
  ∀ vm rs, e = .ok (vm, rs) → ∃ vm', e' = .ok (vm', rs) ∧ vm'.selectedMatch = vm.selectedMatch

/-- The same requests and the same stored match are the same effect. -/
theorem sameEffect_ok {vm vm' : MatchsViewModel} (h : vm'.selectedMatch = vm.selectedMatch)
    (rs : List MatchsViewModel.Request) :
    SameEffect (.ok (vm, rs)) (.ok (vm', rs)) := by
  rintro _ _ ⟨⟩
  exact ⟨vm', rfl, h⟩

/-- Sending has the same effect from both states. -/
theorem sameEffect_send {vm vm' : MatchsViewModel} (h : vm'.selectedMatch = vm.selectedMatch)
    (r : MatchsViewModel.Request) : SameEffect (vm.send r) (vm'.send r) := by
  unfold MatchsViewModel.send
  cases r.remote with
  | error e =>
    intro _ _ habsurd
    cases habsurd
  | ok q => exact sameEffect_ok h [r]

/-- The completion of a request depends on the selected match and the answer; that of `getAllMatchs`
on neither. -/
theorem sameEffect_complete {self self' : MatchsViewModel} {r : MatchsViewModel.Request}
    {a a' : Answer} (h : self'.selectedMatch = self.selectedMatch)
    (ha : r ≠ .getAllMatchs → a' = a) (orders : ℕ → DictOrder) :
    SameEffect (self.complete orders r a) (self'.complete orders r a') := by
  have hrefresh : ∀ m, SameEffect (self.refreshThenUnload m a) (self'.refreshThenUnload m a) := by
    intro m
    cases a with
    | error e =>
      apply sameEffect_ok
      exact h
    | _ =>
      unfold MatchsViewModel.refreshThenUnload MatchsViewModel.getMatchWithMatchID
        MatchsViewModel.send
      cases (MatchsViewModel.Request.getMatchWithMatchID m).remote with
      | error e =>
        intro _ _ habsurd
        cases habsurd
      | ok q =>
        apply sameEffect_ok
        exact h
  have hunload : ∀ m, SameEffect (self.unloadThenRefresh m a) (self'.unloadThenRefresh m a) := by
    intro m
    cases a with
    | error e =>
      apply sameEffect_ok
      exact h
    | _ =>
      apply sameEffect_send
      exact h
  cases r with
  | getAllMatchs =>
    apply sameEffect_ok
    rw [(getAllMatchsCompletion_spec self orders a).1,
      (getAllMatchsCompletion_spec self' orders a').1, h]
  | joinMatchesRead m u user =>
    rw [ha (by simp)]
    unfold MatchsViewModel.complete MatchsViewModel.joinMatchesReadCompletion
    cases a with
    | error e =>
      apply sameEffect_ok
      exact h
    | _ =>
      simp only
      split_ifs
      · apply sameEffect_ok
        exact h
      · exact sameEffect_send h _
  | isUserInFootballArea m u =>
    rw [ha (by simp)]
    unfold MatchsViewModel.complete MatchsViewModel.isUserInFootballAreaCompletion
    cases a with
    | error e =>
      apply sameEffect_ok
      exact h
    | _ =>
      simp only
      split
      · apply sameEffect_send
        exact h
      · apply sameEffect_ok
        exact h
  | leaveMatches m u =>
    rw [ha (by simp)]
    cases a with
    | error e =>
      apply sameEffect_ok
      exact h
    | _ =>
      apply sameEffect_send
      exact h
  | joinMatchesWrite m u user | deletePlayerForFootballArea m k | deleteMatches m =>
    rw [ha (by simp)]
    cases a <;> apply sameEffect_ok <;> exact h
  | setPlayerPositionWithMatch m k player | deletePlayerPositionWithMatch m k =>
    rw [ha (by simp)]
    exact hrefresh m
  | setIsPlanningCompleteForMatch m b | addComment m key comment uuid date =>
    rw [ha (by simp)]
    exact hunload m
  | getMatchWithMatchID m =>
    rw [ha (by simp)]
    apply sameEffect_ok
    unfold MatchsViewModel.getMatchWithMatchIDCompletion
    cases a with
    | error e => exact h
    | _ =>
      simp only
      split
      · rfl
      · exact h

/-- What two clients have in common: the user and the selected match. -/
def ClientsAgree (c c' : Client) : Prop :=
  c'.currentUser = c.currentUser ∧ c'.matchs.selectedMatch = c.matchs.selectedMatch

/-- The same effect keeps two clients in agreement. -/
theorem clientsAgree_withMatchs {c c' c₁ : Client} {e e' : MatchsViewModel.Effect}
    {rs : List Request} (h : ClientsAgree c c') (he : SameEffect e e')
    (hok : c.withMatchs e = .ok (c₁, rs)) :
    ∃ c₁', c'.withMatchs e' = .ok (c₁', rs) ∧ ClientsAgree c₁ c₁' := by
  simp only [Client.withMatchs, map_eq_ok, Prod.mk.injEq, Prod.exists] at hok ⊢
  obtain ⟨vm, rs', heff, rfl, rfl⟩ := hok
  obtain ⟨vm', heff', hselected⟩ := he vm rs' heff
  exact ⟨_, ⟨vm', rs', heff', rfl, rfl⟩, h.1, hselected⟩

/-- An operation on a match depends on the user and the selected match. -/
theorem clientsAgree_call {m : String} {c c' c₁ : Client} {op : Op} {rs : List Request}
    (h : ClientsAgree c c') (hop : op.addresses c = some m) (hcall : c.call op = .ok (c₁, rs)) :
    ∃ c₁', c'.call op = .ok (c₁', rs) ∧ ClientsAgree c₁ c₁' := by
  cases op with
  | joinMatches matchsID user =>
    refine clientsAgree_withMatchs h ?_ hcall
    unfold MatchsViewModel.joinMatches
    cases user.uuid with
    | none =>
      apply sameEffect_ok
      exact h.2
    | some u =>
      apply sameEffect_send
      exact h.2
  | leaveMatches matchsID =>
    refine clientsAgree_withMatchs h ?_ hcall
    rw [h.1]
    unfold MatchsViewModel.leaveMatches
    cases c.currentUser with
    | none =>
      apply sameEffect_ok
      exact h.2
    | some u =>
      apply sameEffect_send
      exact h.2
  | setIsPlanningCompleteForMatch matchID =>
    refine clientsAgree_withMatchs h ?_ hcall
    unfold MatchsViewModel.setIsPlanningCompleteForMatch
    simp only [h.2]
    cases c.matchs.selectedMatch.isPlanningComplete with
    | none =>
      apply sameEffect_ok
      rfl
    | some flag =>
      apply sameEffect_send
      rfl
  | addComment comment uuid date key =>
    refine clientsAgree_withMatchs h ?_ hcall
    unfold MatchsViewModel.addComment
    rw [h.2]
    cases c.matchs.selectedMatch.matchID with
    | none => exact sameEffect_ok h.2 _
    | some matchID =>
      apply sameEffect_send
      rfl
  | deleteMatches | setPlayerPositionWithMatch | deletePlayerPositionWithMatch =>
    refine clientsAgree_withMatchs h ?_ hcall
    apply sameEffect_send
    exact h.2
  | _ => cases hop

/-! ## Two runs -/

/-- What two runs on one match have in common. -/
def isolation (m : String) (db₀ : Value) : Agreement Firebase Client Request Answer where
  server := ServersAgree m db₀
  client := ClientsAgree
  request := AddressedTo m
  answer r a a' := r ≠ .matchs .getAllMatchs → a' = a

/-- The relation is kept by every step at the match. -/
theorem isolation_agrees {m : String} (hm : m ≠ "") (hslash : '/' ∉ m.toList) (db₀ : Value) :
    Agrees (isolation m db₀) App.resolvingService fun c op => op.addresses c = some m where
  permits := by
    intro c c' op hc hop
    cases op with
    | addComment comment uuid date key => exact (congrArg MatchsModel.matchID hc.2).trans hop
    | _ => exact hop
  call := by
    intro c c' op c₁ rs hc hop hcall
    have hcall := toOption_eq_some.mp hcall
    obtain ⟨c₁', hcall', hc₁⟩ := clientsAgree_call hc hop hcall
    exact ⟨c₁', toOption_eq_some.mpr hcall', hc₁, addressedTo_of_call hop hcall⟩
  serve o hs hr := serversAgree_serve hm hslash o hs hr
  complete := by
    intro c c' r a a' orders c₁ rs hc hr ha hcomplete
    have hcomplete := toOption_eq_some.mp hcomplete
    have hrs := addressedTo_of_complete hr hcomplete
    obtain ⟨r, rfl, -⟩ := hr
    have hsame : r ≠ .getAllMatchs → a' = a := by
      intro hne
      apply ha
      exact fun heq => hne (Request.matchs.inj heq)
    obtain ⟨c₁', hcomplete', hc₁⟩ :=
      clientsAgree_withMatchs hc (sameEffect_complete hc.2 hsame orders) hcomplete
    exact ⟨c₁', toOption_eq_some.mpr hcomplete', hc₁, hrs⟩

/-- Every run of operations on one match, from any database and any caches, with any failures:
users and the other matches are as before; and from any other database with the same `Matchs/m`,
with the same users signed in and the same selected matches, the same labels lead to the same
`Matchs/m`. -/
theorem match_isolated {m : String} (hm : m ≠ "") (hslash : '/' ∉ m.toList) {w w₁ : World}
    {ls : List Label} (hflights : w.flights = [])
    (hrun : exec (restrict App.resolvingService.step
      (OnCall fun w i op => op.addresses (w.clients i) = some m)) w ls = some w₁) :
    OutsideUnchanged m w.server.database w₁.server.database ∧
      ∀ w' : World, matchNode w'.server.database m = matchNode w.server.database m →
        (∀ i, ClientsAgree (w.clients i) (w'.clients i)) → w'.flights = [] →
        ∃ w₁', exec (restrict App.resolvingService.step
            (OnCall fun w i op => op.addresses (w.clients i) = some m)) w' ls = some w₁' ∧
          matchNode w₁'.server.database m = matchNode w₁.server.database m := by
  have hagrees := isolation_agrees hm hslash w.server.database
  have hstart : ∀ w' : World, matchNode w'.server.database m = matchNode w.server.database m →
      (∀ i, ClientsAgree (w.clients i) (w'.clients i)) → w'.flights = [] →
      WorldsAgree (isolation m w.server.database) w w' := by
    intro w' hserver hclients hflights'
    refine ⟨⟨⟨rfl, fun _ _ => rfl⟩, hserver⟩, hclients, ?_⟩
    rw [hflights, hflights']
    exact .nil
  constructor
  · -- the first run beside itself
    obtain ⟨w₁', -, hend⟩ := lockstep hagrees (hstart w rfl (fun _ => ⟨rfl, rfl⟩) hflights) hrun
    exact hend.server.1
  · intro w' hserver hclients hflights'
    obtain ⟨w₁', hrun', hend⟩ := lockstep hagrees (hstart w' hserver hclients hflights') hrun
    exact ⟨w₁', hrun', hend.server.2⟩

/-- A match whose slot stores `n` with a slash in its name. -/
def slashedSlot : Value :=
  (sampleMatch ["n"]).database.set ["Matchs", "m", "Positions", "A0"]
    (.object [("uuid", .leaf (.str "n")), ("positionForMatch", .leaf (.str "A0/uuid"))])

/-- `n` leaves, and the removal goes below the slot. -/
theorem match_isolated_slashed_slot :
    ∃ w w', exec (restrict App.resolvingService.step
        (OnCall fun w i op => op.addresses (w.clients i) = some "m"))
        (World.start ⟨slashedSlot, []⟩ fun _ => some "n")
        ([.call 0 (.leaveMatches "m")] ++ roundTrip 0 {} ++ roundTrip 0 {} ++ roundTrip 0 {}) =
          some w ∧
      exec (restrict App.resolvingService.step
        (OnCall fun w i op => op.addresses (w.clients i) = some "m"))
        (World.start ⟨slashedSlot.set ["Users", "n"] (.leaf (.bool true)), []⟩ fun _ => some "n")
        ([.call 0 (.leaveMatches "m")] ++ roundTrip 0 {} ++ roundTrip 0 {} ++ roundTrip 0 {}) =
          some w' ∧
      ((positions w.server.database "m").child "A0").keys = ["positionForMatch"] ∧
      OutsideUnchanged "m" slashedSlot w.server.database ∧
      matchNode w'.server.database "m" = matchNode w.server.database "m" := by
  obtain ⟨w, hw, hslot⟩ := Option.map_eq_some_iff.mp (show (exec (restrict
    App.resolvingService.step (OnCall fun w i op => op.addresses (w.clients i) = some "m"))
    (World.start ⟨slashedSlot, []⟩ fun _ => some "n")
    ([.call 0 (.leaveMatches "m")] ++ roundTrip 0 {} ++ roundTrip 0 {} ++ roundTrip 0 {})).map
    (fun w => ((positions w.server.database "m").child "A0").keys) = some ["positionForMatch"]
    from by decide +kernel)
  obtain ⟨houtside, htwo⟩ := match_isolated (by decide) (by decide) rfl hw
  obtain ⟨w', hw', hsame⟩ := htwo
    (World.start ⟨slashedSlot.set ["Users", "n"] (.leaf (.bool true)), []⟩ fun _ => some "n")
    (matchNode_set_user slashedSlot "m" "n" [] _) (fun _ => ⟨rfl, rfl⟩) rfl
  exact ⟨w, w', hw, hw', hslot, houtside, hsame⟩

end TifaSoccer
