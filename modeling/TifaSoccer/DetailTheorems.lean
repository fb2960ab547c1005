import TifaSoccer.CacheTheorems
import TifaSoccer.DocumentTheorems

/-!
# The detail screen

All detail screens share one `selectedMatch`. Removals from the pitch and planning toggles take
the id from the screen, assignments and comments take it from `selectedMatch`, and the planning
toggle negates the flag of `selectedMatch`. The two agree when the last match the client has
stored was fetched for the screen; a fetch that fails, finds nothing or is late keeps another
one there.
-/

namespace TifaSoccer

open Async Run

/-! ## Ids of documents -/

/-- A document has no `matchID`, or its own key as `matchID`. -/
def MatchIDsOwn (db : Value) : Prop :=
  ∀ m, ∀ id ∈ (matchNode db m).field "matchID", id = m

/-- A server step keeps the ids of the documents. -/
theorem matchIDsOwn_serve {s : Firebase} (h : MatchIDsOwn s.database) (r : Request) (o : Outcome) :
    MatchIDsOwn (r.serve s o).1.database := by
  intro m id hid
  cases documentStep_serve s r o m with
  | unchanged hdoc =>
    rw [hdoc] at hid
    exact h m id hid
  | created _ _ _ hfield =>
    rw [hfield] at hid
    exact (Option.some.inj hid).symm
  | deleted hdoc =>
    rw [hdoc] at hid
    cases hid
  | filled _ _ hfield =>
    rw [hfield] at hid
    exact h m id hid
  | thinned hfield _ =>
    rw [hfield] at hid
    exact h m id hid

/-- The match a request fetches for the detail screen. -/
def Request.selects : Request → Option String
  | .matchs (.getMatchWithMatchID m) => some m
  | _ => none

/-- The request that stores a match. -/
theorem selects_eq_some {r : Request} {m : String} :
    r.selects = some m ↔ r = .matchs (.getMatchWithMatchID m) := by
  unfold Request.selects
  split
  · simp
  · rename_i hne
    simp only [reduceCtorEq, false_iff]
    exact hne m

/-- What a fetch has brought is a document of the match it was made for. -/
def FetchedOwn (fl : Flight) : Prop :=
  ∀ m ∈ fl.request.selects, ∀ a ∈ fl.answer, ∀ d ∈ a.value.asDictionary,
    d.string "matchID" = m ∨ d.string "matchID" = ""

/-- A fetched document carries the id it was asked for. -/
theorem fetchedOwn_of_reaches {C : World → Label → Prop} {server : Firebase}
    {sessions : ℕ → Option String} {w : World} (h₀ : MatchIDsOwn server.database)
    (hrun : Reaches App.step C (World.start server sessions) w) :
    ∀ fl ∈ w.flights, FetchedOwn fl := by
  refine flight_invariant (P := App.service) hrun rfl ?_ ?_ ?_
  · intro w i op c rs r _ _ _ _ m _ a ha
    cases ha
  · intro w n o fl hreach _ _ _ _ m hm a ha d hd
    have hown : MatchIDsOwn w.server.database :=
      server_invariant (P := App.service) (I := fun s => MatchIDsOwn s.database) hreach h₀
        fun _ _ fl o _ hI _ _ => matchIDsOwn_serve hI fl.request o
    have ha : some (fl.request.serve w.server o).2 = some a := ha
    rw [Option.some.injEq, selects_eq_some.mp hm] at ha
    rcases MatchRead.detail.answer w.server o with hsnap | ⟨⟨e, herror⟩, -⟩
    · -- a missing id is decoded as the empty string
      rw [hsnap] at ha
      subst ha
      have hd : (matchNode w.server.database m).asDictionary = some d := hd
      rw [string_of_asDictionary hd]
      cases hfield : (matchNode w.server.database m).field "matchID" with
      | none => exact .inr rfl
      | some id => exact .inl (hown m id hfield)
    · rw [herror] at ha
      subst ha
      cases hd
  · intro w n d fl a c rs r _ _ _ _ _ _ _ m _ a ha
    cases ha

/-! ## The last match stored -/

/-- The match the completion of a request stores, with the planning flag read from it. -/
def storedBy (fl : Flight) : Option (String × Bool) := do
  let m ← fl.request.selects
  let a ← fl.answer
  let d ← a.value.asDictionary
  return (m, d.bool "isPlanningComplete")

/-- For each client the last match it has stored. -/
def lastStored : (ℕ → Option (String × Bool)) → World → Label → ℕ → Option (String × Bool) :=
  delivered fun fl last => (storedBy fl).or last

/-- The selected match is the one stored last; before that it has no id. -/
def SelectedIs (c : Client) : Option (String × Bool) → Prop
  | some (m, flag) => (c.matchs.selectedMatch.matchID = some m ∨
      c.matchs.selectedMatch.matchID = some "") ∧
    c.matchs.selectedMatch.isPlanningComplete = some flag
  | none => c.matchs.selectedMatch.matchID = some ""

/-- The stored match is all that counts. -/
theorem selectedIs_congr {c c' : Client} {x : Option (String × Bool)} (h : SelectedIs c x)
    (hselected : c'.matchs.selectedMatch = c.matchs.selectedMatch) : SelectedIs c' x := by
  unfold SelectedIs at h ⊢
  rw [hselected]
  exact h

/-- Along every run the selected match of each client is the one it has stored last. -/
theorem selectedIs_of_reaches {D : World × (ℕ → Option (String × Bool)) → Label → Prop}
    {server : Firebase} {sessions : ℕ → Option String}
    {s : World × (ℕ → Option (String × Bool))} (h₀ : MatchIDsOwn server.database)
    (hrun : Reaches (record App.step lastStored) D
      (World.start server sessions, fun _ => none) s) (i : ℕ) :
    SelectedIs (s.1.clients i) (s.2 i) := by
  revert i
  refine delivered_invariant (P := App.service) (Q := SelectedIs) hrun (fun _ => rfl) ?_ ?_
  · intro s i op c rs hQ _ hcall
    exact selectedIs_congr hQ (calledFrom_of_call (toOption_eq_some.mp hcall)).selectedMatch
  · intro s n d fl a c rs hreach hQ _ hget ha hcomplete
    have hfrom := completedFrom_of_complete (toOption_eq_some.mp hcomplete)
    have hworld : Reaches App.step (fun _ _ => True) (World.start server sessions) s.1 :=
      hreach.of_record fun _ _ _ => trivial
    rcases hfrom.selection with ⟨hselected, -, hnone⟩ | ⟨m, dict, hr, hdict, hselected, -⟩
    · -- nothing was stored
      have hstored : storedBy fl = none := by
        cases hsel : fl.request.selects with
        | none => simp [storedBy, hsel]
        | some m => simp [storedBy, hsel, ha, hnone m (selects_eq_some.mp hsel)]
      rw [hstored, Option.none_or]
      exact selectedIs_congr hQ hselected
    · have hown := fetchedOwn_of_reaches h₀ hworld fl (List.mem_of_getElem? hget) m
        (selects_eq_some.mpr hr) a ha dict hdict
      have hstored : storedBy fl = some (m, dict.bool "isPlanningComplete") := by
        simp [storedBy, selects_eq_some.mpr hr, ha, hdict]
      rw [hstored, Option.some_or]
      unfold SelectedIs
      rw [hselected]
      exact ⟨hown.imp (congrArg some) (congrArg some), rfl⟩

/-! ## Calls from the screen -/

/-- The calls of the detail screen that write. -/
def Op.writesDetail : Op → Bool
  | .setPlayerPositionWithMatch _ _ _ => true
  | .deletePlayerPositionWithMatch _ _ => true
  | .setIsPlanningCompleteForMatch _ => true
  | .addComment _ _ _ _ => true
  | _ => false

/-- The calls that use the selected match. -/
def Op.usesSelected : Op → Bool
  | .setPlayerPositionWithMatch _ _ _ => true
  | .setIsPlanningCompleteForMatch _ => true
  | .addComment _ _ _ _ => true
  | _ => false

/-- The call that reads the planning flag of the selected match. -/
def Op.togglesPlanning : Op → Bool
  | .setIsPlanningCompleteForMatch _ => true
  | _ => false

/-- The last match the client has stored, if any, is the one on the screen, and a planning
toggle comes only after one has been stored. -/
def StoredOnScreen (last : ℕ → Option (String × Bool)) (w : World) (i : ℕ) (op : Op) : Prop :=
  (op.usesSelected = true → ∀ stored ∈ last i, (w.clients i).detail = some stored.1) ∧
    (op.togglesPlanning = true → (last i).isSome = true)

instance (last : ℕ → Option (String × Bool)) (w : World) (i : ℕ) (op : Op) :
    Decidable (StoredOnScreen last w i op) :=
  inferInstanceAs (Decidable (_ ∧ _))

/-- When the last match stored is that of the screen, a selected id that is not empty is the
screen's. -/
theorem selected_id_eq {c : Client} {x : Option (String × Bool)} {m m' : String}
    (hselected : SelectedIs c x) (hstored : ∀ stored ∈ x, c.detail = some stored.1)
    (hscreen : c.detail = some m) (hm' : c.matchs.selectedMatch.matchID = some m')
    (hne : m' ≠ "") : m' = m := by
  cases x with
  | none =>
    have hempty : c.matchs.selectedMatch.matchID = some "" := hselected
    rw [hm'] at hempty
    exact absurd (Option.some.inj hempty) hne
  | some stored =>
    have hm := hstored stored rfl
    rw [hscreen, Option.some.injEq] at hm
    rcases hselected.1 with h | h
    · rw [hm', Option.some.injEq] at h
      rw [h, hm]
    · rw [hm', Option.some.injEq] at h
      exact absurd h hne

/-- In every run, a call that the screen of `m` makes while the last match stored is that of the
screen writes only below `Matchs/m`, and a planning toggle writes the negation of the flag that
was read from `m`. -/
theorem detail_writes_to_screen {server : Firebase} {sessions : ℕ → Option String}
    {s : World × (ℕ → Option (String × Bool))} (h₀ : MatchIDsOwn server.database)
    (hrun : Reaches (record App.step lastStored) (fun s l => OnCall (StoredOnScreen s.2) s.1 l)
      (World.start server sessions, fun _ => none) s)
    {i : ℕ} {op : Op} {m : String} {c : Client} {rs : List Request}
    (hcond : OnCall (StoredOnScreen s.2) s.1 (.call i op : Label))
    (hwrites : op.writesDetail = true) (hscreen : (s.1.clients i).detail = some m)
    (hsupplies : (s.1.clients i).Supplies op) (hcall : (s.1.clients i).call op = .ok (c, rs)) :
    ∀ r ∈ rs, (∃ p v, MatchWrite m r p v) ∧
      ∀ flag, r = .matchs (.setIsPlanningCompleteForMatch m flag) → s.2 i = some (m, !flag) := by
  intro r hr
  have hselected := selectedIs_of_reaches h₀ hrun i
  obtain ⟨hissues, q, hq⟩ := issues_of_call hcall hr
  -- assignments and comments take the id from the selected match, the other two from the screen
  cases hissues with
  | setPlayerPositionWithMatch m' k player =>
    have hw := MatchWrite.assign (m := m') k player
    have hne : m' ≠ "" := (hw.remote_eq_ok.mp hq).1
    have hid := eq_some_of_getD hsupplies.2.1.symm hne
    rw [selected_id_eq hselected (hcond.1 rfl) hscreen hid hne] at hw ⊢
    exact ⟨⟨_, _, hw⟩, by simp⟩
  | addComment comment uuid date key hid =>
    rename_i m'
    have hw := MatchWrite.comment (m := m') key comment uuid date
    have hne : m' ≠ "" := (hw.remote_eq_ok.mp hq).1
    rw [selected_id_eq hselected (hcond.1 rfl) hscreen hid hne] at hw ⊢
    exact ⟨⟨_, _, hw⟩, by simp⟩
  | deletePlayerPositionWithMatch m' k =>
    have hm : m' = m := Option.some.inj (hsupplies.1.symm.trans hscreen)
    rw [hm]
    exact ⟨⟨_, _, .unassign k⟩, by simp⟩
  | @setIsPlanningCompleteForMatch flag₀ m' hflag =>
    have hm : m' = m := Option.some.inj (hsupplies.symm.trans hscreen)
    rw [hm]
    refine ⟨⟨_, _, .planning _⟩, fun flag hr => ?_⟩
    -- the flag negated is the one stored last, which was read from the screen's match
    obtain ⟨⟨m₁, flag₁⟩, hstored⟩ := Option.isSome_iff_exists.mp (hcond.2 rfl)
    have hm₁ : m = m₁ := Option.some.inj (hscreen.symm.trans (hcond.1 rfl _ hstored))
    rw [hstored] at hselected ⊢
    have hflags : flag₁ = flag₀ := Option.some.inj (hselected.2.symm.trans hflag)
    cases hr
    rw [hflags, Bool.not_not, hm₁]
  | _ => cases hwrites

/-- Two matches, for concrete runs. -/
def twoMatches : Firebase where
  database := (sampleMatch []).database.set ["Matchs", "o"]
    (.object (CreateMatchViewModel.matchParams "o" "message" "area" 0 1))
  accounts := []

/-- A new document carries its own id. -/
theorem matchIDsOwn_create {db : Value} (h : MatchIDsOwn db) (m adminMessage footballArea : String)
    (startDate finishDate : Int64) :
    MatchIDsOwn (db.set ["Matchs", m] (.object
      (CreateMatchViewModel.matchParams m adminMessage footballArea startDate finishDate))) := by
  intro m' id hid
  rw [matchNode_set_match] at hid
  split_ifs at hid with hm
  · simp [Value.field, Json.object, CreateMatchViewModel.matchParams, Json.leaf,
      Node.asString] at hid
    rw [hm, hid]
  · exact h m' id hid

/-- The sample has two documents with their own ids. -/
theorem matchIDsOwn_twoMatches : MatchIDsOwn twoMatches.database :=
  matchIDsOwn_create (matchIDsOwn_create (fun _ _ h => by cases h) _ _ _ _ _) _ _ _ _ _

/-- Open the screen of `m` and wait for the match. -/
def openFirst : List Label :=
  [.call 0 .getAllMatchs] ++ roundTrip 0 {} ++ [.call 0 (.openDetail "m")] ++ roundTrip 0 {}

/-- A write from the screen after its match has been fetched. -/
theorem detail_writes_to_screen_after_fetch :
    ∃ s c rs, exec (restrict (record App.step lastStored)
        (fun s l => OnCall (StoredOnScreen s.2) s.1 l))
        (World.start twoMatches fun _ => some "n", fun _ => none) openFirst = some s ∧
      (s.1.clients 0).call (.setIsPlanningCompleteForMatch "m") = .ok (c, rs) ∧
      ∀ r ∈ rs, (∃ p v, MatchWrite "m" r p v) ∧ ∀ flag,
        r = .matchs (.setIsPlanningCompleteForMatch "m" flag) → s.2 0 = some ("m", !flag) := by
  obtain ⟨s, hs, hend⟩ := Option.map_eq_some_iff.mp (show (exec (restrict (record App.step
    lastStored) (fun s l => OnCall (StoredOnScreen s.2) s.1 l))
    (World.start twoMatches fun _ => some "n", fun _ => none) openFirst).map
    (fun s => ((s.1.clients 0).detail, s.2 0,
      ((s.1.clients 0).call (.setIsPlanningCompleteForMatch "m")).toOption.isSome)) =
    some (some "m", some ("m", false), true) from by decide +kernel)
  simp only [Prod.mk.injEq] at hend
  obtain ⟨hscreen, hlast, hok⟩ := hend
  obtain ⟨⟨c, rs⟩, hcall⟩ := Option.isSome_iff_exists.mp hok
  have hcall := toOption_eq_some.mp hcall
  have hcond : StoredOnScreen s.2 s.1 0 (.setIsPlanningCompleteForMatch "m") := by
    rw [StoredOnScreen, hlast, hscreen]
    exact ⟨fun _ stored hstored => by rw [← Option.some.inj hstored], fun _ => rfl⟩
  exact ⟨s, c, rs, hs, hcall, detail_writes_to_screen matchIDsOwn_twoMatches (reaches_of_exec hs)
    hcond rfl hscreen hscreen hcall⟩

/-- Open the screen of `m`, close it, and open that of `o`, whose fetch fails. -/
def openSecondFails : List Label :=
  openFirst ++ [.call 0 .closeDetail, .call 0 (.openDetail "o")] ++
    roundTrip 0 { error := some "offline" } ++ [.call 0 .dismissAlert]

/-- A comment sent from the screen of `o` is written to `m`. -/
theorem comment_goes_to_previous_match :
    ∃ w c, exec (restrict App.step (OnCall fun w i op => (w.clients i).Supplies op))
        (World.start twoMatches fun _ => some "n") openSecondFails = some w ∧
      (w.clients 0).detail = some "o" ∧ (w.clients 0).matchs.isLoad = false ∧
      (w.clients 0).Supplies (.addComment "hi" "uuid" "date" "key") ∧
      (w.clients 0).call (.addComment "hi" "uuid" "date" "key") =
        .ok (c, [.matchs (.addComment "m" "key" "hi" "uuid" "date")]) := by
  obtain ⟨w, hw, hend⟩ := Option.map_eq_some_iff.mp (show (exec (restrict App.step
    (OnCall fun w i op => (w.clients i).Supplies op)) (World.start twoMatches fun _ => some "n")
    openSecondFails).map (fun w => ((w.clients 0).detail, (w.clients 0).matchs.isLoad,
      decide ((w.clients 0).Supplies (.addComment "hi" "uuid" "date" "key")),
      ((w.clients 0).call (.addComment "hi" "uuid" "date" "key")).toOption.map Prod.snd)) =
    some (some "o", false, true, some [.matchs (.addComment "m" "key" "hi" "uuid" "date")])
    from by decide +kernel)
  simp only [Prod.mk.injEq, Option.map_eq_some_iff, toOption_eq_some] at hend
  obtain ⟨hscreen, hload, hsupplies, ⟨c, rs⟩, hcall, rfl⟩ := hend
  exact ⟨w, c, hw, hscreen, hload, of_decide_eq_true hsupplies, hcall⟩

end TifaSoccer
