import TifaSoccer.CacheTheorems
import TifaSoccer.Lib.Timed

/-!
# The app with its history

`App.timed` runs the app with the history of `TifaSoccer.Lib.Timed`: which requests the server has
taken, which answer the match a client shows was decoded from, and which answer a request was
issued on. Guards that a client evaluates on a cached copy are as good as this answer.
-/

namespace TifaSoccer

open Async Run

abbrev TimedWorld := Async.TimedWorld ℕ Firebase Client Request Answer Outcome

abbrev TimedFlight := Async.TimedFlight ℕ Client Request Answer

/-- The answers `selectedMatch` is decoded from. -/
def Request.storesMatch : Request → Answer → Bool
  | .matchs (.getMatchWithMatchID _), a => a.value.asDictionary.isSome
  | _, _ => false

/-- One step of the clients and the server, with the history. -/
def App.timed : TimedWorld → Label → Option TimedWorld :=
  (App.service.timed Request.storesMatch).step

/-- The world right after all clients have started. -/
def TimedWorld.start (server : Firebase) (sessions : ℕ → Option String) : TimedWorld :=
  World.timed server fun i => Client.start (sessions i)

/-- Forgetting the history leaves a run of the app. -/
theorem untimed_of_reaches {Cond : TimedWorld → Label → Prop} {C : World → Label → Prop}
    {server : Firebase} {sessions : ℕ → Option String} {w : TimedWorld}
    (hrun : Reaches App.timed Cond (TimedWorld.start server sessions) w)
    (hCond : ∀ w l, Cond w l → C w.untimed l) :
    Reaches App.step C (World.start server sessions) w.untimed :=
  reaches_untimed hrun hCond

/-- A request in flight is in flight without the history. -/
theorem mem_untimed {w : TimedWorld} {fl : TimedFlight} (hfl : fl ∈ w.flights) :
    fl.untimed ∈ w.untimed.flights :=
  List.mem_map_of_mem hfl

/-- The selected match of a client was decoded from the answer. -/
def SelectedFrom (c : Client) (x : Reading Request Answer) : Prop :=
  ∃ m order d, x.request = .matchs (.getMatchWithMatchID m) ∧ x.answer.value.asDictionary = some d ∧
    c.matchs.selectedMatch = MatchsModel.init order d

/-- Only the answers that are kept change the selected match. -/
theorem storesMatch_of_completed {c c' : Client} {orders : ℕ → DictOrder} {r : Request} {a : Answer}
    (h : CompletedFrom c orders r a c') :
    (r.storesMatch a = false ∧ c'.matchs.selectedMatch = c.matchs.selectedMatch) ∨
      ∃ m d, r.storesMatch a = true ∧ r = .matchs (.getMatchWithMatchID m) ∧
        a.value.asDictionary = some d ∧
        c'.matchs.selectedMatch = MatchsModel.init (orders 0) d := by
  rcases h.selection with ⟨hsame, -, hnone⟩ | ⟨m, d, rfl, hd, hselected, -⟩
  · refine .inl ⟨?_, hsame⟩
    unfold Request.storesMatch
    split
    · rw [hnone _ rfl]
      rfl
    · rfl
  · exact .inr ⟨m, d, by simp [Request.storesMatch, hd], rfl, hd, hselected⟩

/-- In every run the selected match of each client, and of each client at the time it issued a
request, was decoded from the answer the history has for it. -/
theorem selectedFrom_of_reaches {C : TimedWorld → Label → Prop} {server : Firebase}
    {sessions : ℕ → Option String} {w : TimedWorld}
    (hrun : Reaches App.timed C (TimedWorld.start server sessions) w) {fl : TimedFlight}
    (hfl : fl ∈ w.flights) {x : Reading Request Answer} (hx : fl.issuedIn.2 = some x) :
    SelectedFrom fl.issuedIn.1 x := by
  refine (client_invariant (P := App.service.timed Request.storesMatch)
    (Q := fun c => ∀ x, c.2 = some x → SelectedFrom c.1 x) hrun (fun i x hx => by cases hx) rfl
    ?_ ?_).2 fl hfl x hx
  · intro w i op c rs _ hQ _ hcall x hx
    obtain ⟨_, hcall, hkept, -⟩ := timed_call hcall
    rw [hkept] at hx
    obtain ⟨m, order, d, hr, hd, hselected⟩ := hQ x hx
    refine ⟨m, order, d, hr, hd, ?_⟩
    rw [← hselected]
    exact (calledFrom_of_call (toOption_eq_some.mp hcall)).selectedMatch
  · intro w n orders fl a c rs _ hQ _ hget ha hcomplete x hx
    obtain ⟨_, hcomplete, hlast, -⟩ := timed_complete hcomplete
    rw [hlast] at hx
    rcases storesMatch_of_completed (completedFrom_of_complete (toOption_eq_some.mp hcomplete)) with
      ⟨hkept, hsame⟩ | ⟨m, d, hstored, hr, hd, hselected⟩
    · rw [hkept, if_neg (by simp)] at hx
      obtain ⟨m, order, d, hr, hd, hselected⟩ := hQ x hx
      exact ⟨m, order, d, hr, hd, hsame.trans hselected⟩
    · rw [hstored, if_pos rfl] at hx
      cases hx
      exact ⟨m, orders 0, d, hr, hd, hselected⟩

end TifaSoccer
